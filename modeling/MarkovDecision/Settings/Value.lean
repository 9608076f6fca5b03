import MarkovDecision.Decimal.Read

/-!
# Values of a settings file

Settings are written in TOML, and this module reads the values of that format:
texts in their four kinds of quotes, integers in four bases, decimals, truth
values, arrays and inline tables. Dates belong to the format too, but no setting
is one and they are refused like any other text that is no value.

A reader takes characters from the front and returns what it found with the
characters that are left. Values nest, so the readers of values spend fuel; every
level takes a character, and the length of the text is enough.
-/

namespace MarkovDecision.Settings

/-- A value of a settings file. -/
inductive Value where
  /-- A text. -/
  | text (s : String)
  /-- An integer of 64 bits. -/
  | integer (i : Int)
  /-- A decimal. -/
  | decimal (x : Float)
  /-- A truth value. -/
  | truth (b : Bool)
  /-- An array. -/
  | array (items : List Value)
  /-- A table, by its keys. -/
  | table (entries : List (String × Value))

/-- Takes something from the front of a text. -/
abbrev Reader (α : Type) := List Char → Option (α × List Char)

/-! ### Blanks and comments -/

/-- A blank within a line. -/
def isSpace (c : Char) : Bool := c = ' ' || c = '\t'

/-- A text without the blanks at its front. -/
def skipSpace (cs : List Char) : List Char := cs.dropWhile isSpace

/-- A character that may stand in a comment or between quotes: no control except the tab. -/
def isPlain (c : Char) : Bool := c = '\t' || (c.toNat ≥ 0x20 && c.toNat ≠ 0x7f)

/-- A text after a line break, if it begins with one. -/
def newline? : List Char → Option (List Char)
  | '\n' :: rest => some rest
  | '\r' :: '\n' :: rest => some rest
  | _ => none

/-- A text without the comment at its front, which has to be of plain characters. -/
def skipComment : List Char → List Char
  | '#' :: rest => rest.dropWhile isPlain
  | cs => cs

/-- Passes blanks, comments and line breaks. -/
def skipLines : Nat → List Char → List Char
  | 0, cs => cs
  | fuel + 1, cs =>
    let cs := skipComment (skipSpace cs)
    match newline? cs with
    | some rest => skipLines fuel rest
    | none => cs

/-! ### Texts -/

/-- The value of a hexadecimal digit. -/
def hexDigit? (c : Char) : Option Nat :=
  if c.isDigit then some (c.toNat - '0'.toNat)
  else if 'a' ≤ c && c ≤ 'f' then some (c.toNat - 'a'.toNat + 10)
  else if 'A' ≤ c && c ≤ 'F' then some (c.toNat - 'A'.toNat + 10)
  else none

/-- The character with a number of a given count of hexadecimal digits. -/
def numberedChar (count : Nat) : Reader Char := fun cs => do
  let digits := cs.take count
  if digits.length ≠ count then none
  let n ← digits.foldlM (fun n c => (hexDigit? c).map (16 * n + ·)) 0
  if n.isValidChar then some (Char.ofNat n, cs.drop count) else none

/-- The character after a backslash. -/
def escape : Reader Char
  | 'b' :: rest => some ('\x08', rest)
  | 't' :: rest => some ('\t', rest)
  | 'n' :: rest => some ('\n', rest)
  | 'f' :: rest => some ('\x0c', rest)
  | 'r' :: rest => some ('\r', rest)
  | '"' :: rest => some ('"', rest)
  | '\\' :: rest => some ('\\', rest)
  | 'u' :: rest => numberedChar 4 rest
  | 'U' :: rest => numberedChar 8 rest
  | _ => none

/-- The rest of a text in double quotes; what has been read of it is kept last first. -/
def basicText : Nat → List Char → Reader String
  | 0, _, _ => none
  | fuel + 1, read, cs =>
    match cs with
    | '"' :: rest => some (String.ofList read.reverse, rest)
    | '\\' :: rest => do
      let (c, rest) ← escape rest
      basicText fuel (c :: read) rest
    | c :: rest => if isPlain c then basicText fuel (c :: read) rest else none
    | [] => none

/-- The rest of a text in single quotes. -/
def literalText (cs : List Char) : Option (String × List Char) :=
  let body := cs.takeWhile fun c => c ≠ '\'' && isPlain c
  match cs.drop body.length with
  | '\'' :: rest => some (String.ofList body, rest)
  | _ => none

/-- The blanks and line breaks at the front of a text, dropped. -/
def skipBlankLines : Nat → List Char → List Char
  | 0, cs => cs
  | fuel + 1, cs =>
    let cs := skipSpace cs
    match newline? cs with
    | some rest => skipBlankLines fuel rest
    | none => cs

/-- The rest of a text of several lines, between three quotes of the given kind. Up to two quotes
may stand before the closing three. Between double quotes a backslash escapes, and at the end of a
line it joins the next one. -/
def longText (quote : Char) : Nat → List Char → Reader String
  | 0, _, _ => none
  | fuel + 1, read, cs =>
    let quotes := (cs.takeWhile (· = quote)).length
    if quotes ≥ 3 then
      let own := min (quotes - 3) 2
      some (String.ofList (List.replicate own quote ++ read).reverse, cs.drop (own + 3))
    else
      match newline? cs with
      | some rest => longText quote fuel ('\n' :: read) rest
      | none =>
        match cs with
        | [] => none
        | c :: rest =>
          if quote = '"' && c = '\\' then
            match newline? (skipSpace rest) with
            | some rest => longText quote fuel read (skipBlankLines rest.length rest)
            | none => do
              let (c, rest) ← escape rest
              longText quote fuel (c :: read) rest
          else if isPlain c then longText quote fuel (c :: read) rest
          else none

/-- A text in one of the four kinds of quotes. A line break right after three quotes is not part
of the text. -/
def readText (cs : List Char) : Option (String × List Char) :=
  match cs with
  | '"' :: '"' :: '"' :: rest =>
    longText '"' (rest.length + 1) [] ((newline? rest).getD rest)
  | '"' :: rest => basicText (rest.length + 1) [] rest
  | '\'' :: '\'' :: '\'' :: rest =>
    longText '\'' (rest.length + 1) [] ((newline? rest).getD rest)
  | '\'' :: rest => literalText rest
  | _ => none

/-! ### Numbers -/

/-- The digits of a number with single low lines between them taken out, if all is in order. -/
def groupedDigits? (isDigit : Char → Bool) : List Char → Option (List Char)
  | [] => none
  | [c] => if isDigit c then some [c] else none
  | c :: '_' :: rest => if isDigit c then (groupedDigits? isDigit rest).map (c :: ·) else none
  | c :: rest => if isDigit c then (groupedDigits? isDigit rest).map (c :: ·) else none

/-- The digits of a decimal integer, which begins with a zero only if it is one. -/
def wholeDigits? (cs : List Char) : Option (List Char) := do
  let digits ← groupedDigits? Char.isDigit cs
  if digits.length > 1 && digits.head? = some '0' then none else some digits

/-- The sign at the front of a number. -/
def splitSign : List Char → Bool × List Char
  | '-' :: rest => (true, rest)
  | '+' :: rest => (false, rest)
  | cs => (false, cs)

/-- An integer in a base other than ten. -/
def basedInteger? (base : Nat) (cs : List Char) : Option Int := do
  let value (c : Char) : Option Nat := (hexDigit? c).filter (· < base)
  let digits ← groupedDigits? (fun c => (value c).isSome) cs
  let n ← digits.foldlM (fun n c => (value c).map (base * n + ·)) 0
  if n < pow2 63 then some n else none

/-- An integer of 64 bits. -/
def integer? (cs : List Char) : Option Int :=
  match cs with
  | '0' :: 'x' :: rest => basedInteger? 16 rest
  | '0' :: 'o' :: rest => basedInteger? 8 rest
  | '0' :: 'b' :: rest => basedInteger? 2 rest
  | _ => do
    let (negative, rest) := splitSign cs
    let n := Decimal.ofDigits (← wholeDigits? rest)
    let i : Int := if negative then -n else n
    if -(pow2 63 : Int) ≤ i && i < pow2 63 then some i else none

/-- The exponent of a decimal, which may begin with zeros. -/
def exponent? (cs : List Char) : Option Int := do
  let (negative, rest) := splitSign cs
  let n := Decimal.ofDigits (← groupedDigits? Char.isDigit rest)
  some (if negative then -n else n)

/-- A decimal: an integer followed by a fraction or an exponent or both. One that is too large is
refused, unless it is negative. -/
def decimal? (cs : List Char) : Option Float := do
  let (negative, rest) := splitSign cs
  let signed (x : Float) : Float := if negative then -x else x
  if rest = ['i', 'n', 'f'] then return signed (1.0 / 0.0)
  if rest = ['n', 'a', 'n'] then return signed (0.0 / 0.0)
  let (mantissa, mark) := rest.span fun c => c ≠ 'e' && c ≠ 'E'
  let (whole, point) := mantissa.span (· ≠ '.')
  let whole ← wholeDigits? whole
  let fraction ← match point with
    | [] => some []
    | _ :: digits => groupedDigits? Char.isDigit digits
  let exponent ← match mark with
    | [] => some 0
    | _ :: rest => exponent? rest
  if point.isEmpty && mark.isEmpty then none
  let digits := whole ++ fraction
  let x := signed (Decimal.nearest (Decimal.ofDigits digits) digits.length
    (exponent - fraction.length))
  if x == 1.0 / 0.0 then none else some x

/-- A character that ends a word. -/
def endsWord (c : Char) : Bool :=
  isSpace c || c = '\n' || c = '\r' || c = '#' || c = ',' || c = ']' || c = '}'

/-- A value written as one word: a truth value or a number. -/
def wordValue? (word : List Char) : Option Value :=
  if word = ['t', 'r', 'u', 'e'] then some (.truth true)
  else if word = ['f', 'a', 'l', 's', 'e'] then some (.truth false)
  else
    match integer? word with
    | some i => some (.integer i)
    | none => (decimal? word).map .decimal

/-! ### Keys, arrays and tables -/

/-- A character of a key without quotes. -/
def isBare (c : Char) : Bool := c.isAlphanum || c = '_' || c = '-'

/-- One part of a key. -/
def readPart (cs : List Char) : Option (String × List Char) :=
  match cs with
  | '"' :: rest => basicText (rest.length + 1) [] rest
  | '\'' :: rest => literalText rest
  | _ =>
    let (name, rest) := cs.span isBare
    if name.isEmpty then none else some (String.ofList name, rest)

/-- A key: parts with points between them. -/
def readKey : Nat → Reader (List String)
  | 0, _ => none
  | fuel + 1, cs => do
    let (part, rest) ← readPart cs
    match skipSpace rest with
    | '.' :: rest => do
      let (parts, rest) ← readKey fuel (skipSpace rest)
      some (part :: parts, rest)
    | _ => some ([part], rest)

/-- An entry for a key that is new to a table. -/
def insertNew (entries : List (String × Value)) (key : String) (v : Value) :
    Option (List (String × Value)) :=
  if entries.any (·.1 == key) then none else some (entries ++ [(key, v)])

mutual

/-- A value. -/
def readValue : Nat → Reader Value
  | 0, _ => none
  | fuel + 1, cs =>
    match cs with
    | '[' :: rest => readItems fuel [] rest
    | '{' :: rest =>
      match skipSpace rest with
      | '}' :: rest => some (.table [], rest)
      | rest => readEntries fuel [] rest
    | '"' :: _ => (readText cs).map fun (s, rest) => (.text s, rest)
    | '\'' :: _ => (readText cs).map fun (s, rest) => (.text s, rest)
    | _ => do
      let (word, rest) := cs.span fun c => !endsWord c
      some (← wordValue? word, rest)

/-- The rest of an array; the items read so far are kept last first. -/
def readItems : Nat → List Value → Reader Value
  | 0, _, _ => none
  | fuel + 1, items, cs =>
    match skipLines cs.length cs with
    | ']' :: rest => some (.array items.reverse, rest)
    | cs => do
      let (v, rest) ← readValue fuel cs
      match skipLines rest.length rest with
      | ',' :: rest => readItems fuel (v :: items) rest
      | ']' :: rest => some (.array (v :: items).reverse, rest)
      | _ => none

/-- The rest of an inline table. Settings do not nest in it, so its keys have one part. -/
def readEntries : Nat → List (String × Value) → Reader Value
  | 0, _, _ => none
  | fuel + 1, entries, cs => do
    let (key, rest) ← readKey cs.length (skipSpace cs)
    let [key] := key | none
    let '=' :: rest := skipSpace rest | none
    let (v, rest) ← readValue fuel (skipSpace rest)
    let entries ← insertNew entries key v
    match skipSpace rest with
    | ',' :: rest => readEntries fuel entries rest
    | '}' :: rest => some (.table entries, rest)
    | _ => none

end

end MarkovDecision.Settings
