import MarkovDecision.Numeric.Powers

/-!
# Reading numbers

Two readers over the characters of a text, both refusing everything that does not
belong to the number. A natural number is a run of digits, with a plus sign
allowed in front, below a bound. A decimal has a sign, digits around an optional
point with at least one digit among them, and an exponent; the names of infinity
and of what is not a number are read in any case of letters. A decimal is rounded
to the nearest double, so too large a number is infinite and too small a one
zero.
-/

namespace MarkovDecision.Decimal

/-- The value of a run of digits. -/
def ofDigits (digits : List Char) : Nat :=
  digits.foldl (fun value c => 10 * value + (c.toNat - '0'.toNat)) 0

/-- A number written as a non-empty run of digits. -/
def readDigits? (cs : List Char) : Option Nat :=
  if !cs.isEmpty && cs.all Char.isDigit then some (ofDigits cs) else none

/-- A natural number below `bound`, with an optional plus sign. -/
def readBelow? (bound : Nat) (text : String) : Option Nat := do
  let value ← readDigits? (match text.toList with | '+' :: rest => rest | cs => cs)
  if value < bound then some value else none

/-- A number that fits a 64-bit word. -/
def readWord? (text : String) : Option Nat := readBelow? (pow2 64) text

/-- The double nearest to `digits · 10 ^ exponent`, where `length` counts the digits. Exponents far
outside the range of doubles are cut short. -/
def nearest (digits length : Nat) (exponent : Int) : Float :=
  if digits == 0 then 0.0
  else if exponent + length > 400 then 1.0 / 0.0
  else if exponent + length < -400 then 0.0
  else if exponent ≥ 0 then Float.ofScientific digits false exponent.toNat
  else Float.ofScientific digits true (-exponent).toNat

/-- The exponent after its mark, with an optional sign. -/
def readExponent? (cs : List Char) : Option Int :=
  match cs with
  | '-' :: rest => (readDigits? rest).map fun n => -(n : Int)
  | '+' :: rest => (readDigits? rest).map Int.ofNat
  | rest => (readDigits? rest).map Int.ofNat

/-- A decimal without its sign. -/
def readMagnitude? (cs : List Char) : Option Float := do
  let whole := cs.takeWhile Char.isDigit
  let rest := cs.dropWhile Char.isDigit
  let (fraction, rest) := match rest with
    | '.' :: rest => (rest.takeWhile Char.isDigit, rest.dropWhile Char.isDigit)
    | rest => ([], rest)
  let digits := whole ++ fraction
  if digits.isEmpty then none
  let exponent ← match rest with
    | [] => some 0
    | 'e' :: rest => readExponent? rest
    | 'E' :: rest => readExponent? rest
    | _ => none
  some (nearest (ofDigits digits) digits.length (exponent - fraction.length))

/-- A decimal, an infinity, or the name of what is not a number, without its sign. -/
def readUnsigned? (cs : List Char) : Option Float :=
  match String.ofList (cs.map Char.toLower) with
  | "inf" => some (1.0 / 0.0)
  | "infinity" => some (1.0 / 0.0)
  | "nan" => some (0.0 / 0.0)
  | _ => readMagnitude? cs

/-- **The double a text denotes**, if it denotes one. -/
def readFloat? (text : String) : Option Float :=
  match text.toList with
  | '-' :: rest => (readUnsigned? rest).map (-·)
  | '+' :: rest => readUnsigned? rest
  | cs => readUnsigned? cs

end MarkovDecision.Decimal
