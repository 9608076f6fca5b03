import MarkovDecision.Description.Token

/-!
# From characters to tokens

The text is read once, character by character. Between two characters the scanner
knows its place, the tokens it has cut out of the text, and what it is in the middle of: a
word or a run of digits that may go on, a dash that may become an arrow, a slash
that has to become a comment, or a comment. A character either goes on with what
is pending or completes it and begins something of its own; so every word and
every number takes in as many characters as it can.

Blanks, line breaks and comments separate tokens and leave nothing behind.
Characters outside the first hundred and twenty-eight may stand in comments only.
-/

namespace MarkovDecision

/-- A character that can neither go on with a token nor begin one. -/
structure StrayChar where
  /-- The character. -/
  char : Char
  /-- Where it stands. -/
  cursor : Cursor
  deriving DecidableEq

/-- Its line and column. -/
def StrayChar.position (stray : StrayChar) : Position := stray.cursor.toPosition

/-- A token that has been cut out of a text. -/
structure Cut where
  /-- The token. -/
  token : Token
  /-- Where it begins. -/
  start : Cursor
  /-- Where it ends. -/
  stop : Cursor

/-- The token at its place. -/
def Cut.located (cut : Cut) : Located := ⟨cut.token, cut.start.toPosition⟩

/-- What a scanner is in the middle of. -/
inductive Pending where
  /-- Nothing. -/
  | nothing
  /-- A comment. -/
  | comment
  /-- A slash. -/
  | slash (start : Cursor)
  /-- A dash. -/
  | dash (start : Cursor)
  /-- A word, its characters last first. -/
  | word (start : Cursor) (chars : List Char)
  /-- A run of digits, last first. -/
  | digits (start : Cursor) (chars : List Char)
  deriving DecidableEq

/-- A scanner between two characters. -/
structure Scanner where
  /-- The place of the next character. -/
  cursor : Cursor := {}
  /-- What is being read. -/
  pending : Pending := .nothing
  /-- The tokens completed, last first. -/
  cuts : List Cut := []

/-- A character that may begin a word. -/
def beginsWord (c : Char) : Bool := c.isAlpha || c = '_'

/-- A character that may go on with a word. -/
def continuesWord (c : Char) : Bool := c.isAlphanum || c = '_'

/-- The token of a mark that stands for itself. -/
def markToken : Char → Option Token
  | ':' => some .colon
  | ';' => some .semicolon
  | ',' => some .comma
  | '+' => some .plus
  | '[' => some .openBracket
  | ']' => some .closeBracket
  | _ => none

namespace Scanner

/-- Moves past a character, with something pending after it. -/
def past (s : Scanner) (c : Char) (pending : Pending) : Scanner :=
  { s with cursor := s.cursor.after c, pending }

/-- Completes a token, which ends here. -/
def emit (s : Scanner) (token : Token) (start : Cursor) : Scanner :=
  { s with cuts := ⟨token, start, s.cursor⟩ :: s.cuts }

/-- Reads a character that begins something of its own. -/
def begin (s : Scanner) (c : Char) : Except StrayChar Scanner :=
  if c = ' ' || c = '\t' || c = '\r' || c = '\n' then .ok (s.past c .nothing)
  else if c = '/' then .ok (s.past c (.slash s.cursor))
  else if c = '-' then .ok (s.past c (.dash s.cursor))
  else if c.isDigit then .ok (s.past c (.digits s.cursor [c]))
  else if beginsWord c then .ok (s.past c (.word s.cursor [c]))
  else
    match markToken c with
    | some token => .ok ((s.past c .nothing).emit token s.cursor)
    | none => .error ⟨c, s.cursor⟩

/-- Completes what is pending. A slash by itself is no token. -/
def complete (s : Scanner) : Except StrayChar Scanner :=
  match s.pending with
  | .nothing | .comment => .ok s
  | .slash start => .error ⟨'/', start⟩
  | .dash start => .ok (s.emit .minus start)
  | .word start chars => .ok (s.emit (.ofWord (String.ofList chars.reverse)) start)
  | .digits start chars => .ok (s.emit (.digits (String.ofList chars.reverse)) start)

/-- Goes on with what is pending, if the character belongs to it. -/
def extend (s : Scanner) (c : Char) : Option Scanner :=
  match s.pending with
  | .nothing => none
  | .comment => if c = '\n' then none else some (s.past c .comment)
  | .slash _ => if c = '/' then some (s.past c .comment) else none
  | .dash start => if c = '>' then some ((s.past c .nothing).emit .arrow start) else none
  | .word start chars =>
    if continuesWord c then some (s.past c (.word start (c :: chars))) else none
  | .digits start chars =>
    if c.isDigit then some (s.past c (.digits start (c :: chars))) else none

/-- Reads one character. -/
def feed (s : Scanner) (c : Char) : Except StrayChar Scanner :=
  match s.extend c with
  | some next => .ok next
  | none => do (← s.complete).begin c

/-- The tokens at the end of the text. -/
def finish (s : Scanner) : Except StrayChar (List Located) := do
  let s ← s.complete
  return (⟨.eof, s.cursor.toPosition⟩ :: s.cuts.map Cut.located).reverse

end Scanner

/-- **The tokens of a text**, or the first character that cannot be one or begin one. -/
def tokens (text : String) : Except StrayChar (List Located) := do
  (← text.toList.foldlM Scanner.feed {}).finish

end MarkovDecision
