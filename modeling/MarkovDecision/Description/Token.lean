import MarkovDecision.Text.Quoted

/-!
# The words of a model description

A description of a model is a text of words, numbers and a few marks:

    States S0:2, S1, S2;          // an integer reward may follow a state
    Actions a, b;                 // any number of such blocks
    S0 [a] -> 5 : S1 + 5 : S2;    // a transition under an action
    S1 -> 1 : S0;                 // a transition under none

Tokens are these words and marks with the end of the text for a last one. Each has
the place where it begins: lines and columns are counted from one, and a column is
a byte of the text.
-/

namespace MarkovDecision

/-- A place in a text. -/
structure Position where
  /-- The line, counted from one. -/
  line : Nat := 1
  /-- The column in bytes, counted from one. -/
  column : Nat := 1
  deriving DecidableEq

/-- The place after a character. -/
def Position.after (p : Position) (c : Char) : Position :=
  if c = '\n' then ⟨p.line + 1, 1⟩ else ⟨p.line, p.column + c.utf8Size⟩

/-- A place in a text that is read from the left, with the bytes in front of it. -/
structure Cursor extends Position where
  /-- The place in bytes. -/
  offset : String.Pos.Raw := 0
  deriving DecidableEq

/-- The cursor after a character. -/
def Cursor.after (k : Cursor) (c : Char) : Cursor := ⟨k.toPosition.after c, k.offset + c⟩

/-- The words and marks of a description. -/
inductive Token where
  /-- The word that opens the states. -/
  | states
  /-- The word that opens a block of actions. -/
  | actions
  /-- Any other word. -/
  | word (text : String)
  /-- A run of digits. -/
  | digits (text : String)
  /-- A colon. -/
  | colon
  /-- An arrow. -/
  | arrow
  /-- A semicolon. -/
  | semicolon
  /-- A comma. -/
  | comma
  /-- A plus sign. -/
  | plus
  /-- A minus sign. -/
  | minus
  /-- An opening bracket. -/
  | openBracket
  /-- A closing bracket. -/
  | closeBracket
  /-- The end of the text. -/
  | eof
  deriving DecidableEq

/-- A token at its place. -/
structure Located where
  /-- The token. -/
  token : Token
  /-- Where it begins. -/
  position : Position
  deriving DecidableEq

namespace Token

/-- The token of a word. -/
def ofWord (text : String) : Token :=
  if text = "States" then .states else if text = "Actions" then .actions else .word text

/-- How a token is spoken of in messages. -/
def shown : Token → String
  | .states => "'States'"
  | .actions => "'Actions'"
  | .word text => "identifier " ++ Text.quoted text
  | .digits text => "integer " ++ text
  | .colon => "':'"
  | .arrow => "'->'"
  | .semicolon => "';'"
  | .comma => "','"
  | .plus => "'+'"
  | .minus => "'-'"
  | .openBracket => "'['"
  | .closeBracket => "']'"
  | .eof => "end of input"

end Token

end MarkovDecision
