import MarkovDecision.Decimal.Read
import MarkovDecision.Description.Scanner
import MarkovDecision.Model.Declaration

/-!
# From tokens to declarations

A description is a list of states, then blocks of actions, then transitions, and
no part of it is nested in another of its kind. So a reader need not look ahead: it
knows what may come next and what it holds of the declaration it is in, and every
token moves it on or is out of place. `Expecting` lists the situations, and
`Expecting.next` what each of them does with a token: it may complete a
declaration, and it goes on or finds a fault.

Declarations are handed to a sink as they are completed. A state is complete with
its reward or at the first token that shows that it has none; blocks and
transitions are complete with their semicolon. A sink that refuses ends the
reading, and the fault is reported where the declaration began.
-/

namespace MarkovDecision

/-! ### Faults -/

/-- What a token was expected to be. -/
inductive Wanted where
  /-- A certain token. -/
  | token (t : Token)
  /-- The name of a state that is declared. -/
  | stateName
  /-- The name of an action. -/
  | actionName
  /-- The source of a transition. -/
  | source
  /-- The target of a branch. -/
  | target
  /-- The weight of a branch. -/
  | weight
  /-- The reward of a state. -/
  | reward
  deriving DecidableEq

/-- What is wrong at a place of the text. -/
inductive SyntaxFault where
  /-- A character is part of no token. -/
  | strayChar (c : Char)
  /-- A token is out of place. -/
  | unexpected (wanted : Wanted) (found : Token)
  /-- A weight does not fit 64 bits. -/
  | weightTooLarge (digits : String)
  /-- A reward does not fit 63 bits. -/
  | rewardTooLarge (digits : String)
  deriving DecidableEq

/-- Why a description could not be read. -/
inductive ReadError (ε : Type) where
  /-- The text is not a description. -/
  | syntactic (position : Position) (fault : SyntaxFault)
  /-- A declaration was refused. -/
  | declaration (position : Position) (fault : ε)

/-! ### The reader -/

/-- The part of a transition that has been read. -/
structure Row where
  /-- Where it began. -/
  position : Position
  /-- The source. -/
  source : String
  /-- The action. -/
  action : Option String := none
  /-- The branches, last first. -/
  branches : List Branch := []

/-- What may come next. -/
inductive Expecting where
  /-- The word that opens the states. -/
  | header
  /-- The name of a state. -/
  | stateName
  /-- A reward, or the end of a state. -/
  | stateRest (position : Position) (label : String)
  /-- A reward, perhaps with a sign. -/
  | reward (position : Position) (label : String)
  /-- The digits of a negative reward. -/
  | negative (position : Position) (label : String)
  /-- Another state, or the end of the states. -/
  | stateEnd
  /-- A block of actions, a transition, or the end. -/
  | block
  /-- The name of an action in a block. -/
  | actionName (position : Position) (labels : List String)
  /-- Another action, or the end of a block. -/
  | actionEnd (position : Position) (labels : List String)
  /-- A transition, or the end. -/
  | source
  /-- An action in brackets, or an arrow. -/
  | action (row : Row)
  /-- The name of an action in brackets. -/
  | bracketed (row : Row)
  /-- The closing bracket. -/
  | closing (row : Row)
  /-- The arrow. -/
  | arrow (row : Row)
  /-- The weight of a branch. -/
  | weight (row : Row)
  /-- The colon of a branch. -/
  | colon (row : Row) (weight : UInt64)
  /-- The target of a branch. -/
  | target (row : Row) (weight : UInt64)
  /-- Another branch, or the end of a transition. -/
  | branchEnd (row : Row)
  /-- Nothing: the text has ended. -/
  | nothing

/-- What a token leads to: perhaps a declaration, with the place where it began, and then either
a fault or what may come next. -/
structure Move where
  /-- The declaration that is complete. -/
  declared : Option (Position × Declaration) := none
  /-- What comes next. -/
  next : Except SyntaxFault Expecting

namespace Expecting

/-- A move to what comes next. -/
def go (next : Expecting) : Move := { next := .ok next }

/-- A move to a fault. -/
def fail (fault : SyntaxFault) : Move := { next := .error fault }

/-- A state is followed by another one or by the end of the states. -/
def afterState : Token → Except SyntaxFault Expecting
  | .comma => .ok .stateName
  | .semicolon => .ok .block
  | found => .error (.unexpected (.token .semicolon) found)

/-- The end of a state with a reward of the given sign. -/
def rewarded (position : Position) (label digits : String) (sign : Int) : Move :=
  let value := Decimal.ofDigits digits.toList
  if value < pow2 63 then
    { declared := some (position, .state label (some (sign * value))), next := .ok .stateEnd }
  else fail (.rewardTooLarge digits)

/-- The beginning of a transition. -/
def atSource (position : Position) : Token → Move
  | .word label => go (.action { position, source := label })
  | .eof => go .nothing
  | found => fail (.unexpected .source found)

/-- **What a token does to a reader.** -/
def next (e : Expecting) (t : Located) : Move :=
  match e, t.token with
  | .header, .states => go .stateName
  | .header, found => fail (.unexpected (.token .states) found)
  | .stateName, .word label => go (.stateRest t.position label)
  | .stateName, found => fail (.unexpected .stateName found)
  | .stateRest position label, .colon => go (.reward position label)
  | .stateRest position label, token =>
    { declared := some (position, .state label none), next := afterState token }
  | .reward position label, .minus => go (.negative position label)
  | .reward position label, .digits text => rewarded position label text 1
  | .reward _ _, found => fail (.unexpected .reward found)
  | .negative position label, .digits text => rewarded position label text (-1)
  | .negative _ _, found => fail (.unexpected .reward found)
  | .stateEnd, token => { next := afterState token }
  | .block, .actions => go (.actionName t.position [])
  | .block, token => atSource t.position token
  | .actionName position labels, .word label => go (.actionEnd position (label :: labels))
  | .actionName _ _, found => fail (.unexpected .actionName found)
  | .actionEnd position labels, .comma => go (.actionName position labels)
  | .actionEnd position labels, .semicolon =>
    { declared := some (position, .actions labels.reverse), next := .ok .block }
  | .actionEnd _ _, found => fail (.unexpected (.token .semicolon) found)
  | .source, token => atSource t.position token
  | .action row, .openBracket => go (.bracketed row)
  | .action row, .arrow => go (.weight row)
  | .action _, found => fail (.unexpected (.token .arrow) found)
  | .bracketed row, .word label => go (.closing { row with action := some label })
  | .bracketed _, found => fail (.unexpected .actionName found)
  | .closing row, .closeBracket => go (.arrow row)
  | .closing _, found => fail (.unexpected (.token .closeBracket) found)
  | .arrow row, .arrow => go (.weight row)
  | .arrow _, found => fail (.unexpected (.token .arrow) found)
  | .weight row, .digits text =>
    let value := Decimal.ofDigits text.toList
    if value < pow2 64 then go (.colon row (.ofNat value)) else fail (.weightTooLarge text)
  | .weight _, found => fail (.unexpected .weight found)
  | .colon row w, .colon => go (.target row w)
  | .colon _ _, found => fail (.unexpected (.token .colon) found)
  | .target row w, .word label =>
    go (.branchEnd { row with branches := ⟨w, label⟩ :: row.branches })
  | .target _ _, found => fail (.unexpected .target found)
  | .branchEnd row, .plus => go (.weight row)
  | .branchEnd row, .semicolon =>
    { declared := some (row.position, .transition row.source row.action row.branches.reverse)
      next := .ok .source }
  | .branchEnd _, found => fail (.unexpected (.token .semicolon) found)
  | .nothing, _ => go .nothing

end Expecting

variable {σ ε : Type}

/-- Hands a declaration to a sink; a refusal is reported where the declaration began. -/
def deliver (sink : Sink σ ε) : Option (Position × Declaration) → EStateM (ReadError ε) σ Unit
  | none => pure ()
  | some (position, d) => EStateM.adaptExcept (.declaration position) (sink d)

/-- One token: what it completes is handed over first, and then a fault of its own counts. -/
def feedToken (sink : Sink σ ε) (e : Expecting) (t : Located) :
    EStateM (ReadError ε) σ Expecting := do
  let move := e.next t
  deliver sink move.declared
  match move.next with
  | .ok next => pure next
  | .error fault => throw (.syntactic t.position fault)

/-- **Reads a description into a sink.** No declaration is handed over unless the whole text
falls into tokens. -/
def readDescription (sink : Sink σ ε) (text : String) : EStateM (ReadError ε) σ Unit := do
  match tokens text with
  | .error stray => throw (.syntactic stray.position (.strayChar stray.char))
  | .ok ts => discard (ts.foldlM (feedToken sink) .header)

/-! ### Messages -/

/-- How an expectation is spoken of. -/
def Wanted.shown : Wanted → String
  | .token t => t.shown
  | .stateName => "state name"
  | .actionName => "action name"
  | .source => "source state"
  | .target => "target state"
  | .weight => "a weight"
  | .reward => "a reward"

/-- What is said about a fault. -/
def SyntaxFault.message : SyntaxFault → String
  | .strayChar c => "unexpected character " ++ Text.quotedChar c
  | .unexpected wanted found => s!"expected {wanted.shown}, found {found.shown}"
  | .weightTooLarge digits => s!"weight {digits} is too large"
  | .rewardTooLarge digits => s!"reward {digits} is too large"

/-- What is said at a place of the text. -/
def Position.remark (p : Position) (message : String) : String :=
  s!"line {p.line}, column {p.column}: {message}"

/-- What is said about a description that could not be read. -/
def ReadError.message (describe : ε → String) : ReadError ε → String
  | .syntactic position fault => position.remark fault.message
  | .declaration position fault => position.remark (describe fault)

end MarkovDecision
