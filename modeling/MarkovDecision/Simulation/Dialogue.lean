import MarkovDecision.Simulation.Run
import MarkovDecision.Text.Blank
import MarkovDecision.Text.Quoted

/-!
# A policy that asks

At a state that enables several actions the user is asked which one to take. An
answer is a line without the white space around it; it has to be the label of an
enabled action, otherwise it is refused and the question is put again. When there
are no more lines the first enabled action is taken, there and from then on.

The policy is a program for whatever can talk to a user (`Console`): something that
says texts and hears lines. A terminal can, and so can a `Dialogue`, which is the whole
exchange as a value: the lines not yet read, and what has been said. Since every
question uses up a line, the asking goes on for as many questions as there are lines.
-/

namespace MarkovDecision

variable {K : Type}

/-! ### Question and answer -/

/-- The question put where a history stands. -/
def question (m : Model K) (history : List Nat) (s : m.State) : String :=
  let steps := history.length - 1
  let labels := String.intercalate ", " ((m.enabled.get s).map m.actionName)
  s!"step {steps} in {m.stateLabel s}: choose one of [{labels}]: "

/-- The text of a line without the white space around it. -/
def answerOf (line : String) : String := String.ofList (Text.trimmed line.toList)

/-- The enabled action that an answer names. -/
def named (m : Model K) (s : m.State) (answer : String) : Option m.Action :=
  (m.enabled.get s).find? fun a => m.actionName a == answer

/-- What is said to an answer that names no enabled action. -/
def refusal (answer : String) : String := Text.quoted answer ++ " is not enabled here\n"

/-! ### The policy that asks -/

/-- Programs that can talk to a user. -/
class Console (M : Type → Type) where
  /-- Says something. -/
  say : String → M Unit
  /-- Hears a line, unless there are no more. -/
  hear : M (Option String)
  /-- How many lines there are to come, or more than anybody will say. -/
  toCome : M Nat

namespace Dialogue

variable {M : Type → Type} [Monad M] [Console M]

/-- Asks until an answer names an enabled action or the lines are used up, of which there are as
many as the number says. -/
def ask (m : Model K) (history : List Nat) (s : m.State) : Nat → M (Option m.Action)
  | 0 => do
    Console.say (question m history s)
    return none
  | left + 1 => do
    Console.say (question m history s)
    match ← Console.hear with
    | none => return none
    | some line =>
      match named m s (answerOf line) with
      | some a => return some a
      | none =>
        Console.say (refusal (answerOf line))
        ask m history s left

/-- **The policy that asks.** -/
def policy (m : Model K) : Policy M
  | [] => pure 0
  | current :: past =>
    if h : current < m.size then do
      let s : m.State := ⟨current, h⟩
      let answer ← ask m (current :: past) s (← Console.toCome)
      return (answer.orElse fun _ => (m.enabled.get s).head?).elim 0 Fin.val
    else pure 0

end Dialogue

/-- Further state does not stand in the way of talking. -/
instance Console.lifted {M : Type → Type} [Monad M] [Console M] {σ : Type} :
    Console (StateT σ M) where
  say := fun text s => do return (← Console.say text, s)
  hear := fun s => do return (← Console.hear, s)
  toCome := fun s => do return (← Console.toCome, s)

/-! ### The exchange as a value -/

/-- An exchange: the lines to come and what has been said. -/
structure Dialogue where
  /-- The lines not yet read. -/
  lines : List String
  /-- What has been said so far. -/
  said : String := ""

namespace Dialogue

/-- The lines of a text, the last of them possibly without a line break. -/
def linesOf (cs : List Char) (current : List Char) : List String :=
  match cs with
  | [] => if current.isEmpty then [] else [String.ofList current.reverse]
  | '\n' :: rest => String.ofList ('\n' :: current).reverse :: linesOf rest []
  | c :: rest => linesOf rest (c :: current)

/-- The exchange with a user who is going to say `input`. -/
def ofInput (input : String) : Dialogue := ⟨linesOf input.toList [], ""⟩

/-- A program that keeps an exchange talks to the user of it. -/
instance console {M : Type → Type} [Monad M] : Console (StateT Dialogue M) where
  say text := modify fun d => { d with said := d.said ++ text }
  hear := modifyGet fun d =>
    match d.lines with
    | [] => (none, d)
    | line :: rest => (some line, { d with lines := rest })
  toCome := return (← get).lines.length

end Dialogue

end MarkovDecision
