/-!
# Classes of characters

A class is written down by its *turning points*: the increasing list of code
points at which membership changes, starting outside. A character belongs to the
class when an odd number of turning points lies at or below it. Classes of the
Unicode standard are long, and this way each of them is one flat list of numbers.
-/

namespace MarkovDecision.Text

/-- A set of code points, by the places where membership changes. -/
structure CharClass where
  /-- The turning points, increasing. -/
  turns : Array Nat

namespace CharClass

/-- The number of turning points at or below a code point, by halving: everything before `low` is
at or below it and everything from `high` on is above. -/
def countUpTo (turns : Array Nat) (c low high : Nat) : Nat :=
  if h : low < high then
    let middle := (low + high) / 2
    if turns.getD middle 0 ≤ c then countUpTo turns c (middle + 1) high
    else countUpTo turns c low middle
  else low
termination_by high - low

/-- Membership of a character. -/
def has (cls : CharClass) (c : Char) : Bool :=
  countUpTo cls.turns c.toNat 0 cls.turns.size % 2 == 1

end CharClass

end MarkovDecision.Text
