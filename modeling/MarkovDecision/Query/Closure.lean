import MarkovDecision.Numeric.Replace

/-!
# Growing a set of states

The questions that depend on the graph of a model only – who can reach a target,
who cannot avoid it – are answered by a set of marked states that grows until
nothing can be added. A pass goes through the states in order and judges each by
the marks as they are by then; passes are made until one changes nothing. As a
pass that changes something marks a state, no more passes are needed than there
are states.
-/

namespace MarkovDecision

/-- One mark for each state. -/
abbrev Marks (n : Nat) := Vector Bool n

namespace Marks

variable {n : Nat}

/-- The set with one member. -/
def single (s : Fin n) : Marks n := Vector.ofFn fun t => t = s

/-- One pass: a state is marked as soon as the rule holds of it. -/
def pass (rule : Marks n → Fin n → Bool) (marks : Marks n) : Marks n :=
  (List.finRange n).foldl
    (fun marks s => if !marks.get s && rule marks s then replaceAt marks s true else marks) marks

/-- Passes until one changes nothing, `fuel` of them at most. -/
def growFor (rule : Marks n → Fin n → Bool) : Nat → Marks n → Marks n
  | 0, marks => marks
  | fuel + 1, marks =>
    let next := pass rule marks
    if next = marks then marks else growFor rule fuel next

/-- **The set grown under a rule** until nothing can be added. -/
def grow (rule : Marks n → Fin n → Bool) (marks : Marks n) : Marks n := growFor rule n marks

end Marks

end MarkovDecision
