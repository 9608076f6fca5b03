import MarkovDecision.LinearProgram.Simplex
import MarkovDecision.Proofs.Arithmetic

/-!
# What a linear program asks for

A point *answers* a program when it is feasible – its coordinates are not negative
and every constraint holds of it – and no feasible point costs less. Both are said
here without reference to any method of finding such a point.
-/

namespace MarkovDecision

open Finset

variable {n m : ℕ}

/-- How a form compares with its bound. -/
def Sense.Rel : Sense → ℚ → ℚ → Prop
  | .le, form, bound => form ≤ bound
  | .ge, form, bound => bound ≤ form

instance Sense.decidableRel (sense : Sense) (form bound : ℚ) : Decidable (sense.Rel form bound) :=
  match sense with
  | .le => inferInstanceAs (Decidable (form ≤ bound))
  | .ge => inferInstanceAs (Decidable (bound ≤ form))

/-- What is taken from a form may be added to its bound. -/
theorem Sense.rel_sub_iff (sense : Sense) {x y z : ℚ} :
    sense.Rel (x - y) z ↔ sense.Rel x (z + y) := by
  cases sense
  · exact sub_le_iff_le_add
  · exact le_sub_iff_add_le

namespace Constraint

/-- The value of the linear form of a constraint at a point. -/
def form (c : Constraint ℚ n) (x : Vector ℚ n) : ℚ := ∑ j, c.coeffs.get j * x.get j

/-- A constraint holds of a point. -/
def Holds (c : Constraint ℚ n) (x : Vector ℚ n) : Prop := c.sense.Rel (c.form x) c.rhs

instance decidableHolds (c : Constraint ℚ n) (x : Vector ℚ n) : Decidable (c.Holds x) :=
  Sense.decidableRel c.sense (c.form x) c.rhs

end Constraint

namespace LinearProgram

/-- A point with non-negative coordinates of which all constraints hold. -/
structure Feasible (lp : LinearProgram ℚ n m) (x : Vector ℚ n) : Prop where
  /-- No coordinate is negative. -/
  nonneg : ∀ j, 0 ≤ x.get j
  /-- Every constraint holds. -/
  holds : ∀ i, (lp.constraints.get i).Holds x

instance decidableFeasible (lp : LinearProgram ℚ n m) (x : Vector ℚ n) :
    Decidable (lp.Feasible x) :=
  decidable_of_iff ((∀ j, 0 ≤ x.get j) ∧ ∀ i, (lp.constraints.get i).Holds x)
    ⟨fun h => ⟨h.1, h.2⟩, fun h => ⟨h.nonneg, h.holds⟩⟩

/-- The cost of a point. -/
def cost (lp : LinearProgram ℚ n m) (x : Vector ℚ n) : ℚ := ∑ j, lp.objective.get j * x.get j

/-- A feasible point that costs no more than any other: where there is one, the program is
feasible and its cost is bounded below. -/
structure Optimal (lp : LinearProgram ℚ n m) (x : Vector ℚ n) : Prop where
  /-- The point is feasible. -/
  feasible : lp.Feasible x
  /-- Every feasible point costs as much. -/
  cost_le : ∀ y, lp.Feasible y → lp.cost x ≤ lp.cost y

/-- **A feasible point that is cheapest coordinate by coordinate is the only answer**, if no
coordinate is free of cost. -/
theorem optimal_iff_eq {lp : LinearProgram ℚ n m} {x : Vector ℚ n} (hx : lp.Feasible x)
    (hcost : ∀ j, lp.objective.get j ≠ 0)
    (hle : ∀ y, lp.Feasible y → ∀ j,
      lp.objective.get j * x.get j ≤ lp.objective.get j * y.get j) (y : Vector ℚ n) :
    lp.Optimal y ↔ y = x := by
  constructor
  · intro hy
    have hsum : ∑ j, lp.objective.get j * x.get j = ∑ j, lp.objective.get j * y.get j :=
      le_antisymm (sum_le_sum fun j _ => hle y hy.feasible j) (hy.cost_le x hx)
    have hterm := (sum_eq_sum_iff_of_le fun j _ => hle y hy.feasible j).mp hsum
    exact ext_get fun j => (mul_left_cancel₀ (hcost j) (hterm j (mem_univ j))).symm
  · rintro rfl
    exact ⟨hx, fun z hz => sum_le_sum fun j _ => hle z hz j⟩

/-- The constraints of a program laid down as a list are the members of that list. -/
theorem subjectTo_holds_iff {objective x : Vector ℚ n} {constraints : List (Constraint ℚ n)} :
    (∀ i, ((subjectTo objective constraints).constraints.get i).Holds x) ↔
      ∀ c ∈ constraints, c.Holds x := by
  constructor
  · intro h c hc
    obtain ⟨i, rfl⟩ := List.get_of_mem hc
    exact h i
  · intro h i
    exact h _ (List.get_mem constraints i)

end LinearProgram

end MarkovDecision
