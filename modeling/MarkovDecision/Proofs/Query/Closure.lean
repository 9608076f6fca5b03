import Mathlib
import MarkovDecision.Query.Closure

/-!
# What a grown set of states is

`Marks.grow` adds states under a rule until nothing can be added. Two facts say
all about the outcome that the queries use:

* `Marks.rule_grow` – **nothing can be added**: the rule fails, for the set as it
  stands at the end, at every state outside it;
* `Marks.grow_induction` – **nothing was added without reason**: a property of the
  states marked at the start that the rule hands on holds of all states marked at
  the end.

The first is where the number of passes is settled. A pass that changes something
marks a state, so after as many passes as there are states either a pass has
changed nothing or all states are marked, and both ways the set is stable.
-/

namespace MarkovDecision

namespace Marks

open Finset

variable {n : ℕ} {rule : Marks n → Fin n → Bool} {marks : Marks n}

@[simp] theorem get_single (s t : Fin n) : (single s).get t = decide (t = s) := by
  rw [single]
  exact Vector.getElem_ofFn t.isLt

/-- What a pass does at one state; a pass visits all states in order. -/
def visit (rule : Marks n → Fin n → Bool) (marks : Marks n) (s : Fin n) : Marks n :=
  if !marks.get s && rule marks s then replaceAt marks s true else marks

/-- A visit marks its state if the rule holds there, and keeps all marks. -/
theorem get_visit {s t : Fin n} :
    (visit rule marks s).get t = true ↔ marks.get t = true ∨ (t = s ∧ rule marks s = true) := by
  rw [visit]
  cases hs : marks.get s <;> cases hr : rule marks s <;>
    simp only [Bool.not_true, Bool.not_false, Bool.and_true, Bool.and_false, Bool.false_eq_true,
      if_true, if_false, get_replaceAt, and_false, and_true, or_false]
  · by_cases hst : s = t
    · simp [hst]
    · simp [hst, Ne.symm hst]
  · constructor
    · exact Or.inl
    · rintro (h | rfl)
      · exact h
      · exact hs

theorem get_foldl_visit (l : List (Fin n)) {t : Fin n} (ht : marks.get t = true) :
    (l.foldl (visit rule) marks).get t = true := by
  induction l generalizing marks with
  | nil => exact ht
  | cons s l ih => exact ih (get_visit.mpr (Or.inl ht))

theorem get_pass {t : Fin n} (ht : marks.get t = true) : (pass rule marks).get t = true :=
  get_foldl_visit (List.finRange n) ht

theorem get_growFor (fuel : ℕ) {t : Fin n} (ht : marks.get t = true) :
    (growFor rule fuel marks).get t = true := by
  induction fuel generalizing marks with
  | zero => exact ht
  | succ fuel ih =>
    simp only [growFor]
    split_ifs
    · exact ht
    · exact ih (get_pass ht)

/-- **The marks of the start are kept.** -/
theorem get_grow {t : Fin n} (ht : marks.get t = true) : (grow rule marks).get t = true :=
  get_growFor n ht

/-! ### Nothing was added without reason -/

section Induction

variable {P : Fin n → Prop} {final : Marks n}
  (hstep : ∀ m : Marks n, (∀ t, m.get t = true → final.get t = true ∧ P t) →
    ∀ s, rule m s = true → P s)
include hstep

theorem foldl_visit_induction (l : List (Fin n)) (hmarks : ∀ s, marks.get s = true → P s)
    (hfinal : ∀ s, (l.foldl (visit rule) marks).get s = true → final.get s = true) :
    ∀ s, (l.foldl (visit rule) marks).get s = true → P s := by
  induction l generalizing marks with
  | nil => exact hmarks
  | cons s l ih =>
    refine ih (fun t ht => ?_) hfinal
    rcases get_visit.mp ht with ht | ⟨rfl, hr⟩
    · exact hmarks t ht
    · refine hstep marks (fun u hu => ⟨hfinal u ?_, hmarks u hu⟩) t hr
      exact get_foldl_visit l (get_visit.mpr (Or.inl hu))

theorem growFor_induction (fuel : ℕ) (hmarks : ∀ s, marks.get s = true → P s)
    (hfinal : ∀ s, (growFor rule fuel marks).get s = true → final.get s = true) :
    ∀ s, (growFor rule fuel marks).get s = true → P s := by
  induction fuel generalizing marks with
  | zero => exact hmarks
  | succ fuel ih =>
    simp only [growFor] at hfinal ⊢
    split_ifs at hfinal ⊢
    · exact hmarks
    · refine ih (foldl_visit_induction hstep (List.finRange n) hmarks fun s hs => ?_) hfinal
      exact hfinal s (get_growFor fuel hs)

end Induction

/-- **Nothing was added without reason**: what holds of the states marked at the start, and of a
state as soon as the rule marks it on account of states it holds of, holds of all states marked
at the end. -/
theorem grow_induction {P : Fin n → Prop} (hmarks : ∀ s, marks.get s = true → P s)
    (hstep : ∀ m : Marks n, (∀ t, m.get t = true → (grow rule marks).get t = true ∧ P t) →
      ∀ s, rule m s = true → P s) :
    ∀ s, (grow rule marks).get s = true → P s :=
  growFor_induction hstep n hmarks fun _ hs => hs

/-! ### Nothing can be added -/

/-- The states that carry a mark. -/
def marked (marks : Marks n) : Finset (Fin n) := {s | marks.get s = true}

theorem mem_marked {s : Fin n} : s ∈ marks.marked ↔ marks.get s = true := by
  simp [marked]

theorem eq_of_marked_eq {marks' : Marks n} (h : marks.marked = marks'.marked) : marks = marks' := by
  ext i hi
  have hiff : marks.get ⟨i, hi⟩ = true ↔ marks'.get ⟨i, hi⟩ = true := by
    rw [← mem_marked, ← mem_marked, h]
  exact Bool.eq_iff_iff.mpr hiff

/-- A pass that changes something marks a state. -/
theorem card_marked_pass (h : pass rule marks ≠ marks) :
    marks.marked.card < (pass rule marks).marked.card := by
  refine card_lt_card (Finset.ssubset_iff_subset_ne.mpr ⟨fun s hs => ?_, fun heq => ?_⟩)
  · exact mem_marked.mpr (get_pass (mem_marked.mp hs))
  · exact h (eq_of_marked_eq heq.symm)

/-- Where all states are marked, a pass changes nothing. -/
theorem pass_of_card (h : n ≤ marks.marked.card) : pass rule marks = marks := by
  by_contra hne
  have hlt := card_marked_pass hne
  have hle : (pass rule marks).marked.card ≤ n := by
    simpa using card_le_univ (pass rule marks).marked
  omega

theorem pass_growFor (fuel : ℕ) (h : n ≤ marks.marked.card + fuel) :
    pass rule (growFor rule fuel marks) = growFor rule fuel marks := by
  induction fuel generalizing marks with
  | zero => exact pass_of_card h
  | succ fuel ih =>
    simp only [growFor]
    split_ifs with hstable
    · exact hstable
    · refine ih ?_
      have hlt := card_marked_pass hstable
      omega

/-- One pass more changes nothing. -/
theorem pass_grow : pass rule (grow rule marks) = grow rule marks :=
  pass_growFor n (Nat.le_add_left n _)

/-- A pass that changes nothing has found the rule to fail everywhere outside the set. -/
theorem foldl_visit_stable (l : List (Fin n)) (hstable : l.foldl (visit rule) marks = marks)
    {s : Fin n} (hs : s ∈ l) (hmark : marks.get s ≠ true) : rule marks s ≠ true := by
  induction l with
  | nil => cases hs
  | cons t l ih =>
    have hvisit : visit rule marks t = marks := by
      refine eq_of_marked_eq (Finset.Subset.antisymm (fun u hu => ?_) fun u hu => ?_)
      · rw [mem_marked] at hu ⊢
        rw [← hstable]
        exact get_foldl_visit l hu
      · exact mem_marked.mpr (get_visit.mpr (Or.inl (mem_marked.mp hu)))
    rcases List.mem_cons.mp hs with rfl | hs
    · intro hr
      refine hmark ?_
      rw [← hvisit]
      exact get_visit.mpr (Or.inr ⟨rfl, hr⟩)
    · rw [List.foldl_cons, hvisit] at hstable
      exact ih hstable hs

/-- **Nothing can be added**: outside the grown set the rule fails. -/
theorem rule_grow {s : Fin n} (hs : (grow rule marks).get s ≠ true) :
    rule (grow rule marks) s ≠ true :=
  foldl_visit_stable (List.finRange n) pass_grow (List.mem_finRange s) hs

end Marks

end MarkovDecision
