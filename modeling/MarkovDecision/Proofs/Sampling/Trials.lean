import Mathlib

/-!
# Independent trials

A number of trials, each of which hits with probability `p`: a sequence of hits and
misses has the weight `p ^ hits * (1 - p) ^ misses`, and the chance of an event is the
total weight of its sequences. The sequences are lists, since that is what a loop can
be fed with; so an event is a property of lists of any length, and `chance p n` looks
at those of length `n`.

The laws follow from splitting off the first trial (`chance_succ`), by induction on
the number of trials. The one with an argument in it is that the chance of an event
grows with `p` if a hit in place of a miss never undoes it (`Increasing.chance_le`).
-/

namespace MarkovDecision

namespace Trials

open Finset

open scoped Classical

/-- The weight of a sequence of hits and misses. -/
def weight (p : ℝ) (trials : List Bool) : ℝ :=
  p ^ trials.count true * (1 - p) ^ trials.count false

/-- **The chance of an event**: the total weight of the sequences of a length where it happens. -/
noncomputable def chance (p : ℝ) (n : ℕ) (event : List Bool → Prop) : ℝ :=
  ∑ ω : Fin n → Bool with event (List.ofFn ω), weight p (List.ofFn ω)

variable {p q : ℝ} {n : ℕ} {event event' : List Bool → Prop}

theorem weight_nonneg (h0 : 0 ≤ p) (h1 : p ≤ 1) (trials : List Bool) : 0 ≤ weight p trials :=
  mul_nonneg (pow_nonneg h0 _) (pow_nonneg (sub_nonneg.mpr h1) _)

theorem weight_hit (p : ℝ) (trials : List Bool) :
    weight p (true :: trials) = p * weight p trials := by
  rw [weight, weight, List.count_cons_self, List.count_cons_of_ne (by decide)]
  ring

theorem weight_miss (p : ℝ) (trials : List Bool) :
    weight p (false :: trials) = (1 - p) * weight p trials := by
  rw [weight, weight, List.count_cons_self, List.count_cons_of_ne (by decide)]
  ring

/-! ### The first trial -/

theorem chance_zero (p : ℝ) (event : List Bool → Prop) :
    chance p 0 event = if event [] then 1 else 0 := by
  rw [chance, sum_filter, Fintype.sum_unique]
  simp [weight]

/-- **The first trial** hits or misses, and the weight of the others does not depend on it. -/
theorem chance_succ (p : ℝ) (n : ℕ) (event : List Bool → Prop) :
    chance p (n + 1) event = p * chance p n (fun trials => event (true :: trials))
      + (1 - p) * chance p n (fun trials => event (false :: trials)) := by
  have hcons : ∀ (hit : Bool) (ω : Fin n → Bool),
      List.ofFn (Fin.consEquiv (fun _ => Bool) (hit, ω)) = hit :: List.ofFn ω :=
    fun hit ω => List.ofFn_cons hit ω
  simp only [chance, sum_filter, mul_sum]
  rw [← (Fin.consEquiv fun _ => Bool).sum_comp, Fintype.sum_prod_type, Fintype.sum_bool]
  refine congrArg₂ (· + ·) (sum_congr rfl fun ω _ => ?_) (sum_congr rfl fun ω _ => ?_)
  · rw [hcons, weight_hit, mul_ite, mul_zero]
  · rw [hcons, weight_miss, mul_ite, mul_zero]

/-! ### Events -/

/-- What always happens has chance one. -/
theorem chance_of_forall (p : ℝ) (n : ℕ) (h : ∀ trials, event trials) : chance p n event = 1 := by
  induction n generalizing event with
  | zero => rw [chance_zero, if_pos (h [])]
  | succ n ih =>
    rw [chance_succ, ih fun trials => h _, ih fun trials => h _]
    ring

/-- What never happens has chance zero. -/
theorem chance_of_forall_not (p : ℝ) (n : ℕ) (h : ∀ trials, ¬event trials) :
    chance p n event = 0 := by
  rw [chance, filter_false_of_mem fun ω _ => h _, sum_empty]

/-- The chance that an event does not happen. -/
theorem chance_not (p : ℝ) (n : ℕ) (event : List Bool → Prop) :
    chance p n (fun trials => ¬event trials) = 1 - chance p n event := by
  induction n generalizing event with
  | zero =>
    rw [chance_zero, chance_zero]
    by_cases h : event []
    · rw [if_pos h, if_neg (not_not_intro h), sub_self]
    · rw [if_neg h, if_pos h, sub_zero]
  | succ n ih =>
    rw [chance_succ, chance_succ, ih, ih]
    ring

theorem chance_le_of_imp (h0 : 0 ≤ p) (h1 : p ≤ 1) (h : ∀ trials, event trials → event' trials) :
    chance p n event ≤ chance p n event' := by
  refine sum_le_sum_of_subset_of_nonneg (fun ω hω => ?_) fun ω _ _ => weight_nonneg h0 h1 _
  rw [mem_filter] at hω ⊢
  exact ⟨hω.1, h _ hω.2⟩

theorem chance_le_one (h0 : 0 ≤ p) (h1 : p ≤ 1) : chance p n event ≤ 1 :=
  calc chance p n event ≤ chance p n (fun _ => True) :=
        chance_le_of_imp h0 h1 fun _ _ => trivial
    _ = 1 := chance_of_forall p n fun _ => trivial

/-! ### More hits -/

/-- A hit in place of a miss does not undo the event. -/
def Increasing (event : List Bool → Prop) : Prop :=
  ∀ ⦃trials trials'⦄, List.Forall₂ (· ≤ ·) trials trials' → event trials → event trials'

theorem Increasing.after (h : Increasing event) (hit : Bool) :
    Increasing fun trials => event (hit :: trials) :=
  fun _ _ hle => h (.cons le_rfl hle)

/-- **The chance of an increasing event grows with the chance of a hit.** -/
theorem Increasing.chance_le (h : Increasing event) (h0 : 0 ≤ p) (hpq : p ≤ q) (h1 : q ≤ 1) :
    chance p n event ≤ chance q n event := by
  induction n generalizing event with
  | zero => rw [chance_zero, chance_zero]
  | succ n ih =>
    have hhit := ih (h.after true)
    have hmiss := ih (h.after false)
    -- after a hit the event is at least as likely as after a miss
    have hgain : chance p n (fun trials => event (false :: trials))
        ≤ chance p n (fun trials => event (true :: trials)) :=
      chance_le_of_imp h0 (hpq.trans h1) fun trials =>
        h (.cons (Bool.false_le _) (List.forall₂_refl trials))
    rw [chance_succ, chance_succ]
    calc p * chance p n (fun trials => event (true :: trials))
          + (1 - p) * chance p n (fun trials => event (false :: trials))
        ≤ q * chance p n (fun trials => event (true :: trials))
          + (1 - q) * chance p n (fun trials => event (false :: trials)) := by
          have hdiff := mul_le_mul_of_nonneg_left hgain (sub_nonneg.mpr hpq)
          linarith
      _ ≤ q * chance q n (fun trials => event (true :: trials))
          + (1 - q) * chance q n (fun trials => event (false :: trials)) :=
        add_le_add (mul_le_mul_of_nonneg_left hhit (h0.trans hpq))
          (mul_le_mul_of_nonneg_left hmiss (sub_nonneg.mpr h1))

/-- **The chance of a decreasing event falls** as that of a hit grows. -/
theorem Increasing.chance_ge (h : Increasing fun trials => ¬event trials) (h0 : 0 ≤ p)
    (hpq : p ≤ q) (h1 : q ≤ 1) : chance q n event ≤ chance p n event := by
  have hnot := h.chance_le (n := n) h0 hpq h1
  rw [chance_not, chance_not] at hnot
  linarith

end Trials

end MarkovDecision
