import Mathlib
import MarkovDecision.Numeric.LinearSystem

/-!
# Reading the engines in exact arithmetic

The engines are written over a class of scalars and run on vectors; the theorems
about them speak of sums over states. This module is the dictionary. In rational
arithmetic the eight lanes of a sum are invisible (`laneSum_eq_sum`), an inner
product is a sum of products (`dot_eq_sum`), the clamp to the unit interval does
nothing inside it (`clampUnit_of_mem`), and a maximum is a greatest member
(`isGreatest_maximum`).

Several engines give numbers only to *some* states and keep these in a list. A
state is then found again by its position in the list, and a sum over all states
is one over the positions, as long as what is added vanishes elsewhere
(`sum_eq_sum_get`).
-/

namespace MarkovDecision

open Finset

/-! ### Reading vectors -/

section Vectors

variable {α β γ : Type} {n : ℕ}

@[simp] theorem get_ofFn (f : Fin n → α) (i : Fin n) : (Vector.ofFn f).get i = f i :=
  Vector.getElem_ofFn i.isLt

@[simp] theorem get_map (f : α → β) (v : Vector α n) (i : Fin n) :
    (v.map f).get i = f (v.get i) :=
  Vector.getElem_map f i.isLt

@[simp] theorem get_zipWith (f : α → β → γ) (v : Vector α n) (w : Vector β n) (i : Fin n) :
    (Vector.zipWith f v w).get i = f (v.get i) (w.get i) :=
  Vector.getElem_zipWith i.isLt

@[simp] theorem get_replicate (a : α) (i : Fin n) : (Vector.replicate n a).get i = a :=
  Vector.getElem_replicate i.isLt

/-- Vectors with the same entries are the same. -/
theorem ext_get {v w : Vector α n} (h : ∀ i, v.get i = w.get i) : v = w := by
  ext i hi
  exact h ⟨i, hi⟩

/-- A vector is listed by reading its entries in order. -/
theorem toList_eq_map_get (v : Vector α n) : v.toList = (List.finRange n).map v.get := by
  refine List.ext_getElem (by simp) fun i h1 h2 => ?_
  simp [Vector.get]

/-- A vector made of the entries of a list has these entries. -/
theorem toList_ofFn_get (l : List α) :
    (Vector.ofFn fun i : Fin l.length => l.get i).toList = l :=
  List.ext_getElem (by simp) fun i h1 h2 => by simp

/-- The same for a list whose length is known to be the right one. -/
theorem toList_ofFn_getD {l : List α} {n : ℕ} (h : l.length = n) (a : α) :
    (Vector.ofFn fun i : Fin n => l.getD i a).toList = l := by
  subst h
  exact List.ext_getElem (by simp) fun i h1 h2 => by simp

end Vectors

/-! ### Sums -/

/-- Running totals start at the given one. -/
theorem foldl_add_eq (xs : List ℚ) (q : ℚ) : xs.foldl (· + ·) q = q + xs.sum := by
  induction xs generalizing q with
  | nil => simp
  | cons x xs ih => rw [List.foldl_cons, ih, List.sum_cons, add_assoc]

/-- **The lanes are invisible**: whatever the eight running sums hold, folding them at the end
adds the list to their total. -/
theorem laneSumFrom_eq (p₀ p₁ p₂ p₃ p₄ p₅ p₆ p₇ : ℚ) (xs : List ℚ) :
    laneSumFrom p₀ p₁ p₂ p₃ p₄ p₅ p₆ p₇ xs
      = p₀ + p₁ + p₂ + p₃ + p₄ + p₅ + p₆ + p₇ + xs.sum := by
  induction p₀, p₁, p₂, p₃, p₄, p₅, p₆, p₇, xs using laneSumFrom.induct with
  | case1 p₀ p₁ p₂ p₃ p₄ p₅ p₆ p₇ x₀ x₁ x₂ x₃ x₄ x₅ x₆ x₇ rest ih =>
    rw [laneSumFrom, ih]
    simp only [List.sum_cons]
    ring
  | case2 p₀ p₁ p₂ p₃ p₄ p₅ p₆ p₇ rest hrest =>
    rw [laneSumFrom.eq_2 _ _ _ _ _ _ _ _ _ hrest, foldl_add_eq]
    ring

theorem laneSum_eq_sum (xs : List ℚ) : laneSum xs = xs.sum := by
  rw [laneSum, laneSumFrom_eq]
  ring

/-- The entries of a vector, added up. -/
theorem laneSum_toList {n : ℕ} (v : Vector ℚ n) : laneSum v.toList = ∑ i, v.get i := by
  rw [laneSum_eq_sum, toList_eq_map_get, Fin.sum_univ_def]

/-- **An inner product is a sum of products.** -/
theorem dot_eq_sum {n : ℕ} (x y : Vector ℚ n) : dot x y = ∑ i, x.get i * y.get i := by
  rw [dot, laneSum_eq_sum, toList_eq_map_get, toList_eq_map_get, List.zipWith_map,
    List.zipWith_self, Fin.sum_univ_def]

@[simp] theorem get_apply {m n : ℕ} (a : Matrix ℚ m n) (y : Vector ℚ n) (i : Fin m) :
    (a.apply y).get i = ∑ j, a.entry i j * y.get j := by
  rw [Matrix.apply, get_map, dot_eq_sum]
  rfl

/-! ### The unit interval -/

theorem clampUnit_of_mem {x : ℚ} (h0 : 0 ≤ x) (h1 : x ≤ 1) : Scalar.clampUnit x = x := by
  rw [Scalar.clampUnit, if_neg (not_lt.mpr h0), if_neg (not_lt.mpr h1)]

/-! ### Maxima -/

theorem larger_eq_max (x y : ℚ) : Scalar.larger x y = max x y := by
  simp only [Scalar.larger, Scalar.isNumber, beq_self_eq_true, if_true]
  split_ifs with h
  · exact (max_eq_right h.le).symm
  · exact (max_eq_left (not_lt.mp h)).symm

/-- **The maximum of a list is its greatest member**, where it has one. -/
theorem isGreatest_maximum {l : List ℚ} (hl : l ≠ []) :
    IsGreatest {x | x ∈ l} (Scalar.maximum l) := by
  obtain ⟨x, xs, rfl⟩ := List.exists_cons_of_ne_nil hl
  have hfold : Scalar.maximum (x :: xs) = xs.foldl max x := by
    simp only [Scalar.maximum, Scalar.isNumber, beq_self_eq_true, if_true]
    exact congrArg (fun f => xs.foldl f x) (funext₂ larger_eq_max)
  rw [hfold]
  exact List.max?_eq_some_iff.mp List.max?_cons'

/-! ### Lists of states -/

section Positions

variable {α : Type} [DecidableEq α] {l : List α}

/-- The position of a listed state is found. -/
theorem find?_get (hl : l.Nodup) (k : Fin l.length) :
    ((List.finRange l.length).find? fun c => l.get c = l.get k) = some k := by
  rcases hfind : (List.finRange l.length).find? fun c => l.get c = l.get k with _ | c
  · have h := List.find?_eq_none.mp hfind k (List.mem_finRange k)
    simp at h
  · have h := List.find?_some hfind
    simp only [decide_eq_true_eq] at h
    rw [hl.injective_get h]

/-- No position is found for a state that is not listed. -/
theorem find?_get_eq_none {s : α} (hs : s ∉ l) :
    ((List.finRange l.length).find? fun c => l.get c = s) = none := by
  refine List.find?_eq_none.mpr fun c _ hc => hs ?_
  simp only [decide_eq_true_eq] at hc
  rw [← hc]
  exact List.get_mem l c

/-- **A sum over all states is one over the listed positions**, for what vanishes elsewhere. -/
theorem sum_eq_sum_get [Fintype α] (hl : l.Nodup) {f : α → ℚ} (hf : ∀ t, t ∉ l → f t = 0) :
    ∑ t, f t = ∑ c : Fin l.length, f (l.get c) := by
  have hout : ∀ t ∈ univ, t ∉ l.toFinset → f t = 0 := fun t _ ht =>
    hf t fun h => ht (List.mem_toFinset.mpr h)
  rw [← sum_subset (subset_univ l.toFinset) hout, List.sum_toFinset f hl]
  exact (Fin.sum_univ_fun_getElem l f).symm

end Positions

end MarkovDecision
