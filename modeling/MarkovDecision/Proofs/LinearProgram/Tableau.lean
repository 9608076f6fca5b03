import MarkovDecision.LinearProgram.Simplex
import MarkovDecision.Proofs.Numeric.LinearSystem

/-!
# What a search over tableaux keeps

A pivot rewrites every row of a tableau, and yet it changes nothing of substance.
Read as vectors – coefficients and right-hand side together – the rows before and
after it span the same space (`Tableau.span_pivot`), so the same points solve them.
Each row stays solved for its basic column (`Tableau.Solved`), and the cost differs
from the cost it started as by a combination of rows, and vanishes on the basic
columns (`Tableau.Priced`). None of this depends on *which* column enters and which
row leaves: all it takes is that the pivot is not zero, and a row that leaves has an
entry above the tolerance (`Tableau.lt_entry_of_leaving`).

The gain is `Tableau.Priced.form_basicPoint_le`. A tableau stands for a point, its basic
point, and where no column improves the cost by more than the tolerance, that point
costs at most the tolerance times the size of `z` more than any `z` that solves the
rows. It does so **whether or not it is itself admissible**: that its coordinates are
not negative is another matter, which the tolerance does affect.
-/

namespace MarkovDecision

open Finset

variable {m c : ℕ}

/-! ### Equations as vectors -/

namespace Equation

variable {e p : Equation ℚ c} {z : Vector ℚ c}

/-- The coefficients of an equation, and its right-hand side besides. -/
def vector (e : Equation ℚ c) : Option (Fin c) → ℚ
  | some j => e.coeffs.get j
  | none => e.rhs

/-- By how much the two sides of an equation differ at a point. -/
def defect (z : Vector ℚ c) : (Option (Fin c) → ℚ) →ₗ[ℚ] ℚ where
  toFun v := ∑ j, v (some j) * z.get j - v none
  map_add' v w := by
    simp only [Pi.add_apply, add_mul, sum_add_distrib]
    ring
  map_smul' q v := by
    simp only [Pi.smul_apply, smul_eq_mul, RingHom.id_apply, mul_sub, mul_sum, mul_assoc]

theorem vector_minus (f : ℚ) : (e.minus f p).vector = e.vector - f • p.vector := by
  funext j
  cases j with
  | none => rfl
  | some j => exact get_coeffs_minus j

theorem vector_dividedBy (q : ℚ) : (e.dividedBy q).vector = q⁻¹ • e.vector := by
  funext j
  cases j with
  | none => exact div_eq_inv_mul e.rhs q
  | some j => exact (get_coeffs_dividedBy q j).trans (div_eq_inv_mul _ q)

theorem defect_vector : defect z e.vector = e.form z - e.rhs := rfl

theorem holds_iff_defect : e.Holds z ↔ defect z e.vector = 0 := by
  rw [defect_vector, sub_eq_zero]
  rfl

end Equation

namespace Tableau

variable {t : Tableau ℚ m c} {i : Fin m} {j : Fin c} {z : Vector ℚ c} {base : Equation ℚ c}

/-- The entry of a row in a column. -/
def entry (t : Tableau ℚ m c) (i : Fin m) (j : Fin c) : ℚ := (t.rows.get i).coeffs.get j

/-- Everything that follows from the rows by adding and scaling them. -/
def span (t : Tableau ℚ m c) : Submodule ℚ (Option (Fin c) → ℚ) :=
  Submodule.span ℚ (Set.range fun i => (t.rows.get i).vector)

/-- All rows hold of a point. -/
def Solves (t : Tableau ℚ m c) (z : Vector ℚ c) : Prop := ∀ i, (t.rows.get i).Holds z

theorem vector_mem_span (t : Tableau ℚ m c) (i : Fin m) : (t.rows.get i).vector ∈ t.span :=
  Submodule.subset_span ⟨i, rfl⟩

/-- A point solves the rows exactly if it solves all that follows from them. -/
theorem solves_iff : t.Solves z ↔ t.span ≤ LinearMap.ker (Equation.defect z) := by
  rw [span, Submodule.span_le, Set.range_subset_iff]
  exact forall_congr' fun i => Equation.holds_iff_defect

/-! ### One pivot -/

theorem get_rows_pivot (t : Tableau ℚ m c) (i : Fin m) (j : Fin c) (r : Fin m) :
    (t.pivot i j).rows.get r =
      if r = i then (t.rows.get i).dividedBy (t.entry i j)
      else (t.rows.get r).minus (t.entry r j) ((t.rows.get i).dividedBy (t.entry i j)) := by
  simp only [pivot, get_ofFn, beq_iff_eq, entry]
  split_ifs with hr hzero
  · rfl
  · rw [hzero, Equation.minus_zero]
  · rfl

theorem cost_pivot (t : Tableau ℚ m c) (i : Fin m) (j : Fin c) :
    (t.pivot i j).cost =
      t.cost.minus (t.cost.coeffs.get j) ((t.rows.get i).dividedBy (t.entry i j)) := by
  simp only [pivot, beq_iff_eq, entry]
  split_ifs with hzero
  · rw [hzero, Equation.minus_zero]
  · rfl

theorem get_basis_pivot (t : Tableau ℚ m c) (i : Fin m) (j : Fin c) (k : Fin m) :
    (t.pivot i j).basis.get k = if i = k then j else t.basis.get k :=
  get_replaceAt t.basis i k j

theorem entry_pivot (t : Tableau ℚ m c) (i : Fin m) (j : Fin c) (r : Fin m) (k : Fin c) :
    (t.pivot i j).entry r k =
      if r = i then t.entry i k / t.entry i j
      else t.entry r k - t.entry r j * (t.entry i k / t.entry i j) := by
  rw [entry, get_rows_pivot]
  split_ifs
  · exact Equation.get_coeffs_dividedBy _ k
  · rw [Equation.get_coeffs_minus, Equation.get_coeffs_dividedBy]
    rfl

/-- **A pivot changes nothing about what follows from the rows.** -/
theorem span_pivot (h : t.entry i j ≠ 0) : (t.pivot i j).span = t.span := by
  have hpivot : ((t.pivot i j).rows.get i).vector = (t.entry i j)⁻¹ • (t.rows.get i).vector := by
    rw [get_rows_pivot, if_pos rfl, Equation.vector_dividedBy]
  have hother : ∀ r, r ≠ i → ((t.pivot i j).rows.get r).vector
      = (t.rows.get r).vector - t.entry r j • ((t.pivot i j).rows.get i).vector := by
    intro r hr
    rw [hpivot, get_rows_pivot, if_neg hr, Equation.vector_minus, Equation.vector_dividedBy]
  refine le_antisymm (Submodule.span_le.mpr ?_) (Submodule.span_le.mpr ?_)
  -- the new rows are combinations of the old ones, and the other way round
  · have hmem : ((t.pivot i j).rows.get i).vector ∈ t.span := by
      rw [hpivot]
      exact t.span.smul_mem _ (t.vector_mem_span i)
    rintro _ ⟨r, rfl⟩
    rcases eq_or_ne r i with rfl | hr
    · exact hmem
    · show ((t.pivot i j).rows.get r).vector ∈ t.span
      rw [hother r hr]
      exact t.span.sub_mem (t.vector_mem_span r) (t.span.smul_mem _ hmem)
  · have hmem := (t.pivot i j).vector_mem_span i
    rintro _ ⟨r, rfl⟩
    show (t.rows.get r).vector ∈ (t.pivot i j).span
    rcases eq_or_ne r i with rfl | hr
    · have hback : (t.rows.get r).vector = t.entry r j • ((t.pivot r j).rows.get r).vector := by
        rw [hpivot, smul_inv_smul₀ h]
      rw [hback]
      exact Submodule.smul_mem _ _ hmem
    · rw [eq_add_of_sub_eq (hother r hr).symm]
      exact Submodule.add_mem _ ((t.pivot i j).vector_mem_span r) (Submodule.smul_mem _ _ hmem)

/-! ### Solved rows -/

/-- **Every row is solved for its basic column**: that column has a one there and nothing
elsewhere. -/
def Solved (t : Tableau ℚ m c) : Prop :=
  ∀ k r, t.entry r (t.basis.get k) = if r = k then 1 else 0

/-- No two rows are solved for one column. -/
theorem Solved.basis_injective (ht : t.Solved) : Function.Injective t.basis.get := by
  intro k l hkl
  by_contra hne
  have hone := ht k k
  rw [hkl, ht l k, if_neg hne, if_pos rfl] at hone
  exact zero_ne_one hone

/-- **Rows stay solved**, the one of the pivot for its new column. -/
theorem Solved.pivot (ht : t.Solved) (h : t.entry i j ≠ 0) : (t.pivot i j).Solved := by
  intro k r
  rw [get_basis_pivot, entry_pivot]
  by_cases hk : i = k
  · rw [if_pos hk, div_self h, mul_one, sub_self, hk]
  · -- the row of the pivot has nothing in the basic column of another row
    rw [if_neg hk, ht k i, if_neg hk, ht k r, zero_div, mul_zero, sub_zero]
    split_ifs with hr hrk hrk
    · exact absurd (hr.symm.trans hrk) hk
    · rfl
    · rfl
    · rfl

/-! ### The cost -/

/-- The cost has become what it is from `base` by taking combinations of rows from it, and nothing
of it is left in the basic columns. -/
structure Priced (base : Equation ℚ c) (t : Tableau ℚ m c) : Prop where
  /-- What was taken follows from the rows. -/
  sub_mem : t.cost.vector - base.vector ∈ t.span
  /-- A basic column costs nothing. -/
  basic : ∀ k, t.cost.coeffs.get (t.basis.get k) = 0

theorem Priced.pivot (hp : t.Priced base) (ht : t.Solved) (h : t.entry i j ≠ 0) :
    (t.pivot i j).Priced base where
  sub_mem := by
    rw [span_pivot h, cost_pivot, Equation.vector_minus, Equation.vector_dividedBy, sub_right_comm]
    refine t.span.sub_mem hp.sub_mem (t.span.smul_mem _ (t.span.smul_mem _ ?_))
    exact t.vector_mem_span i
  basic k := by
    rw [cost_pivot, get_basis_pivot, Equation.get_coeffs_minus, Equation.get_coeffs_dividedBy]
    by_cases hk : i = k
    · rw [if_pos hk]
      exact sub_eq_zero.mpr ((mul_one _).symm.trans (congrArg _ (div_self h).symm))
    · have hrow : (t.rows.get i).coeffs.get (t.basis.get k) = 0 := (ht k i).trans (if_neg hk)
      rw [if_neg hk, hp.basic k, hrow, zero_div, mul_zero, sub_zero]

/-- At a solution the cost and what it started as differ by a constant. -/
theorem Priced.form_sub (hp : t.Priced base) (hz : t.Solves z) :
    t.cost.form z - t.cost.rhs = base.form z - base.rhs := by
  have hmem := solves_iff.mp hz hp.sub_mem
  rw [LinearMap.mem_ker, map_sub, Equation.defect_vector, Equation.defect_vector] at hmem
  exact sub_eq_zero.mp hmem

/-! ### The basic point -/

/-- **The point a tableau stands for**: a basic column has the right-hand side of its row. -/
def basicPoint (t : Tableau ℚ m c) : Vector ℚ c :=
  Vector.ofFn fun j => ∑ i, if t.basis.get i = j then (t.rows.get i).rhs else 0

theorem sum_mul_basicPoint (t : Tableau ℚ m c) (w : Fin c → ℚ) :
    ∑ j, w j * t.basicPoint.get j = ∑ i, w (t.basis.get i) * (t.rows.get i).rhs := by
  simp only [basicPoint, get_ofFn, mul_sum, mul_ite, mul_zero]
  rw [sum_comm]
  refine sum_congr rfl fun i _ => ?_
  rw [sum_ite_eq, if_pos (mem_univ _)]

theorem Solved.solves_basicPoint (ht : t.Solved) : t.Solves t.basicPoint := by
  intro r
  rw [Equation.Holds, Equation.form, sum_mul_basicPoint]
  have hterm : ∀ i, (t.rows.get r).coeffs.get (t.basis.get i) * (t.rows.get i).rhs
      = if r = i then (t.rows.get i).rhs else 0 := by
    intro i
    rw [show (t.rows.get r).coeffs.get (t.basis.get i) = _ from ht i r, ite_mul, one_mul, zero_mul]
  rw [sum_congr rfl fun i _ => hterm i, sum_ite_eq, if_pos (mem_univ r)]

theorem Priced.form_basicPoint (hp : t.Priced base) : t.cost.form t.basicPoint = 0 := by
  rw [Equation.form, sum_mul_basicPoint]
  exact sum_eq_zero fun i _ => by rw [hp.basic i, zero_mul]

/-! ### The search -/

theorem entering_eq_none_iff {tol : ℚ} {limit : ℕ} :
    t.entering tol limit = none ↔ ∀ j : Fin c, j < limit → -tol ≤ t.cost.coeffs.get j := by
  simp [entering, List.find?_eq_none]

/-- **The row that leaves has an entry above the tolerance**, since no other row is considered. -/
theorem lt_entry_of_leaving {tol : ℚ} (h : t.leaving tol j = some i) : tol < t.entry i j := by
  -- the best row so far was considered
  have hinv : ∀ (l : List (Fin m)) (best : Option (Fin m × ℚ)),
      (∀ b ∈ best, tol < t.entry b.1 j) → ∀ b ∈ l.foldl (t.closer tol j) best,
        tol < t.entry b.1 j := by
    intro l
    induction l with
    | nil => exact fun best hbest => hbest
    | cons r l ih =>
      intro best hbest
      refine ih _ fun b hb => ?_
      simp only [closer] at hb
      split_ifs at hb with hr
      · rcases best with _ | ⟨b', least⟩
        · obtain rfl := Option.mem_some_iff.mp hb
          exact hr
        · dsimp only at hb
          split_ifs at hb
          · obtain rfl := Option.mem_some_iff.mp hb
            exact hr
          · exact hbest b hb
      · exact hbest b hb
  obtain ⟨b, hb, rfl⟩ := Option.map_eq_some_iff.mp h
  exact hinv _ none (fun b hb => nomatch hb) b hb

/-- **What a pivot of the search keeps, the search keeps**, and where it ends no column improves
the cost. -/
theorem run_induction {tol : ℚ} {limit most : ℕ} {P : Tableau ℚ m c → Prop}
    (hstep : ∀ t i j, P t → t.entering tol limit = some j → t.leaving tol j = some i →
      P (t.pivot i j))
    {last : Tableau ℚ m c} (hrun : t.run tol limit most = .ok last) (ht : P t) :
    P last ∧ last.entering tol limit = none := by
  fun_induction run tol limit most t with
  | case1 t hnone =>
    obtain rfl := Except.ok.inj hrun
    exact ⟨ht, hnone⟩
  | case2 t j henter hnone => cases hrun
  | case3 t j henter i hleave next hmost => cases hrun
  | case4 t j henter i hleave next hmost ih =>
    exact ih hrun (hstep t i j ht henter hleave)

/-- **Where no column improves the cost by more than the tolerance, the basic point is nearly
cheapest**: it costs at most the tolerance times the size of a point more than that point, if the
point solves the rows, has no negative coordinate, and only coordinates that could have entered. -/
theorem Priced.form_basicPoint_le (hp : t.Priced base) (ht : t.Solved) {tol : ℚ} {limit : ℕ}
    (hend : t.entering tol limit = none) (hz : t.Solves z) (hnonneg : ∀ j, 0 ≤ z.get j)
    (hlimit : ∀ j : Fin c, limit ≤ j → z.get j = 0) :
    base.form t.basicPoint ≤ base.form z + tol * ∑ j, z.get j := by
  -- a column that could enter costs at least `-tol`, and the others have no share in the point
  have hcost : -(tol * ∑ j, z.get j) ≤ t.cost.form z := by
    rw [mul_sum, ← sum_neg_distrib]
    refine sum_le_sum fun j _ => ?_
    rcases lt_or_ge j.val limit with hj | hj
    · rw [← neg_mul]
      exact mul_le_mul_of_nonneg_right (entering_eq_none_iff.mp hend j hj) (hnonneg j)
    · rw [hlimit j hj, mul_zero, mul_zero, neg_zero]
  have hbasic := hp.form_sub ht.solves_basicPoint
  have hpoint := hp.form_sub hz
  rw [hp.form_basicPoint] at hbasic
  linarith

end Tableau

end MarkovDecision
