import MarkovDecision.Proofs.LinearProgram.Basic
import MarkovDecision.Proofs.LinearProgram.Tableau

/-!
# What the two phases find

The tableau a program starts from is solved for its slack and artificial columns
(`LinearProgram.solved_initial`), and a feasible point becomes a solution of its rows
once every slack is given what the point leaves of its constraint
(`LinearProgram.solves_withSlack`). Every later tableau comes from it by pivots that
are not zero and by changes of the cost, so the facts kept by these carry over to
the last one, and with them its nearly cheapest point.

The outcome is `LinearProgram.cost_le_of_solveWithin`: at any tolerance, what is
returned costs hardly more than a feasible point does. It is a statement about the
cost alone. The tolerances can make the first phase end at a point that violates a
constraint, and such a point may well be cheaper than all feasible ones.
-/

namespace MarkovDecision

open Finset

/-! ### Pricing out the basic columns -/

namespace Tableau

variable {m c : ℕ} {t : Tableau ℚ m c}

theorem price_zero (t : Tableau ℚ m c) (i : Fin m) : t.price i 0 = t := by
  rw [price, Equation.minus_zero]

theorem vector_cost_price (t : Tableau ℚ m c) (i : Fin m) (q : ℚ) :
    (t.price i q).cost.vector = t.cost.vector - q • (t.rows.get i).vector :=
  Equation.vector_minus q

/-- What is priced out row by row adds up. -/
theorem foldl_price {step : Tableau ℚ m c → Fin m → Tableau ℚ m c} {factor : Fin m → ℚ}
    (hstep : ∀ u i, u.rows = t.rows → u.basis = t.basis → step u i = u.price i (factor i))
    {l : List (Fin m)} (hl : l.Nodup) {u : Tableau ℚ m c} (hrows : u.rows = t.rows)
    (hbasis : u.basis = t.basis) :
    (l.foldl step u).rows = t.rows ∧ (l.foldl step u).basis = t.basis ∧
      (l.foldl step u).cost.vector
        = u.cost.vector - ∑ i ∈ l.toFinset, factor i • (t.rows.get i).vector := by
  induction l generalizing u with
  | nil => exact ⟨hrows, hbasis, (sub_zero _).symm⟩
  | cons i l ih =>
    obtain ⟨hi, hnodup⟩ := List.nodup_cons.mp hl
    rw [List.foldl_cons, hstep u i hrows hbasis]
    obtain ⟨h1, h2, h3⟩ := ih hnodup (u := u.price i (factor i)) hrows hbasis
    refine ⟨h1, h2, ?_⟩
    rw [h3, vector_cost_price, hrows, List.toFinset_cons,
      sum_insert fun hmem => hi (List.mem_toFinset.mp hmem), sub_sub]

/-- **Pricing every row at the cost of its basic column** leaves nothing in the basic columns. -/
theorem Solved.priced_foldl (ht : t.Solved)
    {step : Tableau ℚ m c → Fin m → Tableau ℚ m c}
    (hstep : ∀ u i, u.rows = t.rows → u.basis = t.basis →
      step u i = u.price i (t.cost.coeffs.get (t.basis.get i))) :
    ((List.finRange m).foldl step t).rows = t.rows ∧
      ((List.finRange m).foldl step t).basis = t.basis ∧
      ((List.finRange m).foldl step t).Priced t.cost := by
  obtain ⟨hrows, hbasis, hcost⟩ := foldl_price hstep (List.nodup_finRange m) rfl rfl
  rw [List.toFinset_finRange] at hcost
  refine ⟨hrows, hbasis, ?_, fun k => ?_⟩
  · rw [hcost, sub_sub_cancel_left, span, hrows]
    refine Submodule.neg_mem _ (Submodule.sum_mem _ fun i _ => Submodule.smul_mem _ _ ?_)
    exact t.vector_mem_span i
  · have hat := congrFun hcost (some (t.basis.get k))
    simp only [Pi.sub_apply, Finset.sum_apply, Pi.smul_apply, smul_eq_mul] at hat
    -- of all rows only the one solved for this column has an entry in it
    have hterm : ∀ i, t.cost.coeffs.get (t.basis.get i)
          * (t.rows.get i).vector (some (t.basis.get k))
        = if i = k then t.cost.coeffs.get (t.basis.get k) else 0 := by
      intro i
      rw [show (t.rows.get i).vector (some (t.basis.get k)) = _ from ht k i]
      split_ifs with hik
      · rw [hik, mul_one]
      · rw [mul_zero]
    rw [sum_congr rfl fun i _ => hterm i, sum_ite_eq', if_pos (mem_univ k)] at hat
    rw [hbasis]
    exact hat.trans (sub_self _)

end Tableau

namespace Constraint

variable {n : ℕ} {k : Constraint ℚ n} {x : Vector ℚ n}

theorem form_upright : k.upright.form x = if k.rhs < 0 then -k.form x else k.form x := by
  rw [upright]
  split_ifs
  · simp only [form, get_map, neg_mul, sum_neg_distrib]
  · rfl

theorem rhs_upright : k.upright.rhs = if k.rhs < 0 then -k.rhs else k.rhs := by
  rw [upright]
  split_ifs <;> rfl

/-- **Setting a constraint upright** does not change which points it holds of. -/
theorem holds_upright_iff : k.upright.Holds x ↔ k.Holds x := by
  by_cases hneg : k.rhs < 0
  · have hform := form_upright (k := k) (x := x)
    have hrhs := rhs_upright (k := k)
    rw [if_pos hneg] at hform hrhs
    have hsense : k.upright.sense = k.sense.flip := by rw [upright, if_pos hneg]
    rw [Holds, hform, hrhs, hsense, Holds]
    cases k.sense
    · exact neg_le_neg_iff
    · exact neg_le_neg_iff
  · rw [upright, if_neg hneg]

/-- What a point leaves of a constraint. -/
def gap (k : Constraint ℚ n) (x : Vector ℚ n) : ℚ := |k.form x - k.rhs|

theorem gap_upright : k.upright.gap x = k.gap x := by
  rw [gap, form_upright, rhs_upright, gap]
  split_ifs
  · rw [neg_sub_neg, abs_sub_comm]
  · rfl

end Constraint

/-- The coefficient of a slack. -/
def Sense.slackSign : Sense → ℚ
  | .le => 1
  | .ge => -1

/-- The coefficient of an artificial coordinate. -/
def Sense.artificialSign : Sense → ℚ
  | .le => 0
  | .ge => 1

namespace LinearProgram

variable {n m : ℕ} {lp : LinearProgram ℚ n m}

/-! ### The columns -/

/-- The column of an unknown. -/
def unknown (j : Fin n) : Fin (n + m + m) := ⟨j, by omega⟩

theorem slack_inj {i k : Fin m} : (slack i : Fin (n + m + m)) = slack k ↔ i = k := by
  simp only [slack, Fin.ext_iff]
  omega

theorem artificial_inj {i k : Fin m} :
    (artificial i : Fin (n + m + m)) = artificial k ↔ i = k := by
  simp only [artificial, Fin.ext_iff]
  omega

theorem slack_ne_artificial (i k : Fin m) : (slack i : Fin (n + m + m)) ≠ artificial k := by
  simp only [slack, artificial, ne_eq, Fin.ext_iff]
  omega

/-- A sum over all columns, kind by kind. -/
theorem sum_columns (f : Fin (n + m + m) → ℚ) :
    ∑ j, f j = ∑ j : Fin n, f (unknown j) + ∑ i : Fin m, f (slack i)
      + ∑ i : Fin m, f (artificial i) := by
  rw [Fin.sum_univ_add, Fin.sum_univ_add]
  rfl

/-- An equation in its three kinds of columns. -/
theorem form_columns (e : Equation ℚ (n + m + m)) (z : Vector ℚ (n + m + m)) :
    e.form z = ∑ j : Fin n, e.coeffs.get (unknown j) * z.get (unknown j)
      + ∑ i : Fin m, e.coeffs.get (slack i) * z.get (slack i)
      + ∑ i : Fin m, e.coeffs.get (artificial i) * z.get (artificial i) :=
  sum_columns _

theorem equation_unknown (i : Fin m) (j : Fin n) :
    (lp.equation i).coeffs.get (unknown j) = (lp.row i).coeffs.get j := by
  rw [equation, get_ofFn, dif_pos (show (unknown j : Fin (n + m + m)).val < n from j.isLt)]
  rfl

theorem equation_slack (i k : Fin m) :
    (lp.equation i).coeffs.get (slack k) =
      if i = k then (lp.row i).sense.slackSign else 0 := by
  have hlt : ¬(slack k : Fin (n + m + m)).val < n := by
    simp only [slack]
    omega
  rw [equation, get_ofFn, dif_neg hlt, if_neg (slack_ne_artificial k i)]
  simp only [slack_inj, eq_comm]
  cases (lp.row i).sense <;> rfl

theorem equation_artificial (i k : Fin m) :
    (lp.equation i).coeffs.get (artificial k) =
      if i = k then (lp.row i).sense.artificialSign else 0 := by
  have hlt : ¬(artificial k : Fin (n + m + m)).val < n := by
    simp only [artificial]
    omega
  rw [equation, get_ofFn, dif_neg hlt, if_neg (slack_ne_artificial i k).symm]
  simp only [artificial_inj, eq_comm]
  cases (lp.row i).sense <;> rfl

/-- The equation of a row, with its one slack and its one artificial. -/
theorem form_equation (i : Fin m) (z : Vector ℚ (n + m + m)) :
    (lp.equation i).form z = ∑ j, (lp.row i).coeffs.get j * z.get (unknown j)
      + (lp.row i).sense.slackSign * z.get (slack i)
      + (lp.row i).sense.artificialSign * z.get (artificial i) := by
  rw [form_columns]
  simp only [equation_unknown, equation_slack, equation_artificial, ite_mul, zero_mul, sum_ite_eq,
    mem_univ, if_true]

theorem artificialCost_slack (i : Fin m) : lp.artificialCost.coeffs.get (slack i) = 0 := by
  rw [artificialCost, get_ofFn, if_neg]
  simp [slack_ne_artificial]

theorem artificialCost_artificial {i : Fin m} (hi : (lp.row i).sense = .ge) :
    lp.artificialCost.coeffs.get (artificial i) = 1 := by
  rw [artificialCost, get_ofFn, if_pos]
  exact List.any_eq_true.mpr ⟨i, List.mem_finRange i, by simp [hi]⟩

theorem ownCost_unknown (j : Fin n) :
    lp.ownCost.coeffs.get (unknown j) = lp.objective.get j := by
  rw [ownCost, get_ofFn, dif_pos (show (unknown j : Fin (n + m + m)).val < n from j.isLt)]
  rfl

theorem ownCost_of_le {j : Fin (n + m + m)} (hj : n ≤ j.val) : lp.ownCost.coeffs.get j = 0 := by
  rw [ownCost, get_ofFn, dif_neg (by omega)]

/-- The cost of the program, in columns. -/
theorem form_ownCost (z : Vector ℚ (n + m + m)) :
    lp.ownCost.form z = ∑ j : Fin n, lp.objective.get j * z.get (unknown j) := by
  rw [form_columns]
  have hslack : ∀ i : Fin m, lp.ownCost.coeffs.get (slack i) = 0 :=
    fun i => ownCost_of_le (Nat.le_add_right n i)
  have hartificial : ∀ i : Fin m, lp.ownCost.coeffs.get (artificial i) = 0 :=
    fun i => ownCost_of_le ((Nat.le_add_right n m).trans (Nat.le_add_right (n + m) i))
  simp only [ownCost_unknown, hslack, hartificial, zero_mul, sum_const_zero, add_zero]

/-! ### The start -/

theorem entry_initial (i : Fin m) (j : Fin (n + m + m)) :
    lp.initial.entry i j = (lp.equation i).coeffs.get j := by
  rw [Tableau.entry, initial, get_ofFn]

/-- **The first tableau is solved** for its slack and artificial columns. -/
theorem solved_initial (lp : LinearProgram ℚ n m) : lp.initial.Solved := by
  intro k r
  have hbasis : lp.initial.basis.get k = lp.start k := by rw [initial, get_ofFn]
  rw [hbasis, entry_initial, start]
  cases hk : (lp.row k).sense with
  | le =>
    dsimp only
    rw [equation_slack]
    split_ifs with hr
    · rw [hr, hk, Sense.slackSign]
    · rfl
  | ge =>
    dsimp only
    rw [equation_artificial]
    split_ifs with hr
    · rw [hr, hk, Sense.artificialSign]
    · rfl

/-- A point, with what it leaves of each constraint in the slack columns. -/
def withSlack (lp : LinearProgram ℚ n m) (y : Vector ℚ n) : Vector ℚ (n + m + m) :=
  Vector.ofFn fun j =>
    if h : j.val < n then y.get ⟨j, h⟩
    else if h : j.val < n + m then (lp.constraints.get ⟨j - n, by omega⟩).gap y
    else 0

theorem withSlack_unknown (y : Vector ℚ n) (j : Fin n) :
    (lp.withSlack y).get (unknown j) = y.get j := by
  rw [withSlack, get_ofFn, dif_pos (show (unknown j : Fin (n + m + m)).val < n from j.isLt)]
  rfl

theorem withSlack_slack (y : Vector ℚ n) (i : Fin m) :
    (lp.withSlack y).get (slack i) = (lp.constraints.get i).gap y := by
  have hlow : ¬(slack i : Fin (n + m + m)).val < n := by
    simp only [slack]
    omega
  have hhigh : (slack i : Fin (n + m + m)).val < n + m := by
    simp only [slack]
    omega
  rw [withSlack, get_ofFn, dif_neg hlow, dif_pos hhigh]
  congr
  simp only [slack, Nat.add_sub_cancel_left]

theorem withSlack_of_le (y : Vector ℚ n) {j : Fin (n + m + m)} (hj : n + m ≤ j.val) :
    (lp.withSlack y).get j = 0 := by
  rw [withSlack, get_ofFn, dif_neg (by omega), dif_neg (by omega)]

theorem sum_withSlack (y : Vector ℚ n) :
    ∑ j, (lp.withSlack y).get j = ∑ j, y.get j + ∑ i, (lp.constraints.get i).gap y := by
  have hzero : ∀ i : Fin m, (lp.withSlack y).get (artificial i) = 0 :=
    fun i => withSlack_of_le y (Nat.le_add_right (n + m) i)
  rw [sum_columns]
  simp only [withSlack_unknown, withSlack_slack, hzero, sum_const_zero, add_zero]

theorem withSlack_nonneg {y : Vector ℚ n} (hy : ∀ j, 0 ≤ y.get j) (j : Fin (n + m + m)) :
    0 ≤ (lp.withSlack y).get j := by
  rw [withSlack, get_ofFn]
  split_ifs
  · exact hy _
  · exact abs_nonneg _
  · exact le_rfl

/-- **A feasible point solves the first tableau**, with its slack. -/
theorem solves_withSlack {y : Vector ℚ n} (hy : lp.Feasible y) :
    lp.initial.Solves (lp.withSlack y) := by
  intro i
  have hrow : lp.initial.rows.get i = lp.equation i := by rw [initial, get_ofFn]
  have hholds : (lp.row i).Holds y := Constraint.holds_upright_iff.mpr (hy.holds i)
  have hgap : (lp.constraints.get i).gap y = (lp.row i).gap y := Constraint.gap_upright.symm
  have hzero : ∀ k : Fin m, (lp.withSlack y).get (artificial k) = 0 :=
    fun k => withSlack_of_le y (Nat.le_add_right (n + m) k)
  have hform : (lp.equation i).form (lp.withSlack y) = (lp.row i).form y
      + (lp.row i).sense.slackSign * (lp.row i).gap y := by
    rw [form_equation, withSlack_slack, hgap, hzero, mul_zero, add_zero]
    simp only [withSlack_unknown]
    rfl
  rw [hrow, Equation.Holds, hform, Constraint.gap]
  rw [Constraint.Holds] at hholds
  show _ = (lp.row i).rhs
  cases hsense : (lp.row i).sense with
  | le =>
    rw [hsense] at hholds
    rw [abs_of_nonpos (sub_nonpos.mpr hholds), Sense.slackSign]
    ring
  | ge =>
    rw [hsense] at hholds
    rw [abs_of_nonneg (sub_nonneg.mpr hholds), Sense.slackSign]
    ring

/-! ### The phases -/

/-- A tableau of a program: solved, and with the consequences of the first one. -/
structure Reached (lp : LinearProgram ℚ n m) (t : Tableau ℚ m (n + m + m)) : Prop where
  /-- Every row is solved for its basic column. -/
  solved : t.Solved
  /-- The rows say what those of the first tableau say. -/
  span_eq : t.span = lp.initial.span

theorem reached_initial (lp : LinearProgram ℚ n m) : lp.Reached lp.initial :=
  ⟨lp.solved_initial, rfl⟩

/-- Changing the cost does not matter. -/
theorem Reached.congr {t u : Tableau ℚ m (n + m + m)} (h : lp.Reached t) (hrows : u.rows = t.rows)
    (hbasis : u.basis = t.basis) : lp.Reached u where
  solved k r := by
    rw [Tableau.entry, hrows, hbasis]
    exact h.solved k r
  span_eq := by
    rw [← h.span_eq, Tableau.span, hrows]
    rfl

theorem Reached.pivot {t : Tableau ℚ m (n + m + m)} (h : lp.Reached t) {i : Fin m}
    {j : Fin (n + m + m)} (hij : t.entry i j ≠ 0) : lp.Reached (t.pivot i j) :=
  ⟨h.solved.pivot hij, (Tableau.span_pivot hij).trans h.span_eq⟩

/-- The points that solve the rows are those that solved the first ones. -/
theorem Reached.solves_iff {t : Tableau ℚ m (n + m + m)} (h : lp.Reached t)
    {z : Vector ℚ (n + m + m)} : t.Solves z ↔ lp.initial.Solves z := by
  rw [Tableau.solves_iff, Tableau.solves_iff, h.span_eq]

/-- **The tableau of the first phase** is the first one with the artificial columns priced
out. -/
theorem phaseOne_spec (lp : LinearProgram ℚ n m) :
    lp.phaseOne.rows = lp.initial.rows ∧ lp.phaseOne.basis = lp.initial.basis ∧
      lp.phaseOne.Priced lp.artificialCost := by
  have hstep : ∀ (u : Tableau ℚ m (n + m + m)) i, u.rows = lp.initial.rows →
      u.basis = lp.initial.basis →
      (if n + m ≤ (u.basis.get i).val then u.price i 1 else u)
        = u.price i (lp.initial.cost.coeffs.get (lp.initial.basis.get i)) := by
    intro u i _ hbasis
    have hstart : lp.initial.basis.get i = lp.start i := by rw [initial, get_ofFn]
    have hcost : lp.initial.cost = lp.artificialCost := rfl
    rw [hbasis, hstart, hcost, start]
    cases hi : (lp.row i).sense with
    | le =>
      have hlt : ¬n + m ≤ (slack i : Fin (n + m + m)).val := by
        simp only [slack]
        omega
      dsimp only
      rw [if_neg hlt, artificialCost_slack]
      exact (u.price_zero i).symm
    | ge =>
      have hle : n + m ≤ (artificial i : Fin (n + m + m)).val := Nat.le_add_right (n + m) i
      dsimp only
      rw [if_pos hle, artificialCost_artificial hi]
  exact lp.solved_initial.priced_foldl hstep

theorem reached_phaseOne (lp : LinearProgram ℚ n m) :
    lp.Reached lp.phaseOne ∧ lp.phaseOne.Priced lp.artificialCost := by
  obtain ⟨hrows, hbasis, hpriced⟩ := lp.phaseOne_spec
  exact ⟨lp.reached_initial.congr hrows hbasis, hpriced⟩

/-- **The tableau of the second phase** is the one the first phase left, with the basic unknowns
priced out of the cost of the program. -/
theorem phaseTwo_spec {t : Tableau ℚ m (n + m + m)} (h : lp.Reached t) :
    (lp.phaseTwo t).rows = t.rows ∧ (lp.phaseTwo t).basis = t.basis ∧
      (lp.phaseTwo t).Priced lp.ownCost := by
  have hown : lp.Reached { t with cost := lp.ownCost } := h.congr rfl rfl
  have hstep : ∀ (u : Tableau ℚ m (n + m + m)) i, u.rows = t.rows → u.basis = t.basis →
      (if h : (u.basis.get i).val < n then
        let unit := lp.objective.get ⟨u.basis.get i, h⟩
        if unit == 0 then u else u.price i unit
      else u) = u.price i (lp.ownCost.coeffs.get (t.basis.get i)) := by
    intro u i _ hbasis
    rw [hbasis, ownCost, get_ofFn]
    split_ifs with hlt
    · simp only [beq_iff_eq]
      split_ifs with hzero
      · rw [hzero, u.price_zero i]
      · rfl
    · exact (u.price_zero i).symm
  exact hown.solved.priced_foldl hstep

theorem Reached.phaseTwo {t : Tableau ℚ m (n + m + m)} (h : lp.Reached t) :
    lp.Reached (lp.phaseTwo t) ∧ (lp.phaseTwo t).Priced lp.ownCost := by
  obtain ⟨hrows, hbasis, hpriced⟩ := phaseTwo_spec h
  exact ⟨h.congr hrows hbasis, hpriced⟩

/-- Driving out an artificial column is a pivot, if it does anything. -/
theorem Reached.driveOut {tol : ℚ} (htol : 0 ≤ tol) {t : Tableau ℚ m (n + m + m)}
    (h : lp.Reached t) (i : Fin m) : lp.Reached (driveOut tol t i) := by
  rw [LinearProgram.driveOut]
  split_ifs
  · exact h
  · split
    · exact h
    · rename_i j hfind
      have hj := List.find?_some hfind
      rw [Bool.and_eq_true, decide_eq_true_eq, decide_eq_true_eq,
        LinearSystem.magnitude_eq_abs] at hj
      exact h.pivot (abs_pos.mp (htol.trans_lt hj.2))

theorem Reached.foldl_driveOut {tol : ℚ} (htol : 0 ≤ tol) (l : List (Fin m))
    {t : Tableau ℚ m (n + m + m)} (h : lp.Reached t) :
    lp.Reached (l.foldl (LinearProgram.driveOut tol) t) := by
  induction l generalizing t with
  | nil => exact h
  | cons i l ih => exact ih (h.driveOut htol i)

/-- **What a pivot of the search keeps**: a priced tableau of the program, whatever the
tolerance. -/
theorem pivot_spec {tol : ℚ} (htol : 0 ≤ tol) {base : Equation ℚ (n + m + m)}
    {t : Tableau ℚ m (n + m + m)} {i : Fin m} {j : Fin (n + m + m)}
    (hleave : t.leaving tol j = some i) (h : lp.Reached t ∧ t.Priced base) :
    lp.Reached (t.pivot i j) ∧ (t.pivot i j).Priced base := by
  have hij : t.entry i j ≠ 0 := (htol.trans_lt (Tableau.lt_entry_of_leaving hleave)).ne'
  exact ⟨h.1.pivot hij, h.2.pivot h.1.solved hij⟩

/-- What the search keeps. -/
theorem run_spec {tol : ℚ} (htol : 0 ≤ tol) {limit most : ℕ} {base : Equation ℚ (n + m + m)}
    {t last : Tableau ℚ m (n + m + m)} (hrun : t.run tol limit most = .ok last)
    (h : lp.Reached t ∧ t.Priced base) :
    (lp.Reached last ∧ last.Priced base) ∧ last.entering tol limit = none := by
  refine Tableau.run_induction (P := fun t => lp.Reached t ∧ t.Priced base) ?_ hrun h
  intro t i j ht _ hleave
  exact pivot_spec htol hleave ht

/-- **What the first phase does**: nothing where no artificial column is in use; else it searches,
accepts a small residue, and drives out what artificial columns it can. -/
theorem exists_of_feasible {tol : Tolerance ℚ} {most : ℕ} {t : Tableau ℚ m (n + m + m)}
    (h : lp.feasible tol most = .ok t) :
    (lp.needsArtificial = false ∧ t = lp.initial) ∨
      ∃ last, lp.phaseOne.run tol.entry (n + m + m) most = .ok last ∧
        -last.cost.rhs ≤ tol.residue ∧
        t = (List.finRange m).foldl (driveOut tol.entry) last := by
  rw [feasible] at h
  split_ifs at h with hneeds
  · rcases hrun : lp.phaseOne.run tol.entry (n + m + m) most with e | last
    · rw [hrun] at h
      cases h
    · rw [hrun] at h
      simp only [bind, Except.bind, pure, Except.pure, throw, throwThe, MonadExceptOf.throw] at h
      split_ifs at h with hresidue
      exact Or.inr ⟨last, rfl, not_lt.mp hresidue, (Except.ok.inj h).symm⟩
  · exact Or.inl ⟨Bool.not_eq_true _ ▸ hneeds, (Except.ok.inj h).symm⟩

/-- **The first phase ends at a tableau of the program.** -/
theorem reached_of_feasible {tol : Tolerance ℚ} (htol : 0 ≤ tol.entry) {most : ℕ}
    {t : Tableau ℚ m (n + m + m)} (h : lp.feasible tol most = .ok t) : lp.Reached t := by
  rcases exists_of_feasible h with ⟨-, rfl⟩ | ⟨last, hrun, -, rfl⟩
  · exact lp.reached_initial
  · exact (run_spec htol hrun lp.reached_phaseOne).1.1.foldl_driveOut htol _

/-! ### The point that is returned -/

/-- Reading off the unknowns does not touch one that no row of the list is solved for. -/
theorem get_foldl_of_ne {t : Tableau ℚ m (n + m + m)} {l : List (Fin m)} {j : Fin n}
    (hl : ∀ i ∈ l, t.basis.get i ≠ unknown j) (x : Vector ℚ n) :
    (l.foldl (fun x i =>
      if h : (t.basis.get i).val < n then replaceAt x ⟨t.basis.get i, h⟩ (t.rows.get i).rhs
      else x) x).get j = x.get j := by
  induction l generalizing x with
  | nil => rfl
  | cons i l ih =>
    rw [List.foldl_cons, ih fun k hk => hl k (List.mem_cons_of_mem i hk)]
    split_ifs with h
    · have hne : (⟨t.basis.get i, h⟩ : Fin n) ≠ j := by
        rintro rfl
        exact hl i List.mem_cons_self (Fin.ext rfl)
      rw [get_replaceAt, if_neg hne]
    · rfl

/-- The row that is solved for an unknown gives its value. -/
theorem get_foldl_of_eq {t : Tableau ℚ m (n + m + m)} (ht : t.Solved) {l : List (Fin m)}
    (hl : l.Nodup) {i : Fin m} (hi : i ∈ l) {j : Fin n} (hj : t.basis.get i = unknown j)
    (x : Vector ℚ n) :
    (l.foldl (fun x i =>
      if h : (t.basis.get i).val < n then replaceAt x ⟨t.basis.get i, h⟩ (t.rows.get i).rhs
      else x) x).get j = (t.rows.get i).rhs := by
  induction l generalizing x with
  | nil => exact absurd hi List.not_mem_nil
  | cons k l ih =>
    obtain ⟨hk, hnodup⟩ := List.nodup_cons.mp hl
    rw [List.foldl_cons]
    rcases List.mem_cons.mp hi with rfl | hi
    · have hval : (t.basis.get i).val = j := congrArg Fin.val hj
      have hcol : (⟨t.basis.get i, hval ▸ j.isLt⟩ : Fin n) = j := Fin.ext hval
      rw [get_foldl_of_ne, dif_pos (hval ▸ j.isLt), get_replaceAt, if_pos hcol]
      intro r hr heq
      exact hk (ht.basis_injective (heq.trans hj.symm) ▸ hr)
    · exact ih hnodup hi _

/-- **The point that is returned is the basic point**, cut to the unknowns. -/
theorem get_point {t : Tableau ℚ m (n + m + m)} (ht : t.Solved) (j : Fin n) :
    (point t).get j = t.basicPoint.get (unknown j) := by
  rw [Tableau.basicPoint, get_ofFn, point]
  by_cases hj : ∃ i, t.basis.get i = unknown j
  · obtain ⟨i, hi⟩ := hj
    have hsingle : ∀ k, k ≠ i → (if t.basis.get k = unknown j then (t.rows.get k).rhs else 0) = 0 :=
      fun k hk => if_neg fun h => hk (ht.basis_injective (h.trans hi.symm))
    rw [get_foldl_of_eq ht (List.nodup_finRange m) (List.mem_finRange i) hi,
      Fintype.sum_eq_single i hsingle, if_pos hi]
  · have hnone : ∀ i, t.basis.get i ≠ unknown j := fun i hi => hj ⟨i, hi⟩
    rw [get_foldl_of_ne fun i _ => hnone i, get_replicate]
    exact (sum_eq_zero fun i _ => if_neg (hnone i)).symm

/-- **What it takes for a program to be answered**: it has no constraints and no negative cost, or
both phases come to an end. -/
theorem exists_of_solveWithin {tol : Tolerance ℚ} {most : ℕ} {x : Vector ℚ n}
    (h : lp.solveWithin tol most = .ok x) :
    (m = 0 ∧ (∀ j, 0 ≤ lp.objective.get j) ∧ x = Vector.replicate n 0) ∨
      ∃ t last, lp.feasible tol most = .ok t ∧
        (lp.phaseTwo t).run tol.entry (n + m) most = .ok last ∧ x = point last := by
  rw [solveWithin] at h
  split_ifs at h with hm hneg
  · cases h
  · refine Or.inl ⟨hm, fun j => ?_, (Except.ok.inj h).symm⟩
    rw [Vector.any_eq_true] at hneg
    by_contra hj
    exact hneg ⟨j, j.isLt, decide_eq_true (not_le.mp hj)⟩
  · rcases hfeasible : lp.feasible tol most with e | t
    · rw [hfeasible] at h
      cases h
    rw [hfeasible] at h
    rcases hrun : (lp.phaseTwo t).run tol.entry (n + m) most with e | last
    · simp only [bind, Except.bind, hrun] at h
      cases h
    · simp only [bind, Except.bind, hrun] at h
      exact Or.inr ⟨t, last, rfl, hrun, (Except.ok.inj h).symm⟩

/-- **What is returned costs hardly more than a feasible point**, whatever the tolerance: at most
the tolerance times the size of the point and of what it leaves of the constraints. -/
theorem cost_le_of_solveWithin {tol : Tolerance ℚ} (htol : 0 ≤ tol.entry) {most : ℕ}
    {x : Vector ℚ n} (h : lp.solveWithin tol most = .ok x) {y : Vector ℚ n} (hy : lp.Feasible y) :
    lp.cost x ≤ lp.cost y
      + tol.entry * (∑ j, y.get j + ∑ i, (lp.constraints.get i).gap y) := by
  rcases exists_of_solveWithin h with ⟨-, hnonneg, rfl⟩ | ⟨t, last, hfeasible, hrun, rfl⟩
  · -- the origin costs nothing, and no feasible point costs less than nothing
    have hzero : lp.cost (Vector.replicate n 0) = 0 :=
      sum_eq_zero fun j _ => by rw [get_replicate, mul_zero]
    have hcost : 0 ≤ lp.cost y := sum_nonneg fun j _ => mul_nonneg (hnonneg j) (hy.nonneg j)
    have hsize : 0 ≤ ∑ j, y.get j + ∑ i, (lp.constraints.get i).gap y :=
      add_nonneg (sum_nonneg fun j _ => hy.nonneg j) (sum_nonneg fun i _ => abs_nonneg _)
    rw [hzero]
    exact add_nonneg hcost (mul_nonneg htol hsize)
  · obtain ⟨⟨hreached, hpriced⟩, hend⟩ :=
      run_spec htol hrun (reached_of_feasible htol hfeasible).phaseTwo
    have hle := hpriced.form_basicPoint_le hreached.solved hend
      (hreached.solves_iff.mpr (solves_withSlack hy)) (withSlack_nonneg hy.nonneg)
      (fun j hj => withSlack_of_le y hj)
    rw [form_ownCost, form_ownCost, sum_withSlack] at hle
    simp only [← get_point hreached.solved, withSlack_unknown] at hle
    exact hle

end LinearProgram

end MarkovDecision
