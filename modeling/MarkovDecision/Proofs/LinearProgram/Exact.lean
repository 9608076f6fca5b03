import MarkovDecision.Proofs.LinearProgram.Simplex

/-!
# Without a tolerance the search is exact

A tolerance of zero makes the ratio test pick a row with the smallest ratio
(`Tableau.rank_le_of_leaving`), and a pivot on such a row keeps the right-hand sides
from becoming negative (`Tableau.Admissible.pivot`). So every tableau of the search
stands for a point without negative coordinates, and what is left to see is that the
artificial coordinates of the last one vanish.

They do at the end of the first phase, whose cost is their sum. A row that is still
solved for an artificial column then has the value zero; driving the column out
changes no value, and where that is impossible the row has no entry in any other
column and takes no part in the second phase (`LinearProgram.Idle`). Hence the point
that is returned is feasible, and it is the answer, for it costs no more than any
other (`LinearProgram.optimal_of_solveWithin`).
-/

namespace MarkovDecision

open Finset

namespace Tableau

variable {m c : ℕ} {t : Tableau ℚ m c} {i : Fin m} {j : Fin c}

/-! ### The ratio test -/

theorem entering_spec {tol : ℚ} {limit : ℕ} (h : t.entering tol limit = some j) :
    j.val < limit ∧ t.cost.coeffs.get j < -tol := by
  have hj := List.find?_some h
  rwa [Bool.and_eq_true, decide_eq_true_eq, decide_eq_true_eq] at hj

/-- How far a column may grow before a row bounds it. -/
def ratio (t : Tableau ℚ m c) (j : Fin c) (r : Fin m) : ℚ := (t.rows.get r).rhs / t.entry r j

/-- The rank of a row in the ratio test: the ratios are compared first, and then the basic
columns. -/
def rank (t : Tableau ℚ m c) (j : Fin c) (r : Fin m) : ℚ ×ₗ Fin c :=
  toLex (t.ratio j r, t.basis.get r)

/-- **Of two rows the one of lower rank is closer.** -/
theorem closer_some (t : Tableau ℚ m c) (j : Fin c) (b : Fin m) (hpos : 0 < t.entry i j) :
    t.closer 0 j (some (b, t.ratio j b)) i =
      if t.rank j i < t.rank j b then some (i, t.ratio j i) else some (b, t.ratio j b) := by
  have heq : t.closer 0 j (some (b, t.ratio j b)) i =
      if t.ratio j i < t.ratio j b - 0 ∨
        (t.ratio j i ≤ t.ratio j b + 0 ∧ t.basis.get i < t.basis.get b)
      then some (i, t.ratio j i) else some (b, t.ratio j b) := if_pos hpos
  have hrank : t.rank j i < t.rank j b ↔ t.ratio j i < t.ratio j b ∨
      (t.ratio j i ≤ t.ratio j b ∧ t.basis.get i < t.basis.get b) := by
    rw [rank, rank, Prod.Lex.toLex_lt_toLex]
    refine ⟨Or.imp_right (And.imp_left Eq.le), ?_⟩
    rintro (hlt | ⟨hle, hbasis⟩)
    · exact .inl hlt
    · exact hle.lt_or_eq.imp_right fun h => ⟨h, hbasis⟩
  rw [heq, sub_zero, add_zero]
  exact if_congr hrank.symm rfl rfl

/-- One row of the ratio test: the best row keeps its ratio, it only gets better, and the row at
hand is not better than it. -/
theorem closer_spec (t : Tableau ℚ m c) (j : Fin c) {best : Option (Fin m × ℚ)} (i : Fin m)
    (hbest : ∀ b ∈ best, b.2 = t.ratio j b.1) :
    (∀ b ∈ t.closer 0 j best i, b.2 = t.ratio j b.1) ∧
      (∀ q, (∃ b ∈ best, t.rank j b.1 ≤ q) → ∃ b ∈ t.closer 0 j best i, t.rank j b.1 ≤ q) ∧
      (0 < t.entry i j → ∃ b ∈ t.closer 0 j best i, t.rank j b.1 ≤ t.rank j i) := by
  by_cases hpos : 0 < t.entry i j
  · rcases best with _ | ⟨b, least⟩
    · have heq : t.closer 0 j none i = some (i, t.ratio j i) := if_pos hpos
      rw [heq]
      refine ⟨fun b hb => ?_, fun q hq => ?_, fun _ => ⟨_, rfl, le_rfl⟩⟩
      · obtain rfl := Option.mem_some_iff.mp hb
        rfl
      · obtain ⟨b, hb, -⟩ := hq
        cases hb
    · obtain rfl : least = t.ratio j b := hbest _ rfl
      rw [closer_some t j b hpos]
      split_ifs with hcloser
      · refine ⟨fun b' hb' => ?_, fun q hq => ⟨_, rfl, ?_⟩, fun _ => ⟨_, rfl, le_rfl⟩⟩
        · obtain rfl := Option.mem_some_iff.mp hb'
          rfl
        · obtain ⟨b', hb', hq⟩ := hq
          obtain rfl := Option.mem_some_iff.mp hb'
          exact hcloser.le.trans hq
      · exact ⟨hbest, fun q hq => hq, fun _ => ⟨_, rfl, not_lt.mp hcloser⟩⟩
  · have heq : t.closer 0 j best i = best := if_neg hpos
    rw [heq]
    exact ⟨hbest, fun q hq => hq, fun h => absurd h hpos⟩

/-- All rows of a list, by the same three facts. -/
theorem foldl_closer_spec (t : Tableau ℚ m c) (j : Fin c) (l : List (Fin m))
    (best : Option (Fin m × ℚ)) (hbest : ∀ b ∈ best, b.2 = t.ratio j b.1) :
    (∀ b ∈ l.foldl (t.closer 0 j) best, b.2 = t.ratio j b.1) ∧
      (∀ q, (∃ b ∈ best, t.rank j b.1 ≤ q) →
        ∃ b ∈ l.foldl (t.closer 0 j) best, t.rank j b.1 ≤ q) ∧
      ∀ r ∈ l, 0 < t.entry r j →
        ∃ b ∈ l.foldl (t.closer 0 j) best, t.rank j b.1 ≤ t.rank j r := by
  induction l generalizing best with
  | nil => exact ⟨hbest, fun q hq => hq, fun r hr => absurd hr List.not_mem_nil⟩
  | cons i l ih =>
    obtain ⟨hratio, hbetter, hat⟩ := t.closer_spec j i hbest
    obtain ⟨hratios, hbetters, hrows⟩ := ih _ hratio
    refine ⟨hratios, fun q hq => hbetters q (hbetter q hq), fun r hr hpos => ?_⟩
    rcases List.mem_cons.mp hr with rfl | hr
    · exact hbetters _ (hat hpos)
    · exact hrows r hr hpos

/-- **The row that leaves has the lowest rank**: it bounds the step first, and among the rows that
bound it as soon its basic column comes first. -/
theorem rank_le_of_leaving (h : t.leaving 0 j = some i) {r : Fin m} (hr : 0 < t.entry r j) :
    t.rank j i ≤ t.rank j r := by
  obtain ⟨b, hb, rfl⟩ := Option.map_eq_some_iff.mp h
  obtain ⟨-, -, hrows⟩ := t.foldl_closer_spec j (List.finRange m) none
    (fun b hb => nomatch hb)
  obtain ⟨b', hb', hle⟩ := hrows r (List.mem_finRange r) hr
  rw [hb] at hb'
  obtain rfl := Option.mem_some_iff.mp hb'
  exact hle

/-- The row that leaves bounds the step first. -/
theorem ratio_le_of_leaving (h : t.leaving 0 j = some i) {r : Fin m} (hr : 0 < t.entry r j) :
    t.ratio j i ≤ t.ratio j r :=
  (Prod.Lex.toLex_le_toLex'.mp (rank_le_of_leaving h hr)).1

/-! ### Values that are not negative -/

/-- No right-hand side is negative. -/
def Admissible (t : Tableau ℚ m c) : Prop := ∀ r, 0 ≤ (t.rows.get r).rhs

theorem rhs_pivot (t : Tableau ℚ m c) (i : Fin m) (j : Fin c) (r : Fin m) :
    ((t.pivot i j).rows.get r).rhs =
      if r = i then t.ratio j i else (t.rows.get r).rhs - t.entry r j * t.ratio j i := by
  rw [get_rows_pivot]
  split_ifs <;> rfl

/-- **A pivot on the row that leaves keeps the values from becoming negative.** -/
theorem Admissible.pivot (ht : t.Admissible) (h : t.leaving 0 j = some i) :
    (t.pivot i j).Admissible := by
  have hpos : 0 < t.entry i j := lt_entry_of_leaving h
  have hratio : 0 ≤ t.ratio j i := div_nonneg (ht i) hpos.le
  intro r
  rw [rhs_pivot]
  split_ifs
  · exact hratio
  · rcases le_or_gt (t.entry r j) 0 with hr | hr
    · exact sub_nonneg.mpr ((mul_nonpos_of_nonpos_of_nonneg hr hratio).trans (ht r))
    · -- the row would have bounded the step earlier otherwise
      have hle := ratio_le_of_leaving h hr
      rw [show t.ratio j r = (t.rows.get r).rhs / t.entry r j from rfl, le_div_iff₀ hr] at hle
      rw [mul_comm]
      exact sub_nonneg.mpr hle

theorem Admissible.basicPoint_nonneg (ht : t.Admissible) (j : Fin c) : 0 ≤ t.basicPoint.get j := by
  rw [basicPoint, get_ofFn]
  refine sum_nonneg fun i _ => ?_
  split_ifs
  · exact ht i
  · exact le_rfl

/-- A pivot on a row of value zero changes no value. -/
theorem rhs_pivot_of_eq_zero (hi : (t.rows.get i).rhs = 0) (r : Fin m) :
    ((t.pivot i j).rows.get r).rhs = (t.rows.get r).rhs := by
  have hratio : t.ratio j i = 0 := by rw [ratio, hi, zero_div]
  rw [rhs_pivot, hratio, mul_zero, sub_zero]
  split_ifs with hr
  · rw [hr, hi]
  · rfl

end Tableau

namespace LinearProgram

variable {n m : ℕ} {lp : LinearProgram ℚ n m} {t : Tableau ℚ m (n + m + m)} {i : Fin m}
  {j : Fin (n + m + m)}

theorem rhs_row_nonneg (lp : LinearProgram ℚ n m) (i : Fin m) : 0 ≤ (lp.row i).rhs := by
  rw [row, Constraint.rhs_upright]
  split_ifs with hneg
  · exact neg_nonneg.mpr hneg.le
  · exact not_lt.mp hneg

theorem admissible_initial (lp : LinearProgram ℚ n m) : lp.initial.Admissible := by
  intro i
  rw [initial, get_ofFn]
  exact lp.rhs_row_nonneg i

/-! ### The artificial columns -/

/-- Every column from `n + m` on is artificial. -/
theorem exists_eq_artificial (hj : n + m ≤ j.val) : ∃ i : Fin m, j = artificial i :=
  ⟨⟨j - (n + m), by omega⟩, Fin.ext (by simp only [artificial]; omega)⟩

/-- **No row is solved for an artificial column that is not in use**: such a column is zero in
every row. -/
theorem Reached.sense_of_basis (h : lp.Reached t) {k : Fin m}
    (hk : t.basis.get k = artificial i) : (lp.row i).sense = .ge := by
  by_contra hsense
  have hle : (lp.row i).sense = .le := by
    cases hs : (lp.row i).sense with
    | le => rfl
    | ge => exact absurd hs hsense
  -- the column vanishes in the first rows, so in all that follows from them
  have hspan : lp.initial.span ≤
      LinearMap.ker (LinearMap.proj (R := ℚ) (φ := fun _ => ℚ) (some (artificial i))) := by
    refine Submodule.span_le.mpr ?_
    rintro _ ⟨r, rfl⟩
    have hzero : lp.initial.entry r (artificial i) = 0 := by
      rw [entry_initial, equation_artificial]
      split_ifs with hr
      · rw [hr, hle, Sense.artificialSign]
      · rfl
    exact hzero
  have hzero : t.entry k (artificial i) = 0 := hspan (h.span_eq ▸ t.vector_mem_span k)
  have hone := h.solved k k
  rw [hk, hzero, if_pos rfl] at hone
  exact zero_ne_one hone

/-- The rows solved for an artificial column have the value zero. -/
def Settled (t : Tableau ℚ m (n + m + m)) : Prop :=
  ∀ k, n + m ≤ (t.basis.get k).val → (t.rows.get k).rhs = 0

/-- A row that is solved for a column that is not artificial, or has no entry in any such. -/
def Idle (t : Tableau ℚ m (n + m + m)) (k : Fin m) : Prop :=
  (t.basis.get k).val < n + m ∨ ∀ j : Fin (n + m + m), j.val < n + m → t.entry k j = 0

/-- An artificial coordinate of a settled tableau vanishes. -/
theorem Settled.basicPoint_artificial (h : Settled t) (i : Fin m) :
    t.basicPoint.get (artificial i) = 0 := by
  rw [Tableau.basicPoint, get_ofFn]
  refine sum_eq_zero fun k _ => ?_
  split_ifs with hk
  · refine h k ?_
    rw [hk]
    exact Nat.le_add_right (n + m) i
  · rfl

/-- The unknowns of a point in all columns. -/
def unknowns (z : Vector ℚ (n + m + m)) : Vector ℚ n := Vector.ofFn fun j => z.get (unknown j)

/-- **A solution of the first tableau without negative and without artificial coordinates is
feasible**: what its slack leaves of a constraint has the right sign. -/
theorem feasible_unknowns {z : Vector ℚ (n + m + m)} (hsolves : lp.initial.Solves z)
    (hnonneg : ∀ j, 0 ≤ z.get j) (hartificial : ∀ i : Fin m, z.get (artificial i) = 0) :
    lp.Feasible (unknowns z) where
  nonneg j := by
    rw [unknowns, get_ofFn]
    exact hnonneg _
  holds i := by
    refine Constraint.holds_upright_iff.mp ?_
    have hslack := hnonneg (slack i)
    have hform : (lp.row i).form (unknowns z) + (lp.row i).sense.slackSign * z.get (slack i)
        = (lp.row i).rhs := by
      have hholds := hsolves i
      rw [initial, get_ofFn, Equation.Holds, form_equation, hartificial, mul_zero,
        add_zero] at hholds
      rw [Constraint.form]
      simp only [unknowns, get_ofFn]
      exact hholds
    show (lp.row i).sense.Rel ((lp.row i).form (unknowns z)) (lp.row i).rhs
    cases hsense : (lp.row i).sense with
    | le =>
      rw [hsense, Sense.slackSign, one_mul] at hform
      exact le_of_add_le_of_nonneg_left hform.le hslack
    | ge =>
      rw [hsense, Sense.slackSign] at hform
      show (lp.row i).rhs ≤ (lp.row i).form (unknowns z)
      linarith

/-- **The point of an admissible and settled tableau is feasible.** -/
theorem feasible_point (h : lp.Reached t) (hadmissible : t.Admissible) (hsettled : Settled t) :
    lp.Feasible (point t) := by
  have hpoint : point t = unknowns t.basicPoint := by
    refine ext_get fun j => ?_
    rw [get_point h.solved, unknowns, get_ofFn]
  rw [hpoint]
  exact feasible_unknowns (h.solves_iff.mp h.solved.solves_basicPoint)
    hadmissible.basicPoint_nonneg hsettled.basicPoint_artificial

/-! ### The phases -/

theorem Idle.pivot {k : Fin m} (h : Idle t k) (hj : j.val < n + m) : Idle (t.pivot i j) k := by
  rw [Idle, Tableau.get_basis_pivot]
  by_cases hik : i = k
  · rw [if_pos hik]
    exact Or.inl hj
  · rw [if_neg hik]
    refine h.imp_right fun hrow j' hj' => ?_
    rw [Tableau.entry_pivot, if_neg (Ne.symm hik), hrow j' hj', hrow j hj, zero_mul, sub_zero]

/-- **Driving out an artificial column of value zero** changes no value, and leaves its row
idle. -/
theorem driveOut_spec (h : lp.Reached t) (hadmissible : t.Admissible) (hsettled : Settled t)
    (i : Fin m) :
    (lp.Reached (driveOut 0 t i) ∧ (driveOut 0 t i).Admissible ∧ Settled (driveOut 0 t i)) ∧
      Idle (driveOut 0 t i) i ∧ ∀ k, Idle t k → Idle (driveOut 0 t i) k := by
  have hreached : lp.Reached (driveOut 0 t i) := h.driveOut le_rfl i
  rw [driveOut] at hreached ⊢
  split_ifs at hreached ⊢ with hbasis
  · exact ⟨⟨hreached, hadmissible, hsettled⟩, Or.inl hbasis, fun _ hk => hk⟩
  split at hreached <;> rename_i hfind
  · refine ⟨⟨hreached, hadmissible, hsettled⟩, Or.inr fun j hj => ?_, fun _ hk => hk⟩
    have hj' := List.find?_eq_none.mp hfind j (List.mem_finRange j)
    rw [Bool.and_eq_true, decide_eq_true_eq, decide_eq_true_eq,
      LinearSystem.magnitude_eq_abs] at hj'
    exact abs_nonpos_iff.mp (not_lt.mp fun hpos => hj' ⟨hj, hpos⟩)
  · -- the row has the value zero, so the pivot moves no value
    rename_i j
    have hj := (Bool.and_eq_true _ _ ▸ List.find?_some hfind).1
    rw [decide_eq_true_eq] at hj
    have hvalue : ∀ r, ((t.pivot i j).rows.get r).rhs = (t.rows.get r).rhs :=
      Tableau.rhs_pivot_of_eq_zero (hsettled i (not_lt.mp hbasis))
    refine ⟨⟨hreached, fun r => ?_, fun k hk => ?_⟩, Or.inl ?_, fun k hk => hk.pivot hj⟩
    · rw [hvalue]
      exact hadmissible r
    · rw [Tableau.get_basis_pivot] at hk
      split_ifs at hk
      · omega
      · rw [hvalue]
        exact hsettled k hk
    · rw [Tableau.get_basis_pivot, if_pos rfl]
      exact hj

/-- Driving out the artificial columns row by row leaves all these rows idle. -/
theorem foldl_driveOut_spec (l : List (Fin m)) (h : lp.Reached t) (hadmissible : t.Admissible)
    (hsettled : Settled t) :
    ((l.foldl (driveOut 0) t).Admissible ∧ Settled (l.foldl (driveOut 0) t)) ∧
      (∀ k ∈ l, Idle (l.foldl (driveOut 0) t) k) ∧
      ∀ k, Idle t k → Idle (l.foldl (driveOut 0) t) k := by
  induction l generalizing t with
  | nil => exact ⟨⟨hadmissible, hsettled⟩, fun k hk => absurd hk List.not_mem_nil, fun _ hk => hk⟩
  | cons i l ih =>
    obtain ⟨⟨hreached, hadmissible', hsettled'⟩, hidle, hkeep⟩ :=
      driveOut_spec h hadmissible hsettled i
    obtain ⟨hfacts, hall, hkeeps⟩ := ih hreached hadmissible' hsettled'
    refine ⟨hfacts, fun k hk => ?_, fun k hk => hkeeps k (hkeep k hk)⟩
    rcases List.mem_cons.mp hk with rfl | hk
    · exact hkeeps k hidle
    · exact hall k hk

/-- **Without a residue the artificial coordinates vanish**, their sum being the cost. -/
theorem settled_of_residue (h : lp.Reached t) (hpriced : t.Priced lp.artificialCost)
    (hadmissible : t.Admissible) (hresidue : -t.cost.rhs ≤ 0) : Settled t := by
  have hform := hpriced.form_sub h.solved.solves_basicPoint
  rw [hpriced.form_basicPoint, zero_sub, show lp.artificialCost.rhs = 0 from rfl, sub_zero,
    Equation.form, Tableau.sum_mul_basicPoint] at hform
  have hterm : ∀ k ∈ univ,
      0 ≤ lp.artificialCost.coeffs.get (t.basis.get k) * (t.rows.get k).rhs := by
    intro k _
    refine mul_nonneg ?_ (hadmissible k)
    rw [artificialCost, get_ofFn]
    split_ifs
    · exact zero_le_one
    · exact le_rfl
  have hzero := (sum_eq_zero_iff_of_nonneg hterm).mp
    (le_antisymm (hform ▸ hresidue) (sum_nonneg hterm))
  intro k hk
  obtain ⟨i, hi⟩ := exists_eq_artificial hk
  have hk0 := hzero k (mem_univ k)
  rw [hi, artificialCost_artificial (h.sense_of_basis hi), one_mul] at hk0
  exact hk0

/-- **What the second phase keeps** if nothing is tolerated. -/
structure Exact (lp : LinearProgram ℚ n m) (t : Tableau ℚ m (n + m + m)) : Prop where
  /-- It is a tableau of the program. -/
  reached : lp.Reached t
  /-- No value is negative. -/
  admissible : t.Admissible
  /-- An artificial coordinate has the value zero. -/
  settled : Settled t
  /-- And its row takes no part. -/
  idle : ∀ k, Idle t k

/-- What the search of the first phase keeps if nothing is tolerated. -/
theorem pivot_phaseOne {i : Fin m} {j : Fin (n + m + m)} (hleave : t.leaving 0 j = some i)
    (h : (lp.Reached t ∧ t.Priced lp.artificialCost) ∧ t.Admissible) :
    (lp.Reached (t.pivot i j) ∧ (t.pivot i j).Priced lp.artificialCost) ∧
      (t.pivot i j).Admissible :=
  ⟨pivot_spec le_rfl hleave h.1, h.2.pivot hleave⟩

theorem admissible_phaseOne (lp : LinearProgram ℚ n m) : lp.phaseOne.Admissible := by
  rw [Tableau.Admissible, lp.phaseOne_spec.1]
  exact lp.admissible_initial

/-- **The first phase ends there.** -/
theorem exact_of_feasible {most : ℕ} (h : lp.feasible ⟨0, 0⟩ most = .ok t) : lp.Exact t := by
  rcases exists_of_feasible h with ⟨hneeds, rfl⟩ | ⟨last, hrun, hresidue, rfl⟩
  · have hslack : ∀ k, (lp.initial.basis.get k).val < n + m := by
      intro k
      have hle : (lp.row k).sense = .le := by
        cases hs : (lp.row k).sense with
        | le => rfl
        | ge =>
          have hany := List.any_eq_false.mp hneeds k (List.mem_finRange k)
          exact absurd (decide_eq_true hs) hany
      rw [initial, get_ofFn, start, hle]
      simp only [slack]
      omega
    exact ⟨lp.reached_initial, lp.admissible_initial,
      fun k hk => absurd (hslack k) (not_lt.mpr hk), fun k => Or.inl (hslack k)⟩
  · obtain ⟨⟨⟨hreached, hpriced⟩, hadmissible⟩, -⟩ := Tableau.run_induction
      (fun _ _ _ ht _ hleave => pivot_phaseOne hleave ht) hrun
      ⟨lp.reached_phaseOne, lp.admissible_phaseOne⟩
    obtain ⟨⟨hadmissible', hsettled⟩, hidle, -⟩ :=
      foldl_driveOut_spec (List.finRange m) hreached hadmissible
        (settled_of_residue hreached hpriced hadmissible hresidue)
    exact ⟨hreached.foldl_driveOut le_rfl _, hadmissible', hsettled,
      fun k => hidle k (List.mem_finRange k)⟩

/-- Changing the cost does not matter. -/
theorem Exact.congr {u : Tableau ℚ m (n + m + m)} (h : lp.Exact t) (hrows : u.rows = t.rows)
    (hbasis : u.basis = t.basis) : lp.Exact u where
  reached := h.reached.congr hrows hbasis
  admissible := by
    rw [Tableau.Admissible, hrows]
    exact h.admissible
  settled := by
    rw [Settled, hrows, hbasis]
    exact h.settled
  idle k := by
    rw [Idle, hbasis]
    simp only [Tableau.entry, hrows]
    exact h.idle k

/-- **A pivot of the second phase** does not touch the rows solved for an artificial column. -/
theorem Exact.pivot (h : lp.Exact t) (hj : j.val < n + m) (hleave : t.leaving 0 j = some i) :
    lp.Exact (t.pivot i j) where
  reached := h.reached.pivot (Tableau.lt_entry_of_leaving hleave).ne'
  admissible := h.admissible.pivot hleave
  settled k hk := by
    rw [Tableau.get_basis_pivot] at hk
    split_ifs at hk with hik
    · omega
    · rcases h.idle k with hbasis | hrow
      · omega
      · rw [Tableau.rhs_pivot, if_neg (Ne.symm hik), hrow j hj, zero_mul, sub_zero]
        exact h.settled k hk
  idle k := (h.idle k).pivot hj

/-- **Without a tolerance, what is returned is feasible.** -/
theorem feasible_of_solveWithin {most : ℕ} {x : Vector ℚ n}
    (h : lp.solveWithin ⟨0, 0⟩ most = .ok x) : lp.Feasible x := by
  rcases exists_of_solveWithin h with ⟨rfl, -, rfl⟩ | ⟨t, last, hfeasible, hrun, rfl⟩
  · exact ⟨fun j => (get_replicate 0 j).ge, fun i => i.elim0⟩
  · have hexact : lp.Exact t := exact_of_feasible hfeasible
    obtain ⟨hrows, hbasis, -⟩ := phaseTwo_spec hexact.reached
    have hstep : ∀ (t : Tableau ℚ m (n + m + m)) i j, lp.Exact t →
        t.entering 0 (n + m) = some j → t.leaving 0 j = some i → lp.Exact (t.pivot i j) := by
      intro t i j ht henter hleave
      exact ht.pivot (Tableau.entering_spec henter).1 hleave
    obtain ⟨hlast, -⟩ := Tableau.run_induction hstep hrun (hexact.congr hrows hbasis)
    exact feasible_point hlast.reached hlast.admissible hlast.settled

/-- **Without a tolerance, what is returned is the answer.** -/
theorem optimal_of_solveWithin {most : ℕ} {x : Vector ℚ n}
    (h : lp.solveWithin ⟨0, 0⟩ most = .ok x) : lp.Optimal x where
  feasible := feasible_of_solveWithin h
  cost_le y hy := by
    have hle := cost_le_of_solveWithin le_rfl h hy
    rwa [zero_mul, add_zero] at hle

end LinearProgram

end MarkovDecision
