import MarkovDecision.Proofs.LinearProgram.Termination

/-!
# Every outcome of the search is right

`MarkovDecision.Proofs.LinearProgram.Exact` shows that a point returned without a
tolerance is the answer. Here the other outcomes get their meaning, and with that the
search decides the program (`LinearProgram.solveWithin_decides`): up to the limit on its
pivots, and since it comes to an end (`LinearProgram.exists_solveWithin`), for good if the
limit is large.

A column that improves the cost and that no row bounds can be raised for ever. What
the tableau stands for then is not a point but a ray of points
(`Tableau.along`): all of them solve the rows, none has a negative coordinate, and
the cost falls without end (`Tableau.Priced.exists_along_lt`). The one difficulty is
that the search reports such a column in either phase, and only the second may do so.
In the first phase it cannot happen, because the cost there is a sum of coordinates
(`LinearProgram.phaseOne_bounded`). In the second the ray has to stay clear of the
artificial columns, and it does, since the rows solved for one of these are idle.

A residue after the first phase means that the sum of the artificial coordinates is
positive at its least, while a feasible point makes it vanish.
-/

namespace MarkovDecision

open Finset

namespace Tableau

variable {m c : ℕ} {t : Tableau ℚ m c} {i : Fin m} {j : Fin c} {base : Equation ℚ c} {q : ℚ}

/-! ### How a search fails -/

/-- **What a pivot of the search keeps holds where it fails**: it came upon a column that improves
the cost and that no row bounds, or it made as many pivots as it may. -/
theorem run_failure {tol : ℚ} {limit most : ℕ} {P : Tableau ℚ m c → Prop}
    (hstep : ∀ t i j, P t → t.entering tol limit = some j → t.leaving tol j = some i →
      P (t.pivot i j))
    {e : LinearProgram.Failure} (hrun : t.run tol limit most = .error e) (ht : P t) :
    (e = .unbounded ∧ ∃ last j, P last ∧ last.entering tol limit = some j ∧
        last.leaving tol j = none) ∨
      ∃ pivots, e = .pivotLimit pivots ∧ most ≤ pivots := by
  fun_induction run tol limit most t with
  | case1 t hnone => cases hrun
  | case2 t j henter hnone =>
    obtain rfl := Except.error.inj hrun
    exact Or.inl ⟨rfl, t, j, ht, henter, hnone⟩
  | case3 t j henter i hleave next hmost =>
    obtain rfl := Except.error.inj hrun
    exact Or.inr ⟨_, rfl, hmost⟩
  | case4 t j henter i hleave next hmost ih =>
    exact ih hrun (hstep t i j ht henter hleave)

/-- Where no row leaves, no row has a positive entry in the column. -/
theorem entry_nonpos_of_leaving (h : t.leaving 0 j = none) (r : Fin m) : t.entry r j ≤ 0 := by
  by_contra hpos
  obtain ⟨-, -, hrows⟩ := t.foldl_closer_spec j (List.finRange m) none (fun b hb => nomatch hb)
  obtain ⟨b, hb, -⟩ := hrows r (List.mem_finRange r) (not_le.mp hpos)
  rw [Option.map_eq_none_iff.mp h] at hb
  cases hb

/-! ### The ray -/

/-- The point a tableau stands for once column `j` has been raised to `q`, the basic columns
making up for it. -/
def along (t : Tableau ℚ m c) (j : Fin c) (q : ℚ) : Vector ℚ c :=
  Vector.ofFn fun k => (if j = k then q else 0)
    + ∑ i, if t.basis.get i = k then (t.rows.get i).rhs - q * t.entry i j else 0

theorem sum_mul_along (t : Tableau ℚ m c) (j : Fin c) (q : ℚ) (w : Fin c → ℚ) :
    ∑ k, w k * (t.along j q).get k
      = w j * q + ∑ i, w (t.basis.get i) * ((t.rows.get i).rhs - q * t.entry i j) := by
  simp only [along, get_ofFn, mul_add, mul_sum, mul_ite, mul_zero, sum_add_distrib]
  rw [sum_comm, sum_ite_eq, if_pos (mem_univ j)]
  congr 1
  refine sum_congr rfl fun i _ => ?_
  rw [sum_ite_eq, if_pos (mem_univ _)]

theorem Solved.solves_along (ht : t.Solved) (j : Fin c) (q : ℚ) : t.Solves (t.along j q) := by
  intro r
  have hterm : ∀ i, (t.rows.get r).coeffs.get (t.basis.get i)
        * ((t.rows.get i).rhs - q * t.entry i j)
      = if r = i then (t.rows.get i).rhs - q * t.entry i j else 0 := by
    intro i
    rw [show (t.rows.get r).coeffs.get (t.basis.get i) = _ from ht i r, ite_mul, one_mul, zero_mul]
  rw [Equation.Holds, Equation.form, sum_mul_along, sum_congr rfl fun i _ => hterm i, sum_ite_eq,
    if_pos (mem_univ r), show (t.rows.get r).coeffs.get j = t.entry r j from rfl]
  ring

/-- **The cost falls at the rate of its column.** -/
theorem Priced.form_along (hp : t.Priced base) (ht : t.Solved) (j : Fin c) (q : ℚ) :
    base.form (t.along j q) = base.form t.basicPoint + q * t.cost.coeffs.get j := by
  have hray : t.cost.form (t.along j q) = q * t.cost.coeffs.get j := by
    rw [Equation.form, sum_mul_along, sum_eq_zero fun i _ => by rw [hp.basic i, zero_mul],
      add_zero, mul_comm]
  have hpoint := hp.form_sub ht.solves_basicPoint
  have halong := hp.form_sub (ht.solves_along j q)
  rw [hp.form_basicPoint] at hpoint
  rw [hray] at halong
  linarith

/-- A column that no row bounds can be raised without making a coordinate negative. -/
theorem Admissible.along_nonneg (ht : t.Admissible) (hcolumn : ∀ r, t.entry r j ≤ 0) (hq : 0 ≤ q)
    (k : Fin c) : 0 ≤ (t.along j q).get k := by
  rw [along, get_ofFn]
  refine add_nonneg ?_ (sum_nonneg fun i _ => ?_)
  · split_ifs
    · exact hq
    · exact le_rfl
  · split_ifs
    · exact sub_nonneg.mpr ((mul_nonpos_of_nonneg_of_nonpos hq (hcolumn i)).trans (ht i))
    · exact le_rfl

/-- **Far enough along the ray the cost is below any bound.** -/
theorem Priced.exists_along_lt (hp : t.Priced base) (ht : t.Solved)
    (hj : t.cost.coeffs.get j < 0) (bound : ℚ) :
    ∃ q, 0 ≤ q ∧ base.form (t.along j q) < bound := by
  obtain ⟨q, hq⟩ := exists_gt (max 0 ((bound - base.form t.basicPoint) / t.cost.coeffs.get j))
  obtain ⟨hq0, hqbound⟩ := max_lt_iff.mp hq
  refine ⟨q, hq0.le, ?_⟩
  rw [div_lt_iff_of_neg hj] at hqbound
  rw [hp.form_along ht]
  linarith

end Tableau

namespace LinearProgram

variable {n m : ℕ} {lp : LinearProgram ℚ n m} {t : Tableau ℚ m (n + m + m)}

/-! ### The first phase -/

/-- The cost of the first phase is not negative where no coordinate is. -/
theorem artificialCost_nonneg {z : Vector ℚ (n + m + m)} (hz : ∀ j, 0 ≤ z.get j) :
    0 ≤ lp.artificialCost.form z := by
  refine sum_nonneg fun j _ => mul_nonneg ?_ (hz j)
  rw [artificialCost, get_ofFn]
  split_ifs
  · exact zero_le_one
  · exact le_rfl

/-- It vanishes at a feasible point. -/
theorem artificialCost_withSlack (y : Vector ℚ n) :
    lp.artificialCost.form (lp.withSlack y) = 0 := by
  refine sum_eq_zero fun j _ => ?_
  rcases lt_or_ge j.val (n + m) with hj | hj
  · have hne : ∀ i : Fin m, j ≠ artificial i := by
      rintro i rfl
      simp only [artificial] at hj
      omega
    rw [artificialCost, get_ofFn, if_neg (by simp [hne]), zero_mul]
  · rw [withSlack_of_le y hj, mul_zero]

/-- **The first phase never comes upon a column that nothing bounds.** -/
theorem phaseOne_bounded (h : lp.Reached t) (hpriced : t.Priced lp.artificialCost)
    (hadmissible : t.Admissible) {limit : ℕ} {j : Fin (n + m + m)}
    (henter : t.entering 0 limit = some j) : t.leaving 0 j ≠ none := by
  intro hleave
  have hneg : t.cost.coeffs.get j < 0 := neg_zero (G := ℚ) ▸ (Tableau.entering_spec henter).2
  obtain ⟨q, hq, hlt⟩ := hpriced.exists_along_lt h.solved hneg 0
  exact absurd hlt (not_lt.mpr (artificialCost_nonneg
    (hadmissible.along_nonneg (Tableau.entry_nonpos_of_leaving hleave) hq)))

/-- A feasible point leaves no residue. -/
theorem residue_nonpos (h : lp.Reached t) (hpriced : t.Priced lp.artificialCost)
    (hend : t.entering 0 (n + m + m) = none) {y : Vector ℚ n} (hy : lp.Feasible y) :
    -t.cost.rhs ≤ 0 := by
  have hle := hpriced.form_basicPoint_le h.solved hend (h.solves_iff.mpr (solves_withSlack hy))
    (withSlack_nonneg hy.nonneg) (fun j hj => absurd j.isLt (not_lt.mpr hj))
  rw [artificialCost_withSlack, zero_mul, add_zero] at hle
  have hform := hpriced.form_sub h.solved.solves_basicPoint
  rw [hpriced.form_basicPoint, zero_sub, show lp.artificialCost.rhs = 0 from rfl, sub_zero] at hform
  rw [hform]
  exact hle

/-- **How the first phase fails**: there is no feasible point, or its search ran out of pivots. -/
theorem feasible_failure {most : ℕ} {e : Failure} (h : lp.feasible ⟨0, 0⟩ most = .error e) :
    (e = .infeasible ∧ ∀ y, ¬lp.Feasible y) ∨ ∃ pivots, e = .pivotLimit pivots ∧ most ≤ pivots := by
  rw [feasible] at h
  split_ifs at h
  · have hstart := And.intro lp.reached_phaseOne lp.admissible_phaseOne
    rcases hrun : lp.phaseOne.run 0 (n + m + m) most with e' | last
    · rw [hrun] at h
      obtain rfl : e' = e := Except.error.inj h
      rcases Tableau.run_failure (fun _ _ _ ht _ hleave => pivot_phaseOne hleave ht) hrun hstart
        with ⟨-, t, j, ht, henter, hleave⟩ | hlimit
      · exact absurd hleave (phaseOne_bounded ht.1.1 ht.1.2 ht.2 henter)
      · exact Or.inr hlimit
    · rw [hrun] at h
      simp only [bind, Except.bind, pure, Except.pure, throw, throwThe, MonadExceptOf.throw] at h
      split_ifs at h with hresidue
      obtain rfl := Except.error.inj h
      obtain ⟨hlast, hend⟩ := Tableau.run_induction
        (fun _ _ _ ht _ hleave => pivot_phaseOne hleave ht) hrun hstart
      refine Or.inl ⟨rfl, fun y hy => ?_⟩
      exact absurd hresidue (not_lt.mpr (residue_nonpos hlast.1.1 hlast.1.2 hend hy))
  · cases h

/-! ### The second phase -/

/-- **The ray of the second phase stays clear of the artificial columns.** -/
theorem Exact.along_artificial (h : lp.Exact t) {j : Fin (n + m + m)} (hj : j.val < n + m) (q : ℚ)
    (i : Fin m) : (t.along j q).get (artificial i) = 0 := by
  have hne : j ≠ artificial i := by
    rintro rfl
    simp only [artificial] at hj
    omega
  rw [Tableau.along, get_ofFn, if_neg hne, zero_add]
  refine sum_eq_zero fun k _ => ?_
  split_ifs with hk
  · have hbasis : n + m ≤ (t.basis.get k).val := by
      rw [hk]
      exact Nat.le_add_right (n + m) i
    have hrow := (h.idle k).resolve_left (not_lt.mpr hbasis)
    rw [h.settled k hbasis, hrow j hj, mul_zero, sub_zero]
  · rfl

/-- **A column of the second phase that nothing bounds** makes the program unbounded. -/
theorem Exact.exists_cost_lt (h : lp.Exact t) (hpriced : t.Priced lp.ownCost)
    {j : Fin (n + m + m)} (henter : t.entering 0 (n + m) = some j) (hleave : t.leaving 0 j = none)
    (bound : ℚ) : ∃ y, lp.Feasible y ∧ lp.cost y < bound := by
  obtain ⟨hj, hneg⟩ := Tableau.entering_spec henter
  obtain ⟨q, hq, hlt⟩ := hpriced.exists_along_lt h.reached.solved (neg_zero (G := ℚ) ▸ hneg) bound
  refine ⟨unknowns (t.along j q), feasible_unknowns ?_ ?_ (h.along_artificial hj q), ?_⟩
  · exact h.reached.solves_iff.mp (h.reached.solved.solves_along j q)
  · exact h.admissible.along_nonneg (Tableau.entry_nonpos_of_leaving hleave) hq
  · rw [form_ownCost] at hlt
    simp only [cost, unknowns, get_ofFn]
    exact hlt

/-- **How the second phase fails**: the program is unbounded, or the search ran out of pivots. -/
theorem phaseTwo_failure {most : ℕ} {e : Failure} (hexact : lp.Exact t)
    (h : (lp.phaseTwo t).run 0 (n + m) most = .error e) :
    (e = .unbounded ∧ ∀ bound, ∃ y, lp.Feasible y ∧ lp.cost y < bound) ∨
      ∃ pivots, e = .pivotLimit pivots ∧ most ≤ pivots := by
  obtain ⟨hrows, hbasis, hpriced⟩ := phaseTwo_spec hexact.reached
  have hstep : ∀ (t : Tableau ℚ m (n + m + m)) i j, lp.Exact t ∧ t.Priced lp.ownCost →
      t.entering 0 (n + m) = some j → t.leaving 0 j = some i →
      lp.Exact (t.pivot i j) ∧ (t.pivot i j).Priced lp.ownCost := by
    intro t i j ht henter hleave
    exact ⟨ht.1.pivot (Tableau.entering_spec henter).1 hleave,
      (pivot_spec le_rfl hleave ⟨ht.1.reached, ht.2⟩).2⟩
  rcases Tableau.run_failure hstep h ⟨hexact.congr hrows hbasis, hpriced⟩ with
    ⟨he, last, j, hlast, henter, hleave⟩ | hlimit
  · exact Or.inl ⟨he, hlast.1.exists_cost_lt hlast.2 henter hleave⟩
  · exact Or.inr hlimit

/-! ### The decision -/

/-- Without constraints a negative cost makes the program unbounded. -/
theorem exists_cost_lt_of_objective (hm : m = 0) {j : Fin n} (hj : lp.objective.get j < 0)
    (bound : ℚ) : ∃ y, lp.Feasible y ∧ lp.cost y < bound := by
  subst hm
  -- the coordinate with the negative cost alone is raised
  obtain ⟨q, hq⟩ := exists_gt (max 0 (bound / lp.objective.get j))
  obtain ⟨hq0, hqbound⟩ := max_lt_iff.mp hq
  refine ⟨Vector.ofFn fun k => if j = k then q else 0, ⟨fun k => ?_, fun i => i.elim0⟩, ?_⟩
  · rw [get_ofFn]
    split_ifs
    · exact hq0.le
    · exact le_rfl
  · rw [div_lt_iff_of_neg hj] at hqbound
    simp only [cost, get_ofFn, mul_ite, mul_zero, sum_ite_eq, mem_univ, if_true]
    linarith

/-- **Where the search fails**: before it begins, in the first phase, or in the second. -/
theorem failure_of_solveWithin {tol : Tolerance ℚ} {most : ℕ} {e : Failure}
    (h : lp.solveWithin tol most = .error e) :
    (m = 0 ∧ e = .unbounded ∧ ∃ j, lp.objective.get j < 0) ∨ lp.feasible tol most = .error e ∨
      ∃ t, lp.feasible tol most = .ok t ∧
        (lp.phaseTwo t).run tol.entry (n + m) most = .error e := by
  rw [solveWithin] at h
  split_ifs at h with hm hneg
  · obtain ⟨k, hk, hcost⟩ := Vector.any_eq_true.mp hneg
    exact Or.inl ⟨hm, (Except.error.inj h).symm, ⟨k, hk⟩, of_decide_eq_true hcost⟩
  · cases h
  · rcases hfeasible : lp.feasible tol most with e' | t
    · rw [hfeasible] at h
      exact Or.inr (Or.inl (congrArg Except.error (Except.error.inj h)))
    rw [hfeasible] at h
    rcases hrun : (lp.phaseTwo t).run tol.entry (n + m) most with e' | last
    · simp only [bind, Except.bind, hrun] at h
      obtain rfl := Except.error.inj h
      exact Or.inr (Or.inr ⟨t, rfl, hrun⟩)
    · simp only [bind, Except.bind, hrun] at h
      cases h

/-- **The search decides the program.** Without a tolerance, and whatever the limit on the pivots:
a point that is returned is feasible and none costs less; a program called infeasible has no
feasible point; one called unbounded has feasible points of any cost, however low; and the only
other outcome is that as many pivots were made as are allowed. That one does not come up beyond
some limit, from which on the outcome is always the same. -/
theorem solveWithin_decides (lp : LinearProgram ℚ n m) :
    (∀ most, match lp.solveWithin ⟨0, 0⟩ most with
      | .ok x => lp.Optimal x
      | .error .infeasible => ∀ y, ¬lp.Feasible y
      | .error .unbounded =>
        (∃ y, lp.Feasible y) ∧ ∀ bound, ∃ y, lp.Feasible y ∧ lp.cost y < bound
      | .error (.pivotLimit pivots) => most ≤ pivots) ∧
    ∃ outcome enough, (∀ pivots, outcome ≠ .error (.pivotLimit pivots)) ∧
      ∀ most, enough ≤ most → lp.solveWithin ⟨0, 0⟩ most = outcome := by
  refine ⟨fun most => ?_, lp.exists_solveWithin⟩
  have hunbounded : (∀ bound, ∃ y, lp.Feasible y ∧ lp.cost y < bound) →
      (∃ y, lp.Feasible y) ∧ ∀ bound, ∃ y, lp.Feasible y ∧ lp.cost y < bound := by
    intro hall
    obtain ⟨y, hy, -⟩ := hall 0
    exact ⟨⟨y, hy⟩, hall⟩
  rcases hsolve : lp.solveWithin ⟨0, 0⟩ most with e | x
  · rcases failure_of_solveWithin hsolve with ⟨hm, rfl, j, hj⟩ | hfirst | ⟨t, hfirst, hsecond⟩
    · exact hunbounded (exists_cost_lt_of_objective hm hj)
    · rcases feasible_failure hfirst with ⟨rfl, hnone⟩ | ⟨pivots, rfl, hmost⟩
      · exact hnone
      · exact hmost
    · rcases phaseTwo_failure (exact_of_feasible hfirst) hsecond with ⟨rfl, hall⟩ |
        ⟨pivots, rfl, hmost⟩
      · exact hunbounded hall
      · exact hmost
  · exact optimal_of_solveWithin hsolve

example : (subjectTo #v[1, 1] [⟨#v[1, -1], .ge, 0⟩, ⟨#v[-1, 1], .ge, 0⟩, ⟨#v[-1, 0], .le, -1⟩] :
    LinearProgram ℚ 2 3).solveWithin ⟨0, 0⟩ pivotLimit = .ok #v[1, 1] := by decide +kernel

example : (subjectTo #v[1] [⟨#v[1], .ge, 2⟩, ⟨#v[1], .le, 1⟩] : LinearProgram ℚ 1 2).solveWithin
    ⟨0, 0⟩ pivotLimit = .error .infeasible := by decide +kernel

example : (subjectTo #v[-1] [⟨#v[1], .ge, 1⟩] : LinearProgram ℚ 1 1).solveWithin
    ⟨0, 0⟩ pivotLimit = .error .unbounded := by decide +kernel

end LinearProgram

end MarkovDecision
