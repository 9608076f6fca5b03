import MarkovDecision.Proofs.LinearProgram.Termination

/-!
# What holds of every tableau on the way

The search for an answer sets up its tableau once and then rewrites it: by pricing rows
out of the cost, by the pivots of two searches, and by the pivots that drive the
artificial columns out. `LinearProgram.Comes` lists the tableaux that it comes through,
after every one of these moves. Four things hold of all of them
(`LinearProgram.Upheld`): the rows are solved by the points that solve the equations the
search began with; they are solved for different columns, each a unit vector; in a search
the cost is priced; and the values are not negative.

The first three have nothing to do with what the tolerances are, as long as a pivot is
larger than one that is not negative. The fourth is what they put at risk. It holds if
both are zero, and then one more thing has to be known of the sweep between the two
searches, whose pivots are chosen without a ratio test: the rows it pivots on have the
value zero.
-/

namespace MarkovDecision

open Finset

namespace Tableau

variable {m c : ℕ} {t : Tableau ℚ m c} {base : Equation ℚ c}

/-- **The cost is what it was, less a combination of the rows.** -/
theorem Priced.exists_combination (h : t.Priced base) :
    ∃ factor : Fin m → ℚ,
      t.cost.vector = base.vector - ∑ i, factor i • (t.rows.get i).vector := by
  obtain ⟨factor, hfactor⟩ := Submodule.mem_span_range_iff_exists_fun ℚ |>.mp h.sub_mem
  refine ⟨-factor, ?_⟩
  simp only [Pi.neg_apply, neg_smul, sum_neg_distrib, sub_neg_eq_add, hfactor]
  exact (add_sub_cancel _ _).symm

end Tableau

namespace LinearProgram

variable {n m : ℕ} {lp : LinearProgram ℚ n m} {tol : Tolerance ℚ}
  {t : Tableau ℚ m (n + m + m)}

/-! ### The moves -/

/-- What the first phase does with a row before its search. -/
def priceArtificial (t : Tableau ℚ m (n + m + m)) (i : Fin m) : Tableau ℚ m (n + m + m) :=
  if n + m ≤ (t.basis.get i).val then t.price i 1 else t

/-- What the second phase does with a row before its search. -/
def priceOwn (lp : LinearProgram ℚ n m) (t : Tableau ℚ m (n + m + m)) (i : Fin m) :
    Tableau ℚ m (n + m + m) :=
  if h : (t.basis.get i).val < n then
    let unit := lp.objective.get ⟨t.basis.get i, h⟩
    if unit == 0 then t else t.price i unit
  else t

/-- What the search for an answer is busy with. -/
inductive Stage where
  /-- With the equations, or with the cost of a phase before its search. -/
  | preparing
  /-- With the search of the first phase. -/
  | first
  /-- With driving out artificial columns. -/
  | drivingOut
  /-- With the search of the second phase. -/
  | second

/-- **The tableaux that the search for an answer comes through.** A sweep over the rows is looked
at after each of them, and a search after each of its pivots. -/
inductive Comes (lp : LinearProgram ℚ n m) (tol : Tolerance ℚ) :
    Stage → Tableau ℚ m (n + m + m) → Prop
  /-- The equations have been set up. -/
  | setUp : Comes lp tol .preparing lp.initial
  /-- Some rows have been priced at the cost of the first phase. -/
  | pricedArtificial (rows : ℕ) : lp.needsArtificial = true →
      Comes lp tol .preparing (((List.finRange m).take rows).foldl priceArtificial lp.initial)
  /-- Some pivots have been made in the first phase. -/
  | first (pivots : ℕ) : lp.needsArtificial = true →
      Comes lp tol .first (lp.phaseOne.visited tol.entry (n + m + m) pivots)
  /-- Some rows have been freed of their artificial columns. -/
  | drivenOut {most : ℕ} {last : Tableau ℚ m (n + m + m)} (rows : ℕ) : lp.needsArtificial = true →
      lp.phaseOne.run tol.entry (n + m + m) most = .ok last → -last.cost.rhs ≤ tol.residue →
      Comes lp tol .drivingOut (((List.finRange m).take rows).foldl (driveOut tol.entry) last)
  /-- Some rows have been priced at the cost of the second phase. -/
  | pricedOwn {most : ℕ} {t : Tableau ℚ m (n + m + m)} (rows : ℕ) : lp.feasible tol most = .ok t →
      Comes lp tol .preparing
        (((List.finRange m).take rows).foldl lp.priceOwn { t with cost := lp.ownCost })
  /-- Some pivots have been made in the second phase. -/
  | second {most : ℕ} {t : Tableau ℚ m (n + m + m)} (pivots : ℕ) : lp.feasible tol most = .ok t →
      Comes lp tol .second ((lp.phaseTwo t).visited tol.entry (n + m) pivots)

/-- The cost that a stage searches by. -/
def costOf (lp : LinearProgram ℚ n m) : Stage → Option (Equation ℚ (n + m + m))
  | .first => some lp.artificialCost
  | .second => some lp.ownCost
  | _ => none

/-- **What holds of the tableaux on the way.** -/
structure Upheld (lp : LinearProgram ℚ n m) (tol : Tolerance ℚ) (stage : Stage)
    (t : Tableau ℚ m (n + m + m)) : Prop where
  /-- The rows have the solutions of the equations that the search began with. -/
  solves_iff : ∀ z, t.Solves z ↔ ∀ i, (lp.equation i).Holds z
  /-- The rows are solved for different columns. -/
  basis_injective : Function.Injective t.basis.get
  /-- Each of these columns has a one in its own row and nothing elsewhere. -/
  entry_basis : ∀ k r, t.entry r (t.basis.get k) = if r = k then 1 else 0
  /-- In a search the basic columns cost nothing. -/
  cost_basis : ∀ base ∈ lp.costOf stage, ∀ k, t.cost.coeffs.get (t.basis.get k) = 0
  /-- And the cost is that of the phase less a combination of the rows. -/
  cost_eq : ∀ base ∈ lp.costOf stage, ∃ factor : Fin m → ℚ,
    t.cost.vector = base.vector - ∑ i, factor i • (t.rows.get i).vector
  /-- If nothing is tolerated, no value is negative. -/
  rhs_nonneg : tol = ⟨0, 0⟩ → ∀ r, 0 ≤ (t.rows.get r).rhs

/-! ### The invariant -/

/-- The invariant, in the terms in which the moves keep it. -/
theorem Reached.upheld {stage : Stage} (h : lp.Reached t)
    (hpriced : ∀ base ∈ lp.costOf stage, t.Priced base)
    (hadmissible : tol = ⟨0, 0⟩ → t.Admissible) : lp.Upheld tol stage t where
  solves_iff z := by
    rw [h.solves_iff]
    refine forall_congr' fun i => ?_
    rw [initial, get_ofFn]
  basis_injective := h.solved.basis_injective
  entry_basis := h.solved
  cost_basis base hbase := (hpriced base hbase).basic
  cost_eq base hbase := (hpriced base hbase).exists_combination
  rhs_nonneg := hadmissible

/-- Outside the searches the cost does not matter. -/
theorem Reached.upheld_of_none {stage : Stage} (h : lp.Reached t) (hstage : lp.costOf stage = none)
    (hadmissible : tol = ⟨0, 0⟩ → t.Admissible) : lp.Upheld tol stage t := by
  refine h.upheld (fun base hbase => ?_) hadmissible
  rw [hstage] at hbase
  exact absurd hbase (Option.not_mem_none base)

/-- In a search it is that of the phase. -/
theorem Reached.upheld_of_some {stage : Stage} {base : Equation ℚ (n + m + m)} (h : lp.Reached t)
    (hstage : lp.costOf stage = some base) (hpriced : t.Priced base)
    (hadmissible : tol = ⟨0, 0⟩ → t.Admissible) : lp.Upheld tol stage t := by
  refine h.upheld (fun base' hbase => ?_) hadmissible
  rw [hstage] at hbase
  exact Option.some.inj hbase ▸ hpriced

/-- A sweep that prices rows leaves the rows and the basis as they are. -/
theorem foldl_price_rows {step : Tableau ℚ m (n + m + m) → Fin m → Tableau ℚ m (n + m + m)}
    (hstep : ∀ t i, (step t i).rows = t.rows ∧ (step t i).basis = t.basis) (l : List (Fin m))
    (t : Tableau ℚ m (n + m + m)) :
    (l.foldl step t).rows = t.rows ∧ (l.foldl step t).basis = t.basis := by
  induction l generalizing t with
  | nil => exact ⟨rfl, rfl⟩
  | cons i l ih =>
    obtain ⟨hrows, hbasis⟩ := ih (step t i)
    exact ⟨hrows.trans (hstep t i).1, hbasis.trans (hstep t i).2⟩

theorem priceArtificial_rows (t : Tableau ℚ m (n + m + m)) (i : Fin m) :
    (priceArtificial t i).rows = t.rows ∧ (priceArtificial t i).basis = t.basis := by
  rw [priceArtificial]
  split_ifs <;> exact ⟨rfl, rfl⟩

theorem priceOwn_rows (t : Tableau ℚ m (n + m + m)) (i : Fin m) :
    (lp.priceOwn t i).rows = t.rows ∧ (lp.priceOwn t i).basis = t.basis := by
  rw [priceOwn]
  dsimp only
  split_ifs <;> exact ⟨rfl, rfl⟩

/-- What a search keeps: a priced tableau of the program, and its values if nothing is
tolerated. -/
theorem visited_spec (htol : 0 ≤ tol.entry) {base : Equation ℚ (n + m + m)} {limit : ℕ}
    (h : lp.Reached t ∧ t.Priced base) (hadmissible : tol = ⟨0, 0⟩ → t.Admissible) (pivots : ℕ) :
    (lp.Reached (t.visited tol.entry limit pivots) ∧
        (t.visited tol.entry limit pivots).Priced base) ∧
      (tol = ⟨0, 0⟩ → (t.visited tol.entry limit pivots).Admissible) := by
  refine Tableau.visited_induction
    (P := fun t => (lp.Reached t ∧ t.Priced base) ∧ (tol = ⟨0, 0⟩ → t.Admissible)) ?_
    ⟨h, hadmissible⟩ pivots
  rintro t u ⟨ht, hvalues⟩ hu
  obtain ⟨j, i, -, hleave, rfl⟩ := Tableau.advance_eq_some_iff.mp hu
  refine ⟨pivot_spec htol hleave ht, ?_⟩
  rintro rfl
  exact (hvalues rfl).pivot hleave

theorem admissible_of_feasible {most : ℕ} (h : lp.feasible tol most = .ok t)
    (htol : tol = ⟨0, 0⟩) : t.Admissible := by
  subst htol
  exact (exact_of_feasible h).admissible

/-- The second phase is entered with the values that the first one left. -/
theorem phaseTwo_admissible (h : lp.Reached t) (hadmissible : t.Admissible) :
    (lp.phaseTwo t).Admissible := by
  rw [Tableau.Admissible, (phaseTwo_spec h).1]
  exact hadmissible

/-- **Four things hold of every tableau on the way**, whatever the tolerances are, as long as the
one for entries is not negative: the rows have the solutions of the equations that the search began
with; they are solved for different columns, each a unit vector with its one in its own row; in
either search the cost vanishes in these columns, and differs from the cost of the phase by a
combination of the rows; and if nothing is tolerated, no value is negative. And what the search for
an answer returns is read off such a tableau, unless there are no constraints. -/
theorem tableaux_upheld (lp : LinearProgram ℚ n m) (htol : 0 ≤ tol.entry) :
    (∀ stage t, lp.Comes tol stage t → lp.Upheld tol stage t) ∧
      ∀ most x, lp.solveWithin tol most = .ok x →
        m = 0 ∨ ∃ t, lp.Comes tol .second t ∧ x = point t := by
  refine ⟨fun stage t h => ?_, fun most x h => ?_⟩
  · cases h with
    | setUp => exact lp.reached_initial.upheld_of_none rfl fun _ => lp.admissible_initial
    | pricedArtificial rows _ =>
      obtain ⟨hrows, hbasis⟩ :=
        foldl_price_rows priceArtificial_rows ((List.finRange m).take rows) lp.initial
      refine (lp.reached_initial.congr hrows hbasis).upheld_of_none rfl fun _ => ?_
      rw [Tableau.Admissible, hrows]
      exact lp.admissible_initial
    | first pivots _ =>
      obtain ⟨⟨hreached, hpriced⟩, hvalues⟩ :=
        visited_spec htol lp.reached_phaseOne (fun _ => lp.admissible_phaseOne) pivots
      exact hreached.upheld_of_some rfl hpriced hvalues
    | drivenOut rows _ hrun hresidue =>
      obtain ⟨pivots, rfl⟩ := Tableau.exists_visited_of_run hrun
      obtain ⟨⟨hreached, hpriced⟩, hvalues⟩ :=
        visited_spec htol lp.reached_phaseOne (fun _ => lp.admissible_phaseOne) pivots
      refine (hreached.foldl_driveOut htol _).upheld_of_none rfl ?_
      rintro rfl
      exact (foldl_driveOut_spec _ hreached (hvalues rfl)
        (settled_of_residue hreached hpriced (hvalues rfl) hresidue)).1.1
    | @pricedOwn most t rows hfeasible =>
      obtain ⟨hrows, hbasis⟩ := foldl_price_rows priceOwn_rows ((List.finRange m).take rows)
        { t with cost := lp.ownCost }
      have hreached := (reached_of_feasible htol hfeasible).congr hrows hbasis
      refine hreached.upheld_of_none rfl fun hzero => ?_
      have hvalues := admissible_of_feasible hfeasible hzero
      rw [Tableau.Admissible, hrows]
      exact hvalues
    | second pivots hfeasible =>
      have hreached := reached_of_feasible htol hfeasible
      obtain ⟨⟨hlast, hpriced⟩, hvalues⟩ := visited_spec htol hreached.phaseTwo
        (fun hzero => phaseTwo_admissible hreached (admissible_of_feasible hfeasible hzero)) pivots
      exact hlast.upheld_of_some rfl hpriced hvalues
  · rcases exists_of_solveWithin h with ⟨hm, -, -⟩ | ⟨t, last, hfeasible, hrun, rfl⟩
    · exact .inl hm
    · obtain ⟨pivots, rfl⟩ := Tableau.exists_visited_of_run hrun
      exact .inr ⟨_, .second pivots hfeasible, rfl⟩

/-- A program with two constraints from below that are tight at every feasible point. -/
def tied : LinearProgram ℚ 2 3 :=
  subjectTo #v[1, 1] [⟨#v[1, -1], .ge, 0⟩, ⟨#v[-1, 1], .ge, 0⟩, ⟨#v[1, 0], .le, 1⟩]

/-- At the tolerances of the queries: the first pivot of the first phase, and the tableau that the
second phase begins with. -/
theorem tableaux_upheld_tied : 0 ≤ (Tolerance.working : Tolerance ℚ).entry ∧
    tied.Upheld .working .first (tied.phaseOne.visited Tolerance.working.entry (2 + 3 + 3) 1) ∧
    ∃ t, tied.feasible .working pivotLimit = .ok t ∧
      tied.Upheld .working .second (tied.phaseTwo t) := by
  have htol : 0 ≤ (Tolerance.working : Tolerance ℚ).entry := by decide +kernel
  have hneeds : tied.needsArtificial = true := by decide +kernel
  have hok : (tied.feasible .working pivotLimit).isOk = true := by decide +kernel
  obtain ⟨hall, -⟩ := tied.tableaux_upheld htol
  refine ⟨htol, hall _ _ (.first 1 hneeds), ?_⟩
  rcases hfeasible : tied.feasible .working pivotLimit with e | t
  · rw [hfeasible] at hok
    cases hok
  · exact ⟨t, rfl, hall _ _ (.second 0 hfeasible)⟩

end LinearProgram

end MarkovDecision
