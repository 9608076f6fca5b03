import MarkovDecision.Proofs.LinearProgram.Exact

/-!
# No basis comes twice

Where more constraints meet in a point than it takes to make it a corner, a pivot may
exchange a column of the basis and leave the point where it is. The cost does not fall
then, and nothing about the values keeps a search from going round in a circle of such
pivots. What keeps it from that is Bland's rule: the first improving column enters, and
among the rows that bound the step alike the one leaves whose basic column comes first.

The argument looks at two tableaux of a supposed circle (`Tableau.Circle`). Let `q` be the
last of the columns that enter in it. In one tableau `q` enters, so no column before `q`
improves the cost there. In another `q` leaves, for some column `p`. Raising `p` changes
the cost alike whether it is reckoned in the one tableau or in the other
(`Tableau.Sound.cost_eq`), and it lowers it; so some column that gives way to `p` has a
cost in the first tableau and comes before `q`. It gives way from the value zero, as `q`
does, for the point has not moved (`Tableau.Circle.basicPoint_eq`). Then it should have
left instead of `q`.

So the sets of basic columns of a search are all different
(`Tableau.Rounds.columns_ne`), there are fewer rounds than there are such sets
(`Tableau.Rounds.lt_choose`), and a search that may make enough pivots comes to its end.
-/

namespace MarkovDecision

open Finset

/-- **What only rises and comes back has not moved.** -/
theorem eq_of_le_succ {α : Type} [PartialOrder α] {f : ℕ → α} {n : ℕ}
    (hrise : ∀ k < n, f k ≤ f (k + 1)) (hback : f n ≤ f 0) {k : ℕ} (hk : k ≤ n) : f k = f 0 := by
  have hle : ∀ i j, i ≤ j → j ≤ n → f i ≤ f j := by
    intro i j hij
    induction j, hij using Nat.le_induction with
    | base => exact fun _ => le_rfl
    | succ j _ ih => exact fun hj => (ih (by omega)).trans (hrise j (by omega))
  exact le_antisymm ((hle k n hk le_rfl).trans hback) (hle 0 k (Nat.zero_le k) hk)

namespace Tableau

variable {m c : ℕ} {t u : Tableau ℚ m c} {i : Fin m} {j : Fin c} {tol : ℚ} {limit most : ℕ}

/-! ### The search, round by round -/

/-- One round of the search: a column enters, a row leaves, and the one is solved for the other. -/
def advance (tol : ℚ) (limit : ℕ) (t : Tableau ℚ m c) : Option (Tableau ℚ m c) := do
  let j ← t.entering tol limit
  let i ← t.leaving tol j
  return t.pivot i j

/-- The tableau that the search has come to after a number of rounds. It stays there once there is
no further round. -/
def visited (tol : ℚ) (limit : ℕ) (t : Tableau ℚ m c) : ℕ → Tableau ℚ m c
  | 0 => t
  | k + 1 => ((visited tol limit t k).advance tol limit).getD (visited tol limit t k)

/-- The search makes at least so many rounds. -/
def Rounds (tol : ℚ) (limit : ℕ) (t : Tableau ℚ m c) (n : ℕ) : Prop :=
  ∀ k < n, (t.visited tol limit k).advance tol limit = some (t.visited tol limit (k + 1))

theorem advance_eq_some_iff : t.advance tol limit = some u ↔
    ∃ j i, t.entering tol limit = some j ∧ t.leaving tol j = some i ∧ t.pivot i j = u := by
  simp [advance, Option.bind_eq_some_iff]

theorem advance_eq_none_iff : t.advance tol limit = none ↔
    t.entering tol limit = none ∨ ∃ j, t.entering tol limit = some j ∧ t.leaving tol j = none := by
  rw [advance]
  rcases t.entering tol limit with _ | j
  · simp
  · rcases hleave : t.leaving tol j with _ | i
    · simp [hleave]
    · simp [hleave]

/-- **A round is what the program does**, if it may make the pivot. -/
theorem run_of_advance (h : t.advance tol limit = some u) (hmost : u.pivots < most) :
    t.run tol limit most = u.run tol limit most := by
  obtain ⟨j, i, henter, hleave, rfl⟩ := advance_eq_some_iff.mp h
  rw [run, henter]
  dsimp only
  rw [hleave]
  dsimp only
  rw [if_neg (not_le.mpr hmost)]

theorem pivots_of_advance (h : t.advance tol limit = some u) : u.pivots = t.pivots + 1 := by
  obtain ⟨j, i, -, -, rfl⟩ := advance_eq_some_iff.mp h
  rfl

/-- **What one round keeps holds of all that the search comes to.** -/
theorem visited_induction {P : Tableau ℚ m c → Prop}
    (hround : ∀ t u, P t → t.advance tol limit = some u → P u) (ht : P t) (k : ℕ) :
    P (t.visited tol limit k) := by
  induction k with
  | zero => exact ht
  | succ k ih =>
    rw [visited]
    cases hu : (t.visited tol limit k).advance tol limit with
    | none => exact ih
    | some u => exact hround _ u ih hu

/-- The first round, and the others after it. -/
theorem visited_succ_of_advance (h : t.advance tol limit = some u) (k : ℕ) :
    t.visited tol limit (k + 1) = u.visited tol limit k := by
  induction k with
  | zero =>
    have hone : t.visited tol limit 1 = (t.advance tol limit).getD t := rfl
    rw [hone, h]
    rfl
  | succ k ih => rw [visited, ih, visited]

/-- **What the program returns it has come to.** -/
theorem exists_visited_of_run {last : Tableau ℚ m c} (hrun : t.run tol limit most = .ok last) :
    ∃ k, last = t.visited tol limit k := by
  fun_induction run tol limit most t with
  | case1 t hnone => exact ⟨0, (Except.ok.inj hrun).symm⟩
  | case2 t j henter hnone => cases hrun
  | case3 t j henter i hleave next hmost => cases hrun
  | case4 t j henter i hleave next hmost ih =>
    obtain ⟨k, rfl⟩ := ih hrun
    have hnext : t.advance tol limit = some next :=
      advance_eq_some_iff.mpr ⟨j, i, henter, hleave, rfl⟩
    exact ⟨k + 1, (visited_succ_of_advance hnext k).symm⟩

namespace Rounds

variable {n : ℕ}

theorem zero (tol : ℚ) (limit : ℕ) (t : Tableau ℚ m c) : t.Rounds tol limit 0 :=
  fun _ hk => absurd hk (Nat.not_lt_zero _)

theorem succ (h : t.Rounds tol limit n) (hnext : (t.visited tol limit n).advance tol limit ≠ none) :
    t.Rounds tol limit (n + 1) := by
  intro k hk
  rcases Nat.lt_succ_iff_lt_or_eq.mp hk with hk | rfl
  · exact h k hk
  · obtain ⟨u, hu⟩ := Option.ne_none_iff_exists'.mp hnext
    rw [visited, hu]
    rfl

theorem pivots_visited (h : t.Rounds tol limit n) :
    (t.visited tol limit n).pivots = t.pivots + n := by
  induction n with
  | zero => rfl
  | succ n ih =>
    rw [pivots_of_advance (h n (Nat.lt_succ_self n)), ih fun k hk => h k (Nat.lt_succ_of_lt hk)]
    rfl

/-- **The program makes these rounds**, if it may make as many pivots. -/
theorem run_eq (h : t.Rounds tol limit n) (hmost : t.pivots + n < most) :
    t.run tol limit most = (t.visited tol limit n).run tol limit most := by
  induction n with
  | zero => rfl
  | succ n ih =>
    have hlast := h n (Nat.lt_succ_self n)
    rw [ih (fun k hk => h k (Nat.lt_succ_of_lt hk)) (by omega), run_of_advance hlast]
    rw [h.pivots_visited]
    exact hmost

/-- **Rounds that cannot go on for ever come to an end.** -/
theorem exists_end {bound : ℕ} (hbound : ∀ n, t.Rounds tol limit n → n < bound) :
    ∃ n, t.Rounds tol limit n ∧ (t.visited tol limit n).advance tol limit = none := by
  by_contra! hnone
  have hall : ∀ n, t.Rounds tol limit n := by
    intro n
    induction n with
    | zero => exact zero tol limit t
    | succ n ih => exact ih.succ (hnone n ih)
  exact lt_irrefl bound (hbound bound (hall bound))

end Rounds

/-! ### The columns of a basis -/

/-- The columns that the rows are solved for. -/
def columns (t : Tableau ℚ m c) : Finset (Fin c) := univ.image t.basis.get

theorem mem_columns : j ∈ t.columns ↔ ∃ r, t.basis.get r = j := by simp [columns]

theorem Solved.card_columns (ht : t.Solved) : t.columns.card = m := by
  rw [columns, card_image_of_injective univ ht.basis_injective, card_univ, Fintype.card_fin]

/-- A pivot exchanges one column for another. -/
theorem Solved.mem_columns_pivot (ht : t.Solved) {k : Fin c} :
    k ∈ (t.pivot i j).columns ↔ k = j ∨ k ∈ t.columns ∧ k ≠ t.basis.get i := by
  simp only [mem_columns, get_basis_pivot]
  constructor
  · rintro ⟨r, hr⟩
    split_ifs at hr with hir
    · exact .inl hr.symm
    · exact .inr ⟨⟨r, hr⟩, fun hk => hir (ht.basis_injective (hr.trans hk)).symm⟩
  · rintro (rfl | ⟨⟨r, rfl⟩, hne⟩)
    · exact ⟨i, if_pos rfl⟩
    · exact ⟨r, if_neg fun hir => hne (congrArg t.basis.get hir.symm)⟩

variable {base : Equation ℚ c} {S : Submodule ℚ (Option (Fin c) → ℚ)}

theorem Priced.notMem_columns (hp : t.Priced base) (hj : t.cost.coeffs.get j ≠ 0) :
    j ∉ t.columns := by
  rw [mem_columns]
  rintro ⟨r, rfl⟩
  exact hj (hp.basic r)

theorem basicPoint_of_notMem (hj : j ∉ t.columns) : t.basicPoint.get j = 0 := by
  rw [basicPoint, get_ofFn]
  exact sum_eq_zero fun r _ => if_neg fun hr => hj (mem_columns.mpr ⟨r, hr⟩)

theorem Solved.basicPoint_basis (ht : t.Solved) (r : Fin m) :
    t.basicPoint.get (t.basis.get r) = (t.rows.get r).rhs := by
  rw [basicPoint, get_ofFn]
  simp only [ht.basis_injective.eq_iff, sum_ite_eq', mem_univ, if_true]

/-- **A solution without a share in other columns is the basic point.** -/
theorem Solved.eq_basicPoint (ht : t.Solved) {z : Vector ℚ c} (hz : t.Solves z)
    (hout : ∀ k ∉ t.columns, z.get k = 0) : z = t.basicPoint := by
  refine ext_get fun k => ?_
  by_cases hk : k ∈ t.columns
  · obtain ⟨r, rfl⟩ := mem_columns.mp hk
    rw [ht.basicPoint_basis r, ← show _ = (t.rows.get r).rhs from hz r, Equation.form,
      sum_eq_single (t.basis.get r)]
    · rw [show (t.rows.get r).coeffs.get (t.basis.get r) = 1 from (ht r r).trans (if_pos rfl),
        one_mul]
    · intro j _ hj
      by_cases hmem : j ∈ t.columns
      · obtain ⟨k, rfl⟩ := mem_columns.mp hmem
        have hrk : r ≠ k := fun h => hj (congrArg t.basis.get h.symm)
        rw [show (t.rows.get r).coeffs.get (t.basis.get k) = 0 from (ht k r).trans (if_neg hrk),
          zero_mul]
      · rw [hout j hmem, mul_zero]
    · exact fun h => absurd (mem_univ _) h
  · rw [hout k hk, basicPoint_of_notMem hk]

/-! ### What the search keeps -/

/-- A tableau of the search: solved, with the consequences of the rows that it began with, priced,
and without negative values. -/
structure Sound (base : Equation ℚ c) (S : Submodule ℚ (Option (Fin c) → ℚ)) (t : Tableau ℚ m c) :
    Prop where
  /-- Every row is solved for its basic column. -/
  solved : t.Solved
  /-- The rows have these consequences. -/
  span_eq : t.span = S
  /-- Nothing of the cost is left in the basic columns. -/
  priced : t.Priced base
  /-- No right-hand side is negative. -/
  admissible : t.Admissible

namespace Sound

theorem pivot (h : t.Sound base S) (hleave : t.leaving 0 j = some i) :
    (t.pivot i j).Sound base S := by
  have hij : t.entry i j ≠ 0 := (lt_entry_of_leaving hleave).ne'
  exact ⟨h.solved.pivot hij, (span_pivot hij).trans h.span_eq, h.priced.pivot h.solved hij,
    h.admissible.pivot hleave⟩

theorem advance (h : t.Sound base S) (hu : t.advance 0 limit = some u) : u.Sound base S := by
  obtain ⟨j, i, -, hleave, rfl⟩ := advance_eq_some_iff.mp hu
  exact h.pivot hleave

theorem solves_iff (ht : t.Sound base S) (hu : u.Sound base S) {z : Vector ℚ c} :
    t.Solves z ↔ u.Solves z := by
  rw [Tableau.solves_iff, Tableau.solves_iff, ht.span_eq, hu.span_eq]

/-- The right-hand side of the cost is settled by the basic point. -/
theorem rhs_cost (h : t.Sound base S) : t.cost.rhs = base.rhs - base.form t.basicPoint := by
  have hform := h.priced.form_sub h.solved.solves_basicPoint
  rw [h.priced.form_basicPoint] at hform
  linarith

/-- **Tableaux with the same basic columns stand for the same point.** -/
theorem basicPoint_congr (ht : t.Sound base S) (hu : u.Sound base S)
    (hcolumns : t.columns = u.columns) : t.basicPoint = u.basicPoint :=
  hu.solved.eq_basicPoint ((ht.solves_iff hu).mp ht.solved.solves_basicPoint)
    fun _ hk => basicPoint_of_notMem (hcolumns ▸ hk)

/-- **A round does not raise the cost**, and if the cost stays what it is, so does the point. -/
theorem cost_advance (h : t.Sound base S) (hu : t.advance 0 limit = some u) :
    t.cost.rhs ≤ u.cost.rhs ∧ (u.cost.rhs = t.cost.rhs → u.basicPoint = t.basicPoint) := by
  obtain ⟨j, i, henter, hleave, rfl⟩ := advance_eq_some_iff.mp hu
  have hneg : t.cost.coeffs.get j < 0 := neg_zero (G := ℚ) ▸ (entering_spec henter).2
  have hpos : 0 < t.entry i j := lt_entry_of_leaving hleave
  have hratio : 0 ≤ t.ratio j i := div_nonneg (h.admissible i) hpos.le
  have hcost : (t.pivot i j).cost.rhs = t.cost.rhs - t.cost.coeffs.get j * t.ratio j i := by
    rw [cost_pivot]
    rfl
  refine ⟨?_, fun hstay => ?_⟩
  · rw [hcost]
    linarith [mul_nonpos_of_nonpos_of_nonneg hneg.le hratio]
  · -- the step has length zero, so the column that leaves has no share in the point
    have hzero : t.ratio j i = 0 := by
      rw [hcost, sub_eq_self] at hstay
      exact (mul_eq_zero.mp hstay).resolve_left hneg.ne
    have hrhs : (t.rows.get i).rhs = 0 := (div_eq_zero_iff.mp hzero).resolve_right hpos.ne'
    refine ((h.pivot hleave).solved.eq_basicPoint
      ((h.solves_iff (h.pivot hleave)).mp h.solved.solves_basicPoint) fun k hk => ?_).symm
    rw [h.solved.mem_columns_pivot, not_or, not_and_not_right] at hk
    by_cases hmem : k ∈ t.columns
    · rw [hk.2 hmem, h.solved.basicPoint_basis, hrhs]
    · exact basicPoint_of_notMem hmem

/-- **Raising a column changes the cost alike in all tableaux**: what the column costs in one of
them is what it costs in another, less what the basic columns give way. -/
theorem cost_eq (ht : t.Sound base S) (hu : u.Sound base S) (j : Fin c) :
    u.cost.coeffs.get j
      = t.cost.coeffs.get j - ∑ i, u.entry i j * t.cost.coeffs.get (u.basis.get i) := by
  -- the difference of the two costs follows from the rows of `u`, and these vanish on the step
  let step : (Option (Fin c) → ℚ) →ₗ[ℚ] ℚ :=
    LinearMap.proj (some j) - ∑ i, u.entry i j • LinearMap.proj (some (u.basis.get i))
  have hstep : ∀ v, step v = v (some j) - ∑ i, u.entry i j * v (some (u.basis.get i)) := by
    intro v
    simp [step]
  have hrows : u.span ≤ LinearMap.ker step := by
    refine Submodule.span_le.mpr ?_
    rintro _ ⟨r, rfl⟩
    have hterm : ∀ i, u.entry i j * (u.rows.get r).vector (some (u.basis.get i))
        = if r = i then u.entry i j else 0 := by
      intro i
      rw [show (u.rows.get r).vector (some (u.basis.get i)) = _ from hu.solved i r, mul_ite,
        mul_one, mul_zero]
    show step (u.rows.get r).vector = 0
    rw [hstep, sum_congr rfl fun i _ => hterm i, sum_ite_eq, if_pos (mem_univ r)]
    exact sub_self _
  have hmem : t.cost.vector - u.cost.vector ∈ u.span := by
    have hsub := S.sub_mem (ht.span_eq ▸ ht.priced.sub_mem) (hu.span_eq ▸ hu.priced.sub_mem)
    rwa [sub_sub_sub_cancel_right, ← hu.span_eq] at hsub
  have hzero : ∑ i, u.entry i j * u.cost.vector (some (u.basis.get i)) = 0 :=
    sum_eq_zero fun i _ => by
      rw [show u.cost.vector (some (u.basis.get i)) = 0 from hu.priced.basic i, mul_zero]
  have hdiff : step t.cost.vector - step u.cost.vector = 0 := by
    rw [← map_sub]
    exact hrows hmem
  rw [hstep, hstep, hzero, sub_zero] at hdiff
  exact (sub_eq_zero.mp hdiff).symm

end Sound

/-! ### The two choices -/

/-- **The column that enters is the first that improves the cost.** -/
theorem cost_nonneg_of_entering (h : t.entering 0 limit = some j) {k : Fin c} (hk : k < j) :
    0 ≤ t.cost.coeffs.get k := by
  obtain ⟨-, before, behind, hsplit, hbefore⟩ := List.find?_eq_some_iff_append.mp h
  have hsorted : (before ++ j :: behind).Pairwise (· < ·) := hsplit ▸ List.pairwise_lt_finRange c
  -- a column before `j` stands before it in the list
  have hmem : k ∈ before := by
    have hk' : k ∈ before ++ j :: behind := hsplit ▸ List.mem_finRange k
    rcases List.mem_append.mp hk' with hmem | hmem
    · exact hmem
    · rcases List.mem_cons.mp hmem with rfl | hmem
      · exact absurd hk (lt_irrefl k)
      · have hlt := (List.pairwise_cons.mp (List.pairwise_append.mp hsorted).2.1).1 k hmem
        exact absurd hk (lt_asymm hlt)
  have hnot := hbefore k hmem
  have hlimit : k.val < limit := lt_trans (Fin.lt_def.mp hk) (entering_spec h).1
  simpa [hlimit] using hnot

/-! ### Circles -/

/-- A search that has come back to the columns of its basis after some rounds. -/
structure Circle (base : Equation ℚ c) (S : Submodule ℚ (Option (Fin c) → ℚ)) (limit : ℕ)
    (T : ℕ → Tableau ℚ m c) (n : ℕ) : Prop where
  /-- Where it begins. -/
  sound : (T 0).Sound base S
  /-- Its rounds. -/
  round : ∀ k < n, (T k).advance 0 limit = some (T (k + 1))
  /-- Where it ends. -/
  back : (T n).columns = (T 0).columns

namespace Circle

variable {T : ℕ → Tableau ℚ m c} {n k : ℕ} {p q : Fin c}

theorem sound_of_le (h : Circle base S limit T n) (hk : k ≤ n) : (T k).Sound base S := by
  induction k with
  | zero => exact h.sound
  | succ k ih => exact (ih (by omega)).advance (h.round k hk)

/-- **The point stays where it is.** -/
theorem basicPoint_eq (h : Circle base S limit T n) (hk : k ≤ n) :
    (T k).basicPoint = (T 0).basicPoint := by
  have hend : (T n).cost.rhs = (T 0).cost.rhs := by
    rw [(h.sound_of_le le_rfl).rhs_cost, h.sound.rhs_cost,
      (h.sound_of_le le_rfl).basicPoint_congr h.sound h.back]
  have hcost : ∀ k ≤ n, (T k).cost.rhs = (T 0).cost.rhs := fun k hk =>
    eq_of_le_succ (f := fun k => (T k).cost.rhs)
      (fun k hk => ((h.sound_of_le hk.le).cost_advance (h.round k hk)).1) hend.le hk
  induction k with
  | zero => rfl
  | succ k ih =>
    have hstay := ((h.sound_of_le (k := k) (by omega)).cost_advance (h.round k hk)).2
    rw [hstay ((hcost (k + 1) hk).trans (hcost k (by omega)).symm), ih (by omega)]

/-- **A column that never enters is basic always or never.** -/
theorem mem_columns_iff (h : Circle base S limit T n)
    (hq : ∀ k < n, (T k).entering 0 limit ≠ some q) (hk : k ≤ n) :
    q ∈ (T k).columns ↔ q ∈ (T 0).columns := by
  have hfall : ∀ k < n, q ∉ (T k).columns → q ∉ (T (k + 1)).columns := by
    intro k hk hout hin
    obtain ⟨j, i, henter, -, hnext⟩ := advance_eq_some_iff.mp (h.round k hk)
    rw [← hnext, (h.sound_of_le hk.le).solved.mem_columns_pivot] at hin
    rcases hin with rfl | ⟨hin, -⟩
    · exact hq k hk henter
    · exact hout hin
  have hback : q ∉ (T n).columns → q ∉ (T 0).columns := fun hout => h.back ▸ hout
  exact not_iff_not.mp (iff_of_eq (eq_of_le_succ (f := fun k => q ∉ (T k).columns) hfall hback hk))

/-- **A column that enters also leaves.** -/
theorem exists_leaving (h : Circle base S limit T n) (hk : k < n)
    (hq : (T k).entering 0 limit = some q) :
    ∃ l < n, ∃ p r, (T l).entering 0 limit = some p ∧ (T l).leaving 0 p = some r ∧
      (T l).basis.get r = q := by
  by_contra! hstays
  have hrise : ∀ l < n, q ∈ (T l).columns → q ∈ (T (l + 1)).columns := by
    intro l hl hin
    obtain ⟨j, i, henter, hleave, hnext⟩ := advance_eq_some_iff.mp (h.round l hl)
    rw [← hnext, (h.sound_of_le hl.le).solved.mem_columns_pivot]
    exact .inr ⟨hin, (hstays l hl j i henter hleave).symm⟩
  have hback : q ∈ (T n).columns → q ∈ (T 0).columns := fun hin => h.back ▸ hin
  have hconst : ∀ l ≤ n, (q ∈ (T l).columns) = (q ∈ (T 0).columns) := fun l hl =>
    eq_of_le_succ (f := fun l => q ∈ (T l).columns) hrise hback hl
  -- but it is not basic before it enters, and it is afterwards
  obtain ⟨j, i, henter, -, hnext⟩ := advance_eq_some_iff.mp (h.round k hk)
  obtain rfl : q = j := Option.some.inj (hq.symm.trans henter)
  have hout : q ∉ (T k).columns := (h.sound_of_le hk.le).priced.notMem_columns
    (neg_zero (G := ℚ) ▸ (entering_spec henter).2).ne
  have hin : q ∈ (T (k + 1)).columns := by
    rw [← hnext, (h.sound_of_le hk.le).solved.mem_columns_pivot]
    exact .inl rfl
  rw [hconst (k + 1) hk, ← hconst k hk.le] at hin
  exact hout hin

/-- **The search does not go round in a circle.** -/
theorem eq_zero (h : Circle base S limit T n) : n = 0 := by
  by_contra hn
  -- the last of the columns that enter
  obtain ⟨q, ⟨a, ha, hqa⟩, hlast⟩ : ∃ q, (∃ k < n, (T k).entering 0 limit = some q) ∧
      ∀ p, (∃ k < n, (T k).entering 0 limit = some p) → p ≤ q := by
    obtain ⟨j, -, henter, -, -⟩ := advance_eq_some_iff.mp (h.round 0 (Nat.pos_of_ne_zero hn))
    exact Set.exists_max_image {q | ∃ k < n, (T k).entering 0 limit = some q} id (Set.toFinite _)
      ⟨j, 0, Nat.pos_of_ne_zero hn, henter⟩
  obtain ⟨b, hb, p, r, hpb, hleave, hr⟩ := h.exists_leaving ha hqa
  have hA := h.sound_of_le ha.le
  have hB := h.sound_of_le hb.le
  have hqneg : (T a).cost.coeffs.get q < 0 := neg_zero (G := ℚ) ▸ (entering_spec hqa).2
  have hpneg : (T b).cost.coeffs.get p < 0 := neg_zero (G := ℚ) ▸ (entering_spec hpb).2
  have hpos : 0 < (T b).entry r p := lt_entry_of_leaving hleave
  have hqout : q ∉ (T a).columns := hA.priced.notMem_columns hqneg.ne
  have hpq : p < q := by
    refine lt_of_le_of_ne (hlast p ⟨b, hb, hpb⟩) ?_
    rintro rfl
    exact hB.priced.notMem_columns hpneg.ne (mem_columns.mpr ⟨r, hr⟩)
  -- where `q` enters, `p` does not improve the cost, so some basic column of the other tableau
  -- makes up for it
  obtain ⟨i, hi⟩ : ∃ i, 0 < (T b).entry i p * (T a).cost.coeffs.get ((T b).basis.get i) := by
    by_contra! hnone
    have hcost := hA.cost_eq hB p
    have hsum := sum_nonpos fun i (_ : i ∈ univ) => hnone i
    linarith [cost_nonneg_of_entering hqa hpq]
  have hout : (T b).basis.get i ∉ (T a).columns :=
    hA.priced.notMem_columns (right_ne_zero_of_mul hi.ne')
  have hle : (T b).basis.get i ≤ q := by
    refine hlast _ (by_contra fun hnever => hout ?_)
    push Not at hnever
    rw [h.mem_columns_iff hnever ha.le, ← h.mem_columns_iff hnever hb.le]
    exact mem_columns.mpr ⟨i, rfl⟩
  rcases hle.lt_or_eq with hlt | heq
  · -- the column comes before `q`, and might have left in its place
    have hentry : 0 < (T b).entry i p :=
      pos_of_mul_pos_left hi (cost_nonneg_of_entering hqa hlt)
    have hzero : ∀ r', (T b).basis.get r' ∉ (T a).columns → (T b).ratio p r' = 0 := by
      intro r' hr'
      rw [ratio, ← hB.solved.basicPoint_basis, h.basicPoint_eq hb.le, ← h.basicPoint_eq ha.le,
        basicPoint_of_notMem hr', zero_div]
    have hrank := rank_le_of_leaving hleave hentry
    rw [rank, rank, hzero i hout, hzero r (hr ▸ hqout), hr, Prod.Lex.toLex_le_toLex'] at hrank
    exact absurd (hrank.2 rfl) (not_le.mpr hlt)
  · -- the column is `q` itself, which gives way while the cost of it is negative
    obtain rfl : i = r := hB.solved.basis_injective (heq.trans hr.symm)
    rw [heq] at hi
    exact absurd hi (not_lt.mpr (mul_nonpos_of_nonneg_of_nonpos hpos.le hqneg.le))

end Circle

/-! ### The end of the search -/

variable {n : ℕ}

theorem Sound.visited (h : t.Sound base S) (k : ℕ) : (t.visited 0 limit k).Sound base S :=
  visited_induction (fun _ _ hs hu => hs.advance hu) h k

/-- **No basis comes twice.** -/
theorem Rounds.columns_ne (h : t.Rounds 0 limit n) (ht : t.Sound base S) {k l : ℕ} (hkl : k < l)
    (hl : l ≤ n) : (t.visited 0 limit k).columns ≠ (t.visited 0 limit l).columns := by
  intro heq
  have hcircle : Circle base S limit (fun d => t.visited 0 limit (k + d)) (l - k) := by
    refine ⟨ht.visited k, fun d hd => h (k + d) (by omega), ?_⟩
    show (t.visited 0 limit (k + (l - k))).columns = _
    rw [Nat.add_sub_cancel' hkl.le]
    exact heq.symm
  exact absurd hcircle.eq_zero (by omega)

/-- **There are no more rounds than bases.** -/
theorem Rounds.lt_choose (h : t.Rounds 0 limit n) (ht : t.Sound base S) : n < c.choose m := by
  have hinj : Set.InjOn (fun k => (t.visited 0 limit k).columns) (range (n + 1)) := by
    intro k hk l hl heq
    rw [coe_range, Set.mem_Iio] at hk hl
    rcases lt_trichotomy k l with hlt | hkl | hlt
    · exact absurd heq (h.columns_ne ht hlt (by omega))
    · exact hkl
    · exact absurd heq.symm (h.columns_ne ht hlt (by omega))
  have hmaps : ∀ k ∈ range (n + 1), (t.visited 0 limit k).columns ∈ powersetCard m univ := by
    intro k _
    rw [mem_powersetCard_univ]
    exact (ht.visited k).solved.card_columns
  have hcard := card_le_card_of_injOn _ hmaps hinj
  rwa [card_range, card_powersetCard, card_univ, Fintype.card_fin] at hcard

/-- A search ends where nothing enters. -/
theorem run_of_entering (h : t.entering tol limit = none) : t.run tol limit most = .ok t := by
  rw [run, h]

/-- A search ends where something enters and nothing leaves. -/
theorem run_of_leaving (henter : t.entering tol limit = some j) (hleave : t.leaving tol j = none) :
    t.run tol limit most = .error .unbounded := by
  rw [run, henter]
  dsimp only
  rw [hleave]

/-- **A search that may make enough pivots comes to its end**: to a tableau where nothing enters,
which it returns, or to one where something enters and nothing leaves. -/
theorem Sound.exists_rounds (h : t.Sound base S) (limit : ℕ) :
    ∃ rounds < c.choose m, t.Rounds 0 limit rounds ∧
      ((t.visited 0 limit rounds).entering 0 limit = none ∧
          (∀ most, t.pivots + rounds < most →
            t.run 0 limit most = .ok (t.visited 0 limit rounds)) ∨
        (∃ j, (t.visited 0 limit rounds).entering 0 limit = some j ∧
          (t.visited 0 limit rounds).leaving 0 j = none) ∧
          ∀ most, t.pivots + rounds < most → t.run 0 limit most = .error .unbounded) := by
  obtain ⟨rounds, hrounds, hend⟩ := Rounds.exists_end fun _ hrounds => hrounds.lt_choose h
  refine ⟨rounds, hrounds.lt_choose h, hrounds, ?_⟩
  rcases advance_eq_none_iff.mp hend with hnone | ⟨j, henter, hleave⟩
  · refine .inl ⟨hnone, fun most hmost => ?_⟩
    rw [hrounds.run_eq hmost, run_of_entering hnone]
  · refine .inr ⟨⟨j, henter, hleave⟩, fun most hmost => ?_⟩
    rw [hrounds.run_eq hmost, run_of_leaving henter hleave]

/-- Beyond some number of pivots the limit does not matter. -/
theorem Sound.exists_run (h : t.Sound base S) (limit : ℕ) :
    ∃ r N, (∀ pivots, r ≠ .error (.pivotLimit pivots)) ∧
      ∀ most, N ≤ most → t.run 0 limit most = r := by
  obtain ⟨rounds, -, -, ⟨-, hrun⟩ | ⟨-, hrun⟩⟩ := h.exists_rounds limit
  · exact ⟨.ok _, t.pivots + rounds + 1, by rintro _ ⟨⟩, hrun⟩
  · exact ⟨.error .unbounded, t.pivots + rounds + 1, by rintro _ ⟨⟩, hrun⟩

end Tableau

namespace LinearProgram

variable {n m : ℕ} {lp : LinearProgram ℚ n m} {t : Tableau ℚ m (n + m + m)} {limit : ℕ}

/-- **The tableaux that are searched** if nothing is tolerated, and the columns that may enter: in
the first phase all of them, in the second those that are not artificial. -/
inductive Searched (lp : LinearProgram ℚ n m) : ℕ → Tableau ℚ m (n + m + m) → Prop
  /-- The tableau of the first phase, if there is one. -/
  | first : lp.needsArtificial = true → Searched lp (n + m + m) lp.phaseOne
  /-- The tableau of the second phase. -/
  | second {most : ℕ} {t : Tableau ℚ m (n + m + m)} : lp.feasible ⟨0, 0⟩ most = .ok t →
      Searched lp (n + m) (lp.phaseTwo t)

theorem sound_phaseOne (lp : LinearProgram ℚ n m) :
    lp.phaseOne.Sound lp.artificialCost lp.initial.span := by
  obtain ⟨hreached, hpriced⟩ := lp.reached_phaseOne
  exact ⟨hreached.solved, hreached.span_eq, hpriced, lp.admissible_phaseOne⟩

theorem Exact.sound_phaseTwo (h : lp.Exact t) :
    (lp.phaseTwo t).Sound lp.ownCost lp.initial.span := by
  obtain ⟨hrows, hbasis, hpriced⟩ := phaseTwo_spec h.reached
  have hexact := h.congr hrows hbasis
  exact ⟨hexact.reached.solved, hexact.reached.span_eq, hpriced, hexact.admissible⟩

theorem Searched.exists_sound (h : lp.Searched limit t) :
    ∃ base, t.Sound base lp.initial.span := by
  cases h with
  | first _ => exact ⟨_, lp.sound_phaseOne⟩
  | second hfeasible => exact ⟨_, (exact_of_feasible hfeasible).sound_phaseTwo⟩

/-- **A search comes to its end without coming back to a basis.** Without a tolerance, and whatever
tableau of a program is searched: from round to round the basic columns are never again what they
have been, there are fewer rounds than choices of basic columns, and if as many pivots are allowed
the search returns the tableau after the last round, where no column improves the cost, or finds
there that the step is unbounded. -/
theorem Searched.never_repeats (h : lp.Searched limit t) :
    ∃ rounds < (n + m + m).choose m, t.Rounds 0 limit rounds ∧
      (∀ k l, k < l → l ≤ rounds →
        (t.visited 0 limit k).columns ≠ (t.visited 0 limit l).columns) ∧
      ((t.visited 0 limit rounds).entering 0 limit = none ∧
          (∀ most, t.pivots + rounds < most →
            t.run 0 limit most = .ok (t.visited 0 limit rounds)) ∨
        (∃ j, (t.visited 0 limit rounds).entering 0 limit = some j ∧
          (t.visited 0 limit rounds).leaving 0 j = none) ∧
          ∀ most, t.pivots + rounds < most → t.run 0 limit most = .error .unbounded) := by
  obtain ⟨base, hsound⟩ := h.exists_sound
  obtain ⟨rounds, hlt, hrounds, hend⟩ := hsound.exists_rounds limit
  exact ⟨rounds, hlt, hrounds, fun k l hkl hl => hrounds.columns_ne hsound hkl hl, hend⟩

/-- A program on which a search goes round in a circle if the most improving column enters: two
constraints are tight at the origin, besides the bounds of the coordinates. -/
def circling : LinearProgram ℚ 4 3 :=
  subjectTo #v[-3/4, 150, -1/50, 6]
    [⟨#v[1/4, -60, -1/25, 9], .le, 0⟩, ⟨#v[1/2, -90, -1/50, 3], .le, 0⟩, ⟨#v[0, 0, 1, 0], .le, 1⟩]

/-- Its second phase comes to an end, where no column improves the cost. -/
theorem Searched.never_repeats_circling : circling.feasible ⟨0, 0⟩ 0 = .ok circling.initial ∧
    ∃ rounds < (4 + 3 + 3).choose 3, (circling.phaseTwo circling.initial).Rounds 0 (4 + 3) rounds ∧
      (∀ k l, k < l → l ≤ rounds →
        ((circling.phaseTwo circling.initial).visited 0 (4 + 3) k).columns
          ≠ ((circling.phaseTwo circling.initial).visited 0 (4 + 3) l).columns) ∧
      ((circling.phaseTwo circling.initial).visited 0 (4 + 3) rounds).entering 0 (4 + 3)
        = none := by
  have hneeds : circling.needsArtificial = false := by decide +kernel
  have hfeasible : circling.feasible ⟨0, 0⟩ 0 = .ok circling.initial := by
    rw [feasible, hneeds]
    rfl
  obtain ⟨rounds, hlt, hrounds, hne, ⟨hnone, -⟩ | ⟨-, hunbounded⟩⟩ :=
    (Searched.second hfeasible).never_repeats
  · exact ⟨hfeasible, rounds, hlt, hrounds, hne, hnone⟩
  · have hok : ((circling.phaseTwo circling.initial).run 0 (4 + 3) 120).isOk = true := by
      decide +kernel
    have hpivots : (circling.phaseTwo circling.initial).pivots = 0 := by decide +kernel
    rw [hunbounded 120 (by rw [hpivots, Nat.zero_add]; exact hlt)] at hok
    cases hok

/-! ### Programs -/

/-- Beyond some number of pivots the limit does not matter to the first phase. -/
theorem exists_feasible (lp : LinearProgram ℚ n m) :
    ∃ r N, (∀ pivots, r ≠ .error (.pivotLimit pivots)) ∧
      ∀ most, N ≤ most → lp.feasible ⟨0, 0⟩ most = r := by
  obtain ⟨r, N, hr, hrun⟩ := lp.sound_phaseOne.exists_run (n + m + m)
  rcases hneeds : lp.needsArtificial with _ | _
  · refine ⟨.ok lp.initial, 0, by rintro _ ⟨⟩, fun most _ => ?_⟩
    rw [feasible, hneeds]
    rfl
  rcases r with e | last
  · refine ⟨.error e, N, fun pivots h => hr pivots (congrArg Except.error (Except.error.inj h)),
      fun most hmost => ?_⟩
    rw [feasible, if_pos hneeds, hrun most hmost]
    rfl
  · have hfeasible : ∀ most, N ≤ most → lp.feasible ⟨0, 0⟩ most =
        if 0 < -last.cost.rhs then .error .infeasible
        else .ok ((List.finRange m).foldl (driveOut 0) last) := by
      intro most hmost
      rw [feasible, if_pos hneeds, hrun most hmost]
      simp only [bind, Except.bind, pure, Except.pure, throw, throwThe, MonadExceptOf.throw]
    refine ⟨_, N, fun pivots => ?_, hfeasible⟩
    split_ifs
    · rintro ⟨⟩
    · rintro ⟨⟩

/-- **Every program is answered**: beyond some number of pivots the limit does not matter, and the
search returns a point or says why there is none. -/
theorem exists_solveWithin (lp : LinearProgram ℚ n m) :
    ∃ r N, (∀ pivots, r ≠ .error (.pivotLimit pivots)) ∧
      ∀ most, N ≤ most → lp.solveWithin ⟨0, 0⟩ most = r := by
  by_cases hm : m = 0
  · refine ⟨lp.solveWithin ⟨0, 0⟩ 0, 0, fun pivots => ?_, fun most _ => ?_⟩
    · rw [solveWithin, if_pos hm]
      split_ifs
      · rintro ⟨⟩
      · rintro ⟨⟩
    · rw [solveWithin, if_pos hm, solveWithin, if_pos hm]
  obtain ⟨r, N, hr, hfeasible⟩ := lp.exists_feasible
  rcases r with e | t
  · refine ⟨.error e, N, fun pivots h => hr pivots (congrArg Except.error (Except.error.inj h)),
      fun most hmost => ?_⟩
    rw [solveWithin, if_neg hm, hfeasible most hmost]
    rfl
  obtain ⟨r, N', hr', hrun⟩ :=
    (exact_of_feasible (hfeasible N le_rfl)).sound_phaseTwo.exists_run (n + m)
  refine ⟨r.map point, max N N', fun pivots h => ?_, fun most hmost => ?_⟩
  · rcases r with e | last
    · exact hr' pivots (congrArg Except.error (Except.error.inj h))
    · cases h
  · rw [solveWithin, if_neg hm, hfeasible most ((le_max_left N N').trans hmost)]
    have hlast := hrun most ((le_max_right N N').trans hmost)
    rcases r with e | last
    · simp only [bind, Except.bind, hlast]
      rfl
    · simp only [bind, Except.bind, hlast]
      rfl

end LinearProgram

end MarkovDecision
