import MarkovDecision.Proofs.Numeric.LinearSystem

/-!
# When elimination gives up

A column is given up when its largest entry is negligible, and that entry is the
outcome of all the columns before it, with the exchanges they made. Still it has a
lower bound that can be read off the system one starts from. Say that a system is
*steady* with factor `T` (`LinearSystem.Steady`) if a point where all forms are at
most `ε` in magnitude has coordinates of at most `T * ε`. Then no pivot that
elimination meets is smaller than `1 / T` (`LinearSystem.Steady.one_le_mul`).

The reason is that elimination does not make forms smaller, where it matters. Up to
their order, the forms of the equations still to be treated agree with forms of the
first system at every point where the treated ones vanish (`LinearSystem.Treated`).
There is such a point, not zero, that has no coordinate after the column at hand; at
it the forms still to be treated are the entries of the column times one coordinate.
If all these entries were smaller than `1 / T`, so would the forms be, and the point
would be smaller than itself.

A steady system has exactly one solution (`LinearSystem.Steady.existsUnique`), and
elimination finds it unless some pivot on its way is negligible
(`LinearSystem.solve_eq_none_iff`).
-/

namespace MarkovDecision

open Finset

variable {n : ℕ}

namespace LinearSystem

variable {sys mid next : LinearSystem ℚ n} {col : Fin n} {entry : ℚ}

/-! ### The pivots on the way -/

/-- Elimination comes to a column, and `entry` is the largest entry that it finds there. -/
def Meets (sys : LinearSystem ℚ n) (col : Fin n) (entry : ℚ) : Prop :=
  ∃ mid, ((List.finRange n).take col).foldlM (eliminate sys.scale) sys = some mid ∧
    (mid.pivotIn col).2 = entry

/-- A chain of partial steps breaks off at a first step that has no result. -/
theorem foldlM_eq_none_iff {α β : Type} {f : β → α → Option β} {l : List α} {b : β} :
    l.foldlM f b = none ↔ ∃ k, ∃ h : k < l.length, ∃ mid,
      (l.take k).foldlM f b = some mid ∧ f mid (l.get ⟨k, h⟩) = none := by
  induction l generalizing b with
  | nil => simp
  | cons a l ih =>
    rw [List.foldlM_cons]
    rcases hab : f b a with _ | next
    · refine iff_of_true rfl ⟨0, Nat.succ_pos _, b, rfl, hab⟩
    · have hnext : (some next >>= fun s => l.foldlM f s) = l.foldlM f next := rfl
      rw [hnext, ih]
      constructor
      · rintro ⟨k, hk, mid, hmid, hnone⟩
        refine ⟨k + 1, Nat.succ_lt_succ hk, mid, ?_, hnone⟩
        rw [List.take_succ_cons, List.foldlM_cons, hab]
        exact hmid
      · rintro ⟨k, hk, mid, hmid, hnone⟩
        rcases k with _ | k
        · obtain rfl : b = mid := Option.some.inj hmid
          exact absurd (hab.symm.trans hnone) (Option.some_ne_none next)
        · rw [List.take_succ_cons, List.foldlM_cons, hab] at hmid
          exact ⟨k, Nat.lt_of_succ_lt_succ hk, mid, hmid, hnone⟩

theorem eliminate_eq_none_iff {scale : ℚ} :
    eliminate scale sys col = none ↔ (sys.pivotIn col).2 < negligible * scale := by
  simp [eliminate]

/-- In exact arithmetic every unknown is finite. -/
theorem solve_eq_map (sys : LinearSystem ℚ n) : sys.solve = sys.triangular.map backSubstitute := by
  have hfinite : ∀ x : Vector ℚ n, x.all Scalar.isFinite = true := by
    intro x
    rw [Vector.all_eq_true]
    intro i hi
    rw [Scalar.isFinite, sub_self]
    rfl
  rw [solve]
  rcases sys.triangular with _ | tri
  · rfl
  · exact if_pos (hfinite _)

/-- **Elimination gives up exactly at a negligible pivot.** -/
theorem solve_eq_none_iff (sys : LinearSystem ℚ n) :
    sys.solve = none ↔ ∃ col entry, sys.Meets col entry ∧ entry < negligible * sys.scale := by
  rw [solve_eq_map, Option.map_eq_none_iff, triangular, foldlM_eq_none_iff]
  constructor
  · rintro ⟨k, hk, mid, hmid, hnone⟩
    rw [List.get_finRange, eliminate_eq_none_iff] at hnone
    exact ⟨⟨k, (List.length_finRange (n := n)) ▸ hk⟩, _, ⟨mid, hmid, rfl⟩, hnone⟩
  · rintro ⟨col, entry, ⟨mid, hmid, rfl⟩, hsmall⟩
    refine ⟨col, (List.length_finRange (n := n)).symm ▸ col.isLt, mid, hmid, ?_⟩
    rw [List.get_finRange, eliminate_eq_none_iff]
    exact hsmall

/-- The largest entry of a column at or below the diagonal. -/
theorem abs_entry_le_pivotIn (sys : LinearSystem ℚ n) {r : Fin n} (hr : col ≤ r) :
    |sys.entry r col| ≤ (sys.pivotIn col).2 := by
  -- the best so far only gets larger, and is at least what has been looked at
  have hinv : ∀ l : List (Fin n), ∀ best : Fin n × ℚ,
      let last := l.foldl (fun best r =>
        let entry := Scalar.magnitude ((sys.get r).coeffs.get col)
        if best.2 < entry then (r, entry) else best) best
      best.2 ≤ last.2 ∧ ∀ r ∈ l, |sys.entry r col| ≤ last.2 := by
    intro l
    induction l with
    | nil => exact fun best => ⟨le_rfl, fun r hr => absurd hr List.not_mem_nil⟩
    | cons first l ih =>
      intro best
      dsimp only [List.foldl_cons]
      split_ifs with hlt
      · obtain ⟨hbest, hrest⟩ := ih (first, Scalar.magnitude ((sys.get first).coeffs.get col))
        refine ⟨hlt.le.trans hbest, fun r hr => ?_⟩
        rcases List.mem_cons.mp hr with rfl | hr
        · exact (magnitude_eq_abs _).ge.trans hbest
        · exact hrest r hr
      · obtain ⟨hbest, hrest⟩ := ih best
        refine ⟨hbest, fun r hr => ?_⟩
        rcases List.mem_cons.mp hr with rfl | hr
        · rw [magnitude_eq_abs] at hlt
          exact (not_lt.mp hlt).trans hbest
        · exact hrest r hr
  exact (hinv _ _).2 r (List.mem_filter.mpr ⟨List.mem_finRange r, decide_eq_true hr⟩)

/-! ### What elimination keeps of the forms -/

/-- A system after its first `done` columns have been treated: they are cleared, and at a point
where the forms of the equations that hold their pivots vanish, every form of the first system is
one of the others. -/
structure Treated (sys : LinearSystem ℚ n) (done : ℕ) (mid : LinearSystem ℚ n) : Prop where
  /-- The columns are cleared. -/
  cleared : ∀ k : Fin n, k.val < done → mid.Cleared k
  /-- No form is lost. -/
  form_eq : ∀ x, (∀ k : Fin n, k.val < done → (mid.get k).form x = 0) →
    ∀ i, ∃ r, (sys.get i).form x = (mid.get r).form x

/-- **One more column.** -/
theorem Treated.eliminate {scale : ℚ} (hscale : 1 ≤ scale) (h : sys.Treated col mid)
    (hnext : eliminate scale mid col = some next) : sys.Treated (col + 1) next := by
  obtain ⟨hcol, hkeep, -⟩ := eliminate_spec hscale hnext
  obtain ⟨row, hle, -, rfl⟩ := exists_of_eliminate hscale hnext
  refine ⟨fun k hk => ?_, fun x hx i => ?_⟩
  · rcases Nat.lt_succ_iff_lt_or_eq.mp hk with hk | hk
    · exact hkeep k hk (h.cleared k hk)
    · obtain rfl : k = col := Fin.ext hk
      exact hcol
  -- at this point, clearing the column does not change a form
  have hform : ∀ r, ((clear (exchange mid col row) col).get r).form x
      = (mid.get (Equiv.swap col row r)).form x := by
    intro r
    have hpivot := hx col (Nat.lt_succ_self _)
    rw [get_clear, if_neg (lt_irrefl col)] at hpivot
    rw [get_clear]
    split_ifs
    · rw [Equation.form_minus, hpivot, mul_zero, sub_zero, get_exchange]
    · rw [get_exchange]
  have hvanish : ∀ k : Fin n, k.val < col → (mid.get k).form x = 0 := by
    intro k hk
    have hlt : k < col := hk
    have hfixed := hform k
    rw [Equiv.swap_apply_of_ne_of_ne hlt.ne (hlt.trans_le hle).ne] at hfixed
    rw [← hfixed]
    exact hx k (Nat.lt_succ_of_lt hk)
  obtain ⟨r, hr⟩ := h.form_eq x hvanish i
  refine ⟨Equiv.swap col row r, ?_⟩
  rw [hform, Equiv.swap_apply_self, hr]

/-- **The columns up to a given one**, by induction on their number. -/
theorem treated_of_take {done : ℕ} (hdone : done ≤ n)
    (h : ((List.finRange n).take done).foldlM (eliminate sys.scale) sys = some mid) :
    sys.Treated done mid := by
  induction done generalizing mid with
  | zero =>
    obtain rfl : sys = mid := Option.some.inj h
    exact ⟨fun k hk => absurd hk (Nat.not_lt_zero _), fun x _ i => ⟨i, rfl⟩⟩
  | succ done ih =>
    have hlen : done < (List.finRange n).length := by
      rw [List.length_finRange]
      omega
    rw [List.take_succ_eq_append_getElem hlen, List.foldlM_append] at h
    obtain ⟨before, hbefore, hlast⟩ := Option.bind_eq_some_iff.mp h
    rw [List.foldlM_cons] at hlast
    obtain ⟨after, hafter, hsame⟩ := Option.bind_eq_some_iff.mp hlast
    obtain rfl : after = mid := Option.some.inj hsame
    rw [List.getElem_finRange] at hafter
    have htreated : sys.Treated (⟨done, by omega⟩ : Fin n) before := ih (by omega) hbefore
    exact htreated.eliminate sys.one_le_scale hafter

/-! ### Steady systems -/

/-- A point where all forms are small is itself small, by the given factor. -/
def Steady (sys : LinearSystem ℚ n) (T : ℚ) : Prop :=
  ∀ x ε, (∀ i, |(sys.get i).form x| ≤ ε) → ∀ j, |x.get j| ≤ T * ε

/-- All forms of a system at once, as a linear map. -/
def forms (sys : LinearSystem ℚ n) : (Fin n → ℚ) →ₗ[ℚ] Fin n → ℚ where
  toFun x i := (sys.get i).form (Vector.ofFn x)
  map_add' x y := by
    funext i
    simp only [form_get, get_ofFn, Pi.add_apply, mul_add, sum_add_distrib]
  map_smul' q x := by
    funext i
    simp only [form_get, get_ofFn, Pi.smul_apply, smul_eq_mul, RingHom.id_apply, mul_sum,
      mul_left_comm]

theorem forms_get (sys : LinearSystem ℚ n) (x : Vector ℚ n) (i : Fin n) :
    sys.forms x.get i = (sys.get i).form x := by
  show (sys.get i).form (Vector.ofFn x.get) = _
  congr 1
  exact ext_get fun j => get_ofFn _ j

/-- **A system whose forms vanish together at the origin only has exactly one solution.** -/
theorem existsUnique_of_forms (h : ∀ x : Vector ℚ n, (∀ i, (sys.get i).form x = 0) →
    ∀ j, x.get j = 0) : ∃! x, sys.Solves x := by
  have hinj : Function.Injective sys.forms := by
    rw [injective_iff_map_eq_zero]
    intro x hx
    funext j
    rw [← get_ofFn x j]
    exact h (Vector.ofFn x) (fun i => congrFun hx i) j
  obtain ⟨x, hx⟩ := LinearMap.injective_iff_surjective.mp hinj fun i => (sys.get i).rhs
  refine ⟨Vector.ofFn x, fun i => congrFun hx i, fun y hy => ext_get fun j => ?_⟩
  have hxy : y.get = x := by
    refine hinj (funext fun i => ?_)
    rw [hx, forms_get]
    exact hy i
  rw [hxy, get_ofFn]

theorem Steady.existsUnique {T : ℚ} (h : sys.Steady T) : ∃! x, sys.Solves x := by
  refine existsUnique_of_forms fun x hx j => ?_
  have hle := h x 0 (fun i => by rw [hx i, abs_zero]) j
  rw [mul_zero] at hle
  exact abs_nonpos_iff.mp hle

/-- A point, not the origin, where the forms of the first equations vanish and the coordinates
after a column do. -/
theorem exists_point (mid : LinearSystem ℚ n) (col : Fin n) :
    ∃ x : Vector ℚ n, (∃ j, x.get j ≠ 0) ∧ (∀ k, k < col → (mid.get k).form x = 0) ∧
      ∀ k, col < k → x.get k = 0 := by
  -- as many conditions as coordinates, but one of them is empty
  let conditions : (Fin n → ℚ) →ₗ[ℚ] Fin n → ℚ :=
    LinearMap.pi fun r => if r < col then LinearMap.proj r ∘ₗ mid.forms
      else if r = col then 0 else LinearMap.proj r
  have hnot : ¬Function.Surjective conditions := by
    intro hsurj
    obtain ⟨x, hx⟩ := hsurj fun _ => 1
    have hcol := congrFun hx col
    simp [conditions] at hcol
  rw [← LinearMap.injective_iff_surjective, injective_iff_map_eq_zero] at hnot
  push Not at hnot
  obtain ⟨x, hx, hne⟩ := hnot
  obtain ⟨j, hj⟩ := Function.ne_iff.mp hne
  refine ⟨Vector.ofFn x, ⟨j, by rw [get_ofFn]; exact hj⟩, fun k hk => ?_, fun k hk => ?_⟩
  · have hat := congrFun hx k
    simp only [conditions, LinearMap.pi_apply, if_pos hk] at hat
    exact hat
  · have hat := congrFun hx k
    simp only [conditions, LinearMap.pi_apply, if_neg hk.not_gt, if_neg hk.ne'] at hat
    rw [get_ofFn]
    exact hat

/-- At such a point a form still to be treated is an entry of the column times one coordinate. -/
theorem Treated.form_of_le (h : sys.Treated col mid) {x : Vector ℚ n}
    (hx : ∀ k, col < k → x.get k = 0) {r : Fin n} (hr : col ≤ r) :
    (mid.get r).form x = mid.entry r col * x.get col := by
  rw [form_get]
  refine Fintype.sum_eq_single col fun k hk => ?_
  rcases lt_or_gt_of_ne hk with hlt | hgt
  · rw [(h.cleared k hlt).below r (hlt.trans_le hr), zero_mul]
  · rw [hx k hgt, mul_zero]

/-- **No pivot of a steady system is small.** -/
theorem Steady.one_le_mul {T : ℚ} (h : sys.Steady T) (hmeets : sys.Meets col entry) :
    1 ≤ T * entry := by
  obtain ⟨mid, hmid, rfl⟩ := hmeets
  have htreated := treated_of_take col.isLt.le hmid
  obtain ⟨x, ⟨j, hj⟩, hvanish, hafter⟩ := mid.exists_point col
  have hpivot : 0 ≤ (mid.pivotIn col).2 := (abs_nonneg _).trans (mid.abs_entry_le_pivotIn le_rfl)
  have hforms : ∀ i, |(sys.get i).form x| ≤ (mid.pivotIn col).2 * |x.get col| := by
    intro i
    obtain ⟨r, hr⟩ := htreated.form_eq x (fun k hk => hvanish k hk) i
    rw [hr]
    rcases lt_or_ge r col with hlt | hge
    · rw [hvanish r hlt, abs_zero]
      exact mul_nonneg hpivot (abs_nonneg _)
    · rw [htreated.form_of_le hafter hge, abs_mul]
      exact mul_le_mul_of_nonneg_right (mid.abs_entry_le_pivotIn hge) (abs_nonneg _)
  have hsmall := h x _ hforms
  by_contra hlt
  -- the coordinate of the column would be smaller than itself, so it vanishes, and all do
  have hcol : |x.get col| = 0 := by
    have hself := hsmall col
    rw [← mul_assoc] at hself
    nlinarith [abs_nonneg (x.get col), not_le.mp hlt]
  have hzero := hsmall j
  rw [hcol, mul_zero, mul_zero] at hzero
  exact hj (abs_nonpos_iff.mp hzero)

/-- So a pivot is at least any `q` for which `T * q` is at most one. -/
theorem Steady.le_entry {T q : ℚ} (h : sys.Steady T) (hT : T * q ≤ 1)
    (hmeets : sys.Meets col entry) : q ≤ entry := by
  have hone := h.one_le_mul hmeets
  have hentry : 0 ≤ entry := by
    obtain ⟨mid, -, rfl⟩ := hmeets
    exact (abs_nonneg _).trans (mid.abs_entry_le_pivotIn le_rfl)
  have hT0 : 0 < T := pos_of_mul_pos_left (zero_lt_one.trans_le hone) hentry
  exact le_of_mul_le_mul_left (hT.trans hone) hT0

/-- **A steady system is solved** unless its factor and its scale are large together. -/
theorem Steady.exists_solve {T : ℚ} (h : sys.Steady T) (hT : T * (negligible * sys.scale) ≤ 1) :
    ∃ x, sys.solve = some x := by
  rw [← Option.ne_none_iff_exists', ne_eq, solve_eq_none_iff]
  rintro ⟨col, entry, hmeets, hsmall⟩
  exact (h.le_entry hT hmeets).not_gt hsmall

/-! ### Small entries -/

/-- **A system is measured by any bound on its entries**, unless that is below one. -/
theorem scale_le {q : ℚ} (hq : 1 ≤ q) (h : ∀ i j, |sys.entry i j| ≤ q) : sys.scale ≤ q := by
  have hfold : ∀ l : List ℚ, (∀ p ∈ l, |p| ≤ q) → ∀ best : ℚ, best ≤ q →
      l.foldl (fun best x => Scalar.larger best (Scalar.magnitude x)) best ≤ q := by
    intro l
    induction l with
    | nil => exact fun _ best hbest => hbest
    | cons p l ih =>
      intro hl best hbest
      refine ih (fun p' hp' => hl p' (List.mem_cons_of_mem p hp')) _ ?_
      show Scalar.larger best (Scalar.magnitude p) ≤ q
      rw [larger_eq_max, magnitude_eq_abs]
      exact max_le hbest (hl p List.mem_cons_self)
  rw [scale, larger_eq_max]
  refine max_le (hfold _ (fun p hp => ?_) 0 (zero_le_one.trans hq)) hq
  obtain ⟨e, he, hp⟩ := List.mem_flatMap.mp hp
  rw [toList_eq_map_get, List.mem_map] at he hp
  obtain ⟨i, -, rfl⟩ := he
  obtain ⟨j, -, rfl⟩ := hp
  exact h i j

/-- A system of entries up to one is measured by one. -/
theorem scale_eq_one (h : ∀ i j, |sys.entry i j| ≤ 1) : sys.scale = 1 :=
  (scale_le le_rfl h).antisymm sys.one_le_scale

/-- The identity less a part of a matrix of probabilities is such a system. -/
theorem abs_entry_identityMinus_le {a : Matrix ℚ n n}
    (ha : ∀ i j, 0 ≤ a.entry i j ∧ a.entry i j ≤ 1) (b : Vector ℚ n) {q : ℚ} (hq0 : 0 ≤ q)
    (hq1 : q ≤ 1) (i j : Fin n) :
    |(ofRows (a.identityMinus q) b).entry i j| ≤ 1 := by
  obtain ⟨h0, h1⟩ := ha i j
  have hprod0 : 0 ≤ q * a.entry i j := mul_nonneg hq0 h0
  have hprod1 : q * a.entry i j ≤ 1 := mul_le_one₀ hq1 h0 h1
  rw [entry_identityMinus, abs_le]
  split_ifs
  · constructor <;> linarith
  · constructor <;> linarith

/-- **When a system with entries up to one is solved**: exactly if no pivot on the way is below
`10⁻¹²`. -/
theorem exists_solve_iff (hsmall : ∀ i j, |sys.entry i j| ≤ 1) :
    (∃ x, sys.solve = some x) ↔ ∀ col entry, sys.Meets col entry → 1e-12 ≤ entry := by
  rw [← Option.ne_none_iff_exists', ne_eq, solve_eq_none_iff, scale_eq_one hsmall, mul_one]
  simp only [not_exists, not_and, not_lt]
  rfl

/-- That is so if it is steady with a factor of `10¹²` at most. -/
theorem Steady.le_of_meets {T : ℚ} (h : sys.Steady T) (hT : T ≤ 1e12)
    (hmeets : sys.Meets col entry) : 1e-12 ≤ entry := by
  refine h.le_entry ?_ hmeets
  linarith

end LinearSystem

end MarkovDecision
