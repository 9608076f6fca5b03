import MarkovDecision.Proofs.Arithmetic

/-!
# Elimination finds solutions

An equation holds of a point when its form has the value of its right-hand side,
and every move of an elimination keeps what holds: taking a multiple of one
equation from another changes nothing about the points where both hold
(`Equation.holds_minus_iff`), nor does an exchange.

Each column that is treated leaves its diagonal entry non-zero and nothing below
it (`LinearSystem.Cleared`), and the columns treated before it as they were. Both are
facts about one column (`LinearSystem.eliminate_spec`), and what every column leaves
behind and no later one spoils is there in the end
(`LinearSystem.foldlM_eliminate_induction`). The pivot is non-zero because one that is
not negligible is positive in magnitude, the scale being at least one. What is left is
triangular, and reading off the unknowns from the last one backwards solves it, since an
unknown depends on later ones only (`LinearSystem.unknown_congr`). For the same
reason there is no other solution (`LinearSystem.eq_of_solve`).
-/

namespace MarkovDecision

open Finset

variable {n : ℕ}

/-! ### Equations -/

namespace Equation

/-- The value of the linear form of an equation at a point. -/
def form (e : Equation ℚ n) (x : Vector ℚ n) : ℚ := ∑ j, e.coeffs.get j * x.get j

/-- An equation holds of a point. -/
def Holds (e : Equation ℚ n) (x : Vector ℚ n) : Prop := e.form x = e.rhs

variable {e p : Equation ℚ n} {f : ℚ} {x : Vector ℚ n}

@[simp] theorem get_coeffs_minus (j : Fin n) :
    (e.minus f p).coeffs.get j = e.coeffs.get j - f * p.coeffs.get j :=
  get_zipWith _ _ _ j

@[simp] theorem rhs_minus : (e.minus f p).rhs = e.rhs - f * p.rhs := rfl

@[simp] theorem get_coeffs_dividedBy (q : ℚ) (j : Fin n) :
    (e.dividedBy q).coeffs.get j = e.coeffs.get j / q :=
  get_map _ _ j

/-- Taking nothing from an equation leaves it as it is. -/
theorem minus_zero (e p : Equation ℚ n) : e.minus 0 p = e := by
  have hcoeffs : (e.minus 0 p).coeffs = e.coeffs := ext_get fun j => by simp
  have hrhs : (e.minus 0 p).rhs = e.rhs := by simp
  cases e
  exact congrArg₂ Equation.mk hcoeffs hrhs

theorem form_minus : (e.minus f p).form x = e.form x - f * p.form x := by
  simp only [form, get_coeffs_minus, sub_mul, sum_sub_distrib, mul_sum, mul_assoc]

/-- **Taking a multiple of an equation that holds from another one** changes nothing about whether
the other holds. -/
theorem holds_minus_iff (hp : p.Holds x) : (e.minus f p).Holds x ↔ e.Holds x := by
  rw [Holds, form_minus, rhs_minus, show p.form x = p.rhs from hp, sub_left_inj]
  rfl

end Equation

/-! ### Moves of an elimination -/

theorem get_exchange {α : Type} (v : Vector α n) (i j k : Fin n) :
    (exchange v i j).get k = v.get (Equiv.swap i j k) := by
  rw [exchange, get_replaceAt, get_replaceAt]
  split_ifs with hj hi
  · rw [← hj, Equiv.swap_apply_right]
  · rw [← hi, Equiv.swap_apply_left]
  · rw [Equiv.swap_apply_of_ne_of_ne (Ne.symm hi) (Ne.symm hj)]

namespace LinearSystem

/-- All equations of a system hold of a point. -/
def Solves (sys : LinearSystem ℚ n) (x : Vector ℚ n) : Prop := ∀ i, (sys.get i).Holds x

/-- The coefficient of an unknown in an equation. -/
def entry (sys : LinearSystem ℚ n) (i j : Fin n) : ℚ := (sys.get i).coeffs.get j

theorem form_get (sys : LinearSystem ℚ n) (i : Fin n) (x : Vector ℚ n) :
    (sys.get i).form x = ∑ j, sys.entry i j * x.get j := rfl

theorem solves_exchange_iff {sys : LinearSystem ℚ n} {x : Vector ℚ n} (i j : Fin n) :
    Solves (exchange sys i j) x ↔ sys.Solves x := by
  simp only [Solves, get_exchange]
  exact (Equiv.swap i j).forall_congr_right (q := fun k => (sys.get k).Holds x)

/-- An equation below the diagonal loses its entry in the column, the others stay. -/
theorem get_clear (sys : LinearSystem ℚ n) (col r : Fin n) :
    (sys.clear col).get r =
      if col < r then (sys.get r).minus (sys.entry r col / sys.entry col col) (sys.get col)
      else sys.get r := by
  simp only [clear, get_ofFn, entry, beq_iff_eq]
  split_ifs with hlt hzero
  · rw [hzero, Equation.minus_zero]
  · rfl
  · rfl

theorem solves_clear_iff {sys : LinearSystem ℚ n} {x : Vector ℚ n} (col : Fin n) :
    (sys.clear col).Solves x ↔ sys.Solves x := by
  have hpivot : (sys.clear col).get col = sys.get col := by
    rw [get_clear, if_neg (lt_irrefl col)]
  constructor <;> intro h r
  · have hcol : (sys.get col).Holds x := hpivot ▸ h col
    have hr := h r
    rw [get_clear] at hr
    split_ifs at hr
    · exact (Equation.holds_minus_iff hcol).mp hr
    · exact hr
  · rw [get_clear]
    split_ifs
    · exact (Equation.holds_minus_iff (h col)).mpr (h r)
    · exact h r

/-- **The entries after a column has been cleared.** -/
theorem entry_clear (sys : LinearSystem ℚ n) (col r j : Fin n) :
    (sys.clear col).entry r j =
      if col < r then sys.entry r j - sys.entry r col / sys.entry col col * sys.entry col j
      else sys.entry r j := by
  rw [entry, get_clear]
  split_ifs
  · exact Equation.get_coeffs_minus j
  · rfl

/-! ### The pivot -/

/-- The largest entry counts for one at least. -/
theorem one_le_scale (sys : LinearSystem ℚ n) : 1 ≤ sys.scale := by
  simp only [scale, Scalar.larger, Scalar.isNumber, beq_self_eq_true, if_true]
  split_ifs with h
  · exact le_rfl
  · exact not_lt.mp h

theorem magnitude_eq_abs (x : ℚ) : Scalar.magnitude x = |x| := by
  rw [Scalar.magnitude]
  split_ifs with h
  · rw [abs_of_neg h]
  · rw [abs_of_nonneg (not_lt.mp h)]

/-- **The pivot stands at or below the diagonal**, and its magnitude comes with it. -/
theorem pivotIn_spec (sys : LinearSystem ℚ n) (col : Fin n) (h : 0 < (sys.pivotIn col).2) :
    col ≤ (sys.pivotIn col).1 ∧ (sys.pivotIn col).2 = |sys.entry (sys.pivotIn col).1 col| := by
  -- the best so far is at or below the diagonal, and if positive it is a magnitude
  have hinv : ∀ l : List (Fin n), ∀ best : Fin n × ℚ,
      (col ≤ best.1 ∧ (0 < best.2 → best.2 = |sys.entry best.1 col|)) →
      (∀ r ∈ l, col ≤ r) →
      let last := l.foldl (fun best r =>
        let entry := Scalar.magnitude ((sys.get r).coeffs.get col)
        if best.2 < entry then (r, entry) else best) best
      col ≤ last.1 ∧ (0 < last.2 → last.2 = |sys.entry last.1 col|) := by
    intro l
    induction l with
    | nil => exact fun best hbest _ => hbest
    | cons r l ih =>
      intro best hbest hl
      refine ih _ ?_ fun r' hr' => hl r' (List.mem_cons_of_mem r hr')
      dsimp only
      split_ifs
      · exact ⟨hl r List.mem_cons_self, fun _ => magnitude_eq_abs _⟩
      · exact hbest
  obtain ⟨hle, habs⟩ := hinv ((List.finRange n).filter (col ≤ ·)) (col, -1)
    ⟨le_rfl, fun hpos => absurd hpos (by norm_num)⟩
    (fun r hr => by simpa using (List.mem_filter.mp hr).2)
  exact ⟨hle, habs h⟩

/-- What is not negligible is positive, because the scale is at least one. -/
theorem negligible_mul_pos {scale : ℚ} (hscale : 1 ≤ scale) : 0 < negligible * scale :=
  mul_pos (by norm_num [negligible]) (zero_lt_one.trans_le hscale)

/-- **What treating a column does**, if it is not given up. -/
theorem exists_of_eliminate {scale : ℚ} (hscale : 1 ≤ scale) {sys next : LinearSystem ℚ n}
    {col : Fin n} (h : eliminate scale sys col = some next) :
    ∃ row, col ≤ row ∧ negligible * scale ≤ |sys.entry row col| ∧
      next = clear (exchange sys col row) col := by
  simp only [eliminate] at h
  split_ifs at h with hsmall
  have hlarge := not_lt.mp hsmall
  obtain ⟨hle, habs⟩ := sys.pivotIn_spec col ((negligible_mul_pos hscale).trans_le hlarge)
  exact ⟨_, hle, habs ▸ hlarge, (Option.some.inj h).symm⟩

/-! ### The triangular form -/

/-- A column that has been treated: its diagonal entry is not zero, and those below it are. -/
structure Cleared (sys : LinearSystem ℚ n) (col : Fin n) : Prop where
  /-- The diagonal entry can be divided by. -/
  diagonal : sys.entry col col ≠ 0
  /-- There is nothing below the diagonal. -/
  below : ∀ r, col < r → sys.entry r col = 0

theorem entry_exchange (sys : LinearSystem ℚ n) (i j r k : Fin n) :
    entry (exchange sys i j) r k = sys.entry (Equiv.swap i j r) k := by
  rw [entry, get_exchange, entry]

/-- The column that is treated is cleared. -/
theorem cleared_clear {sys : LinearSystem ℚ n} {col : Fin n} (h : sys.entry col col ≠ 0) :
    (sys.clear col).Cleared col where
  diagonal := by rwa [entry_clear, if_neg (lt_irrefl col)]
  below r hr := by rw [entry_clear, if_pos hr, div_mul_cancel₀ _ h, sub_self]

/-- A column treated before stays as it is, since it has nothing in the equations at or below the
diagonal of this one. -/
theorem Cleared.clear {sys : LinearSystem ℚ n} {k col : Fin n} (hk : k < col)
    (h : sys.Cleared k) : (sys.clear col).Cleared k where
  diagonal := by
    rw [entry_clear, if_neg hk.not_gt]
    exact h.diagonal
  below r hr := by
    rw [entry_clear]
    split_ifs
    · rw [h.below r hr, h.below col hk, mul_zero, sub_zero]
    · exact h.below r hr

/-- Neither does an exchange of equations further down change anything about it. -/
theorem Cleared.exchange {sys : LinearSystem ℚ n} {k i j : Fin n} (hi : k < i) (hj : k < j)
    (h : sys.Cleared k) : LinearSystem.Cleared (exchange sys i j) k where
  diagonal := by
    rw [entry_exchange, Equiv.swap_apply_of_ne_of_ne hi.ne hj.ne]
    exact h.diagonal
  below r hr := by
    rw [entry_exchange]
    refine h.below _ ?_
    rw [Equiv.swap_apply_def]
    split_ifs
    · exact hj
    · exact hi
    · exact hr

/-- **One column**: it is cleared, those before it stay cleared, and the solutions are the same. -/
theorem eliminate_spec {scale : ℚ} (hscale : 1 ≤ scale) {sys next : LinearSystem ℚ n}
    {col : Fin n} (h : eliminate scale sys col = some next) :
    next.Cleared col ∧ (∀ k, k < col → sys.Cleared k → next.Cleared k) ∧
      ∀ x, next.Solves x ↔ sys.Solves x := by
  obtain ⟨row, hle, hlarge, rfl⟩ := exists_of_eliminate hscale h
  refine ⟨cleared_clear ?_, fun k hk hcleared => ?_, fun x => ?_⟩
  · rw [entry_exchange, Equiv.swap_apply_left]
    exact abs_pos.mp ((negligible_mul_pos hscale).trans_le hlarge)
  · exact (hcleared.exchange hk (hk.trans_le hle)).clear hk
  · rw [solves_clear_iff, solves_exchange_iff]

/-- **What every column leaves behind and no later one spoils** is there for all columns of a list
in order. -/
theorem foldlM_eliminate_induction {scale : ℚ} {P : Fin n → LinearSystem ℚ n → Prop}
    (hnew : ∀ {sys next col}, eliminate scale sys col = some next → P col next)
    (hold : ∀ {sys next col k}, eliminate scale sys col = some next → k < col → P k sys → P k next)
    {l : List (Fin n)} (hl : l.Pairwise (· < ·)) {sys last : LinearSystem ℚ n}
    (h : l.foldlM (eliminate scale) sys = some last) :
    (∀ k ∈ l, P k last) ∧ ∀ k, (∀ col ∈ l, k < col) → P k sys → P k last := by
  induction l generalizing sys with
  | nil =>
    obtain rfl : sys = last := Option.some.inj h
    exact ⟨fun k hk => absurd hk List.not_mem_nil, fun _ _ hk => hk⟩
  | cons col l ih =>
    rw [List.foldlM_cons] at h
    obtain ⟨next, hnext, hlast⟩ := Option.bind_eq_some_iff.mp h
    obtain ⟨hfirst, hrest⟩ := List.pairwise_cons.mp hl
    obtain ⟨hcols, hkeeps⟩ := ih hrest hlast
    refine ⟨fun k hk => ?_, fun k hk hsys => ?_⟩
    · rcases List.mem_cons.mp hk with rfl | hk
      · exact hkeeps k hfirst (hnew hnext)
      · exact hcols k hk
    · refine hkeeps k (fun c hc => hk c (List.mem_cons_of_mem col hc)) ?_
      exact hold hnext (hk col List.mem_cons_self) hsys

/-- **What no column changes** is the same after any number of them. -/
theorem foldlM_eliminate_invariant {β : Type} {scale : ℚ} {f : LinearSystem ℚ n → β}
    (hf : ∀ {sys next col}, eliminate scale sys col = some next → f next = f sys)
    {l : List (Fin n)} {sys last : LinearSystem ℚ n}
    (h : l.foldlM (eliminate scale) sys = some last) : f last = f sys := by
  induction l generalizing sys with
  | nil =>
    obtain rfl : sys = last := Option.some.inj h
    rfl
  | cons col l ih =>
    rw [List.foldlM_cons] at h
    obtain ⟨next, hnext, hlast⟩ := Option.bind_eq_some_iff.mp h
    exact (ih hlast).trans (hf hnext)

/-- **The triangular form** is cleared in every column and has the same solutions. -/
theorem triangular_spec {sys tri : LinearSystem ℚ n} (h : sys.triangular = some tri) :
    (∀ k, tri.Cleared k) ∧ ∀ x, tri.Solves x ↔ sys.Solves x := by
  obtain ⟨hcleared, -⟩ := foldlM_eliminate_induction
    (fun hnext => (eliminate_spec sys.one_le_scale hnext).1)
    (fun hnext hk => (eliminate_spec sys.one_le_scale hnext).2.1 _ hk)
    (List.pairwise_lt_finRange n) h
  have hsame : {x | tri.Solves x} = {x | sys.Solves x} :=
    foldlM_eliminate_invariant (f := fun sys => {x | sys.Solves x})
      (fun hnext => Set.ext (eliminate_spec sys.one_le_scale hnext).2.2) h
  exact ⟨fun k => hcleared k (List.mem_finRange k), fun x => Set.ext_iff.mp hsame x⟩

/-! ### The unknowns -/

theorem foldl_sub_eq {α : Type} (l : List α) (f : α → ℚ) (q : ℚ) :
    l.foldl (fun acc k => acc - f k) q = q - (l.map f).sum := by
  induction l generalizing q with
  | nil => simp
  | cons a l ih => rw [List.foldl_cons, ih, List.map_cons, List.sum_cons, sub_add_eq_sub_sub]

theorem unknown_eq (sys : LinearSystem ℚ n) (x : Vector ℚ n) (r : Fin n) :
    sys.unknown x r
      = ((sys.get r).rhs - ∑ k with r < k, sys.entry r k * x.get k) / sys.entry r r := by
  have hnodup : ((List.finRange n).filter (r < ·)).Nodup := (List.nodup_finRange n).filter _
  have hset : ((List.finRange n).filter (r < ·)).toFinset = univ.filter (r < ·) := by
    ext k
    simp
  rw [unknown, foldl_sub_eq, ← hset, List.sum_toFinset _ hnodup]
  rfl

/-- **An unknown depends on later ones only.** -/
theorem unknown_congr {sys : LinearSystem ℚ n} {x y : Vector ℚ n} {r : Fin n}
    (h : ∀ k, r < k → x.get k = y.get k) : sys.unknown x r = sys.unknown y r := by
  rw [unknown_eq, unknown_eq]
  congr 2
  refine sum_congr rfl fun k hk => ?_
  rw [h k (mem_filter.mp hk).2]

/-- **An equation of a triangular system** says what its diagonal unknown is. -/
theorem holds_iff_eq_unknown {sys : LinearSystem ℚ n} (hsys : ∀ k, sys.Cleared k)
    (x : Vector ℚ n) (r : Fin n) : (sys.get r).Holds x ↔ x.get r = sys.unknown x r := by
  have hsplit : (sys.get r).form x
      = sys.entry r r * x.get r + ∑ k with r < k, sys.entry r k * x.get k := by
    -- before the diagonal there is nothing, since those columns are cleared
    have hbefore : ∑ k with ¬r < k, sys.entry r k * x.get k = sys.entry r r * x.get r := by
      refine sum_eq_single_of_mem r (by simp) fun k hk hne => ?_
      have hlt : k < r := lt_of_le_of_ne (not_lt.mp (mem_filter.mp hk).2) hne
      rw [(hsys k).below r hlt, zero_mul]
    rw [Equation.form, ← sum_filter_add_sum_filter_not univ (r < ·), add_comm]
    exact congrArg (· + _) hbefore
  rw [Equation.Holds, hsplit, unknown_eq, eq_div_iff (hsys r).diagonal, eq_sub_iff_add_eq,
    mul_comm]

/-- **Reading off backwards** makes every unknown of a list in order what its equation says. -/
theorem foldr_unknown_spec (sys : LinearSystem ℚ n) {l : List (Fin n)}
    (hl : l.Pairwise (· < ·)) (x₀ : Vector ℚ n) :
    let x := l.foldr (fun r x => replaceAt x r (sys.unknown x r)) x₀
    ∀ r ∈ l, x.get r = sys.unknown x r := by
  induction l with
  | nil => exact fun r hr => absurd hr List.not_mem_nil
  | cons first l ih =>
    obtain ⟨hfirst, hrest⟩ := List.pairwise_cons.mp hl
    intro x r hr
    -- replacing the first unknown of the list is not seen by an equation further down
    have hlater : ∀ r, first ≤ r → sys.unknown x r =
        sys.unknown (l.foldr (fun r x => replaceAt x r (sys.unknown x r)) x₀) r := by
      intro r hle
      refine unknown_congr fun k hk => ?_
      rw [show x = replaceAt _ _ _ from List.foldr_cons .., get_replaceAt,
        if_neg (hle.trans_lt hk).ne]
    rw [hlater r]
    · rw [show x = replaceAt _ _ _ from List.foldr_cons .., get_replaceAt]
      split_ifs with heq
      · rw [heq]
      · exact ih hrest r ((List.mem_cons.mp hr).resolve_left (Ne.symm heq))
    · rcases List.mem_cons.mp hr with rfl | hr
      · exact le_rfl
      · exact (hfirst r hr).le

/-- Reading off the unknowns solves a triangular system. -/
theorem solves_backSubstitute {sys : LinearSystem ℚ n} (hsys : ∀ k, sys.Cleared k) :
    sys.Solves sys.backSubstitute := fun r =>
  (holds_iff_eq_unknown hsys _ r).mpr
    (sys.foldr_unknown_spec (List.pairwise_lt_finRange n) _ r (List.mem_finRange r))

/-- **What elimination returns is a solution.** -/
theorem solves_of_solve {sys : LinearSystem ℚ n} {x : Vector ℚ n} (h : sys.solve = some x) :
    sys.Solves x := by
  obtain ⟨tri, htri, hx⟩ := Option.bind_eq_some_iff.mp h
  obtain ⟨hcleared, hsame⟩ := triangular_spec htri
  dsimp only at hx
  split_ifs at hx
  obtain rfl : tri.backSubstitute = x := Option.some.inj hx
  exact (hsame _).mp (solves_backSubstitute hcleared)

/-- **A triangular system has one solution**: the last unknown is settled, and with it the one
before. -/
theorem eq_of_cleared {sys : LinearSystem ℚ n} {x y : Vector ℚ n} (hsys : ∀ k, sys.Cleared k)
    (hx : sys.Solves x) (hy : sys.Solves y) : x = y := by
  refine ext_get fun r => ?_
  induction r using WellFoundedGT.induction with
  | ind r ih =>
    rw [(holds_iff_eq_unknown hsys x r).mp (hx r), (holds_iff_eq_unknown hsys y r).mp (hy r)]
    exact unknown_congr ih

/-- **What elimination returns is the only solution.** -/
theorem eq_of_solve {sys : LinearSystem ℚ n} {x y : Vector ℚ n} (h : sys.solve = some x)
    (hy : sys.Solves y) : y = x := by
  obtain ⟨tri, htri, -⟩ := Option.bind_eq_some_iff.mp h
  obtain ⟨hcleared, hsame⟩ := triangular_spec htri
  exact eq_of_cleared hcleared ((hsame y).mpr hy) ((hsame x).mpr (solves_of_solve h))

theorem entry_identityMinus (a : Matrix ℚ n n) (b : Vector ℚ n) (q : ℚ) (i j : Fin n) :
    (ofRows (a.identityMinus q) b).entry i j = (if i = j then 1 else 0) - q * a.entry i j := by
  simp only [entry, ofRows, Matrix.identityMinus, get_zipWith, get_ofFn]
  split_ifs <;> ring

/-- The forms of the identity less a multiple of a matrix. -/
theorem form_identityMinus (a : Matrix ℚ n n) (b : Vector ℚ n) (q : ℚ) (y : Vector ℚ n)
    (i : Fin n) :
    ((ofRows (a.identityMinus q) b).get i).form y = y.get i - q * (a.apply y).get i := by
  have hterm : ∀ j, (ofRows (a.identityMinus q) b).entry i j * y.get j
      = (if i = j then y.get j else 0) - q * (a.entry i j * y.get j) := by
    intro j
    rw [entry_identityMinus, sub_mul, ite_mul, one_mul, zero_mul, mul_assoc]
  rw [form_get, sum_congr rfl fun j _ => hterm j, sum_sub_distrib, sum_ite_eq,
    if_pos (mem_univ i), get_apply, mul_sum]

/-- **A fixed point as a solution**: the system of the identity less a multiple of a matrix. -/
theorem solves_identityMinus_iff (a : Matrix ℚ n n) (b : Vector ℚ n) (q : ℚ) (y : Vector ℚ n) :
    (ofRows (a.identityMinus q) b).Solves y ↔ ∀ i, y.get i = q * (a.apply y).get i + b.get i := by
  have hrhs : ∀ i, ((ofRows (a.identityMinus q) b).get i).rhs = b.get i := by
    intro i
    rw [ofRows, get_zipWith]
  simp only [Solves, Equation.Holds, form_identityMinus, hrhs, sub_eq_iff_eq_add']

/-! ### Regular matrices -/

theorem form_ofRows (a : Matrix ℚ n n) (b x : Vector ℚ n) (i : Fin n) :
    ((ofRows a b).get i).form x = (Matrix.of a.entry).mulVec x.get i := by
  rw [ofRows, get_zipWith]
  rfl

/-- A system in the language of matrices. -/
theorem solves_ofRows_iff {a : Matrix ℚ n n} {b x : Vector ℚ n} :
    (ofRows a b).Solves x ↔ (Matrix.of a.entry).mulVec x.get = b.get := by
  rw [funext_iff]
  refine forall_congr' fun i => ?_
  rw [Equation.Holds, form_ofRows, ofRows, get_zipWith]

/-- **A matrix is regular if one of its systems has exactly one solution**: two points with the
same image, taken from each other, can be added to that solution. -/
theorem isUnit_of_existsUnique {a : Matrix ℚ n n} {b : Vector ℚ n}
    (h : ∃! x, (ofRows a b).Solves x) : IsUnit (Matrix.of a.entry) := by
  obtain ⟨x, hx, hunique⟩ := h
  rw [← Matrix.mulVec_injective_iff_isUnit]
  intro v w hvw
  have hmoved : (ofRows a b).Solves (Vector.ofFn (x.get + (v - w))) := by
    have hget : (Vector.ofFn (x.get + (v - w))).get = x.get + (v - w) := funext (get_ofFn _)
    rw [solves_ofRows_iff, hget, Matrix.mulVec_add, Matrix.mulVec_sub, hvw, sub_self, add_zero]
    exact solves_ofRows_iff.mp hx
  funext i
  have hi := congrArg (fun y : Vector ℚ n => y.get i) (hunique _ hmoved)
  rw [get_ofFn, Pi.add_apply, Pi.sub_apply] at hi
  linarith

end LinearSystem

end MarkovDecision
