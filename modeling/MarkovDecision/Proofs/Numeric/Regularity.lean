import MarkovDecision.Proofs.Numeric.Pivots

/-!
# Elimination decides regularity, up to its tolerance

A system that elimination solves has a regular matrix, and more than that can be said:
the magnitude of the determinant is the product of the pivots. An exchange of equations
turns the sign of the determinant at most, and clearing a column takes multiples of one
row from others, so no column changes its magnitude (`LinearSystem.abs_det_eliminate`);
and what is left in the end is triangular (`LinearSystem.abs_det_eq_prod`). Every pivot
has stayed above the tolerance, and the treatment of a later column does not touch it
(`LinearSystem.le_abs_diagonal`). So a matrix is refused whose determinant is below the
tolerance to the power of its size (`LinearSystem.pow_le_abs_det`), and a singular one
in particular, whatever stands on the right.

The converse has to fail for some regular matrices, since a pivot may be as small as one
likes. It holds for those that are well conditioned. If `B` is the inverse, a point where
all forms are at most `ε` has coordinates of at most `ε` times a row of `B` in magnitude,
so the system is steady (`LinearSystem.steady_of_inverse`), and steady systems have no
small pivots (`LinearSystem.exists_solve_of_inverse`).
-/

namespace MarkovDecision

open Finset

variable {n : ℕ}

namespace LinearSystem

variable {sys next tri : LinearSystem ℚ n} {col : Fin n} {scale : ℚ}

/-! ### The determinant on the way -/

/-- The determinant of the coefficients of a system. -/
def det (sys : LinearSystem ℚ n) : ℚ := (Matrix.of sys.entry).det

theorem entry_ofRows (a : Matrix ℚ n n) (b : Vector ℚ n) : (ofRows a b).entry = a.entry := by
  funext i j
  rw [entry, ofRows, get_zipWith]
  rfl

theorem det_ofRows (a : Matrix ℚ n n) (b : Vector ℚ n) :
    (ofRows a b).det = (Matrix.of a.entry).det := by
  rw [det, entry_ofRows]

theorem abs_det_exchange (sys : LinearSystem ℚ n) (i j : Fin n) :
    |det (exchange sys i j)| = |sys.det| := by
  have hrows : Matrix.of (entry (exchange sys i j))
      = (Matrix.of sys.entry).submatrix (Equiv.swap i j) id := by
    ext r k
    exact entry_exchange sys i j r k
  rw [det, hrows, Matrix.det_permute, abs_mul, abs_unit_intCast, one_mul]
  rfl

/-- Clearing a column keeps the determinant: the row of the pivot is what all others change by. -/
theorem det_clear (sys : LinearSystem ℚ n) (col : Fin n) : (sys.clear col).det = sys.det := by
  refine Matrix.det_eq_of_forall_row_eq_smul_add_const
    (fun r => if col < r then -(sys.entry r col / sys.entry col col) else 0) col
    (if_neg (lt_irrefl col)) fun r j => ?_
  simp only [Matrix.of_apply, entry_clear]
  split_ifs
  · rw [neg_mul, sub_eq_add_neg]
  · rw [zero_mul, add_zero]

/-- **One column** does not change the magnitude of the determinant. -/
theorem abs_det_eliminate (hscale : 1 ≤ scale) (h : eliminate scale sys col = some next) :
    |next.det| = |sys.det| := by
  obtain ⟨row, -, -, rfl⟩ := exists_of_eliminate hscale h
  rw [det_clear, abs_det_exchange]

/-! ### The pivots in the end -/

/-- The column that is treated has a large entry on the diagonal. -/
theorem le_abs_entry_eliminate (hscale : 1 ≤ scale) (h : eliminate scale sys col = some next) :
    negligible * scale ≤ |next.entry col col| := by
  obtain ⟨row, -, hlarge, rfl⟩ := exists_of_eliminate hscale h
  rwa [entry_clear, if_neg (lt_irrefl col), entry_exchange, Equiv.swap_apply_left]

/-- Nothing happens above the diagonal entry of the column. -/
theorem entry_eliminate_of_lt (hscale : 1 ≤ scale) (h : eliminate scale sys col = some next)
    {k : Fin n} (hk : k < col) (j : Fin n) : next.entry k j = sys.entry k j := by
  obtain ⟨row, hle, -, rfl⟩ := exists_of_eliminate hscale h
  rw [entry_clear, if_neg hk.not_gt, entry_exchange,
    Equiv.swap_apply_of_ne_of_ne hk.ne (hk.trans_le hle).ne]

/-- **No diagonal entry of the triangular form is negligible.** -/
theorem le_abs_diagonal (h : sys.triangular = some tri) (k : Fin n) :
    negligible * sys.scale ≤ |tri.entry k k| := by
  obtain ⟨hlarge, -⟩ := foldlM_eliminate_induction
    (P := fun k sys' => negligible * sys.scale ≤ |sys'.entry k k|)
    (fun hnext => le_abs_entry_eliminate sys.one_le_scale hnext)
    (fun hnext hk hbefore => by rwa [entry_eliminate_of_lt sys.one_le_scale hnext hk])
    (List.pairwise_lt_finRange n) h
  exact hlarge k (List.mem_finRange k)

/-- **The magnitude of the determinant is the product of the pivots.** -/
theorem abs_det_eq_prod (h : sys.triangular = some tri) :
    |sys.det| = ∏ k, |tri.entry k k| := by
  have hsame : |tri.det| = |sys.det| :=
    foldlM_eliminate_invariant (f := fun sys => |sys.det|)
      (fun hnext => abs_det_eliminate sys.one_le_scale hnext) h
  have hupper : (Matrix.of tri.entry).IsUpperTriangular :=
    fun r k hk => ((triangular_spec h).1 k).below r hk
  rw [← hsame, det, Matrix.det_of_isUpperTriangular hupper, abs_prod]
  rfl

/-- **A determinant below the tolerance is refused**: what is solved has a determinant as large as
if each pivot were just large enough. -/
theorem pow_le_abs_det {x : Vector ℚ n} (h : sys.solve = some x) :
    (negligible * sys.scale) ^ n ≤ |sys.det| := by
  obtain ⟨tri, htri, -⟩ := Option.bind_eq_some_iff.mp h
  calc (negligible * sys.scale) ^ n
      = ∏ _k : Fin n, negligible * sys.scale := by rw [prod_const, card_univ, Fintype.card_fin]
    _ ≤ ∏ k, |tri.entry k k| :=
      prod_le_prod (fun _ _ => (negligible_mul_pos sys.one_le_scale).le)
        fun k _ => le_abs_diagonal htri k
    _ = |sys.det| := (abs_det_eq_prod htri).symm

/-! ### Well-conditioned matrices -/

/-- **A matrix with an inverse is steady** by the largest sum of a row of the inverse. -/
theorem steady_of_inverse {a inverse : Matrix ℚ n n}
    (hinverse : Matrix.of inverse.entry * Matrix.of a.entry = 1) (b : Vector ℚ n) {T : ℚ}
    (hT : ∀ i, ∑ j, |inverse.entry i j| ≤ T) : (ofRows a b).Steady T := by
  intro x ε hforms j
  have hx : x.get j = ∑ i, inverse.entry j i * ((ofRows a b).get i).form x := by
    have hback : (Matrix.of inverse.entry).mulVec ((Matrix.of a.entry).mulVec x.get) = x.get := by
      rw [Matrix.mulVec_mulVec, hinverse, Matrix.one_mulVec]
    simp only [form_ofRows]
    exact (congrFun hback j).symm
  have hε : 0 ≤ ε := (abs_nonneg _).trans (hforms j)
  calc |x.get j| ≤ ∑ i, |inverse.entry j i * ((ofRows a b).get i).form x| := by
        rw [hx]
        exact abs_sum_le_sum_abs _ _
    _ ≤ ∑ i, |inverse.entry j i| * ε := by
        refine sum_le_sum fun i _ => ?_
        rw [abs_mul]
        exact mul_le_mul_of_nonneg_left (hforms i) (abs_nonneg _)
    _ = (∑ i, |inverse.entry j i|) * ε := (sum_mul ..).symm
    _ ≤ T * ε := mul_le_mul_of_nonneg_right (hT j) hε

/-- **A well-conditioned matrix is accepted**: the rows of its inverse are not too large, measured
by its own entries. -/
theorem exists_solve_of_inverse {a inverse : Matrix ℚ n n} (b : Vector ℚ n) {largest : ℚ}
    (hinverse : Matrix.of inverse.entry * Matrix.of a.entry = 1) (hone : 1 ≤ largest)
    (hlargest : ∀ i j, |a.entry i j| ≤ largest)
    (hrows : ∀ i, ∑ j, |inverse.entry i j| ≤ 1e12 / largest) :
    ∃ x, (ofRows a b).solve = some x := by
  refine (steady_of_inverse hinverse b hrows).exists_solve ?_
  have hscale : (ofRows a b).scale ≤ largest := by
    refine scale_le hone fun i j => ?_
    rw [entry_ofRows]
    exact hlargest i j
  have hpos : 0 < largest := zero_lt_one.trans_le hone
  calc 1e12 / largest * (negligible * (ofRows a b).scale)
      ≤ 1e12 / largest * (negligible * largest) := by
        refine mul_le_mul_of_nonneg_left ?_ (by positivity)
        exact mul_le_mul_of_nonneg_left hscale (by norm_num [negligible])
    _ = 1e12 * negligible := by field_simp
    _ ≤ 1 := by norm_num [negligible]

/-! ### What an answer means, and what a refusal means -/

/-- **Elimination is sound, and it detects singular matrices.** What it returns solves the system
that was given, and no other point does; a singular matrix is refused with every right-hand side.
A regular one is not refused if its largest entry, or one, times the largest row sum of its inverse
is at most `10¹²`. -/
theorem elimination_sound (a : Matrix ℚ n n) (b : Vector ℚ n) :
    (∀ x, (ofRows a b).solve = some x →
      (Matrix.of a.entry).mulVec x.get = b.get ∧
        ∀ y : Vector ℚ n, (Matrix.of a.entry).mulVec y.get = b.get → y = x) ∧
    ((Matrix.of a.entry).det = 0 → (ofRows a b).solve = none) ∧
    ∀ (inverse : Matrix ℚ n n) (largest : ℚ),
      Matrix.of inverse.entry * Matrix.of a.entry = 1 →
      1 ≤ largest → (∀ i j, |a.entry i j| ≤ largest) →
      (∀ i, ∑ j, |inverse.entry i j| ≤ 1e12 / largest) →
      ∃ x, (ofRows a b).solve = some x := by
  refine ⟨fun x hx => ⟨?_, fun y hy => ?_⟩, fun hsingular => ?_, ?_⟩
  · exact solves_ofRows_iff.mp (solves_of_solve hx)
  · exact eq_of_solve hx (solves_ofRows_iff.mpr hy)
  · rw [Option.eq_none_iff_forall_ne_some]
    intro x hx
    -- what is solved has a determinant above a positive bound
    have hpos : 0 < (negligible * (ofRows a b).scale) ^ n :=
      pow_pos (negligible_mul_pos (one_le_scale _)) n
    have hdet := hpos.trans_le (pow_le_abs_det hx)
    rw [det_ofRows, hsingular, abs_zero] at hdet
    exact lt_irrefl 0 hdet
  · exact fun inverse largest => exists_solve_of_inverse b

/-- A matrix whose first column has its only entry in the second row. -/
def staggered : Matrix ℚ 3 3 := #v[#v[0, 2, 1], #v[1, 1, 0], #v[0, 1, 1]]

/-- The inverse of that matrix. -/
def unstaggered : Matrix ℚ 3 3 := #v[#v[-1, 1, 1], #v[1, 0, -1], #v[-1, 0, 2]]

/-- A matrix whose last row is the sum of the others. -/
def dependent : Matrix ℚ 3 3 := #v[#v[0, 1, 2], #v[1, 1, 1], #v[1, 2, 3]]

/-- The first system needs exchanges and is solved; the second one has many solutions. -/
theorem elimination_sound_staggered :
    ((ofRows staggered #v[4, 3, 3]).solve = some #v[2, 1, 2] ∧
      (Matrix.of staggered.entry).mulVec (#v[2, 1, 2] : Vector ℚ 3).get
        = (#v[4, 3, 3] : Vector ℚ 3).get ∧
      ∀ y : Vector ℚ 3, (Matrix.of staggered.entry).mulVec y.get = (#v[4, 3, 3] : Vector ℚ 3).get →
        y = #v[2, 1, 2]) ∧
    ((Matrix.of dependent.entry).det = 0 ∧ (ofRows dependent #v[3, 3, 6]).solve = none) ∧
    Matrix.of unstaggered.entry * Matrix.of staggered.entry = 1 ∧
      (∀ i j, |staggered.entry i j| ≤ 2) ∧ (∀ i, ∑ j, |unstaggered.entry i j| ≤ 1e12 / 2) ∧
      ∃ x, (ofRows staggered #v[4, 3, 3]).solve = some x := by
  have hsolve : (ofRows staggered #v[4, 3, 3]).solve = some #v[2, 1, 2] := by decide +kernel
  have hdet : (Matrix.of dependent.entry).det = 0 := by
    rw [Matrix.det_fin_three]
    decide +kernel
  have hinverse : Matrix.of unstaggered.entry * Matrix.of staggered.entry = 1 := by decide +kernel
  have hlargest : ∀ i j, |staggered.entry i j| ≤ 2 := by decide +kernel
  have hrows : ∀ i, ∑ j, |unstaggered.entry i j| ≤ 1e12 / 2 := by decide +kernel
  obtain ⟨hsound, -, hanswered⟩ := elimination_sound staggered #v[4, 3, 3]
  obtain ⟨hproduct, honly⟩ := hsound _ hsolve
  exact ⟨⟨hsolve, hproduct, honly⟩, ⟨hdet, (elimination_sound dependent #v[3, 3, 6]).2.1 hdet⟩,
    hinverse, hlargest, hrows, hanswered unstaggered 2 hinverse one_le_two hlargest hrows⟩

end LinearSystem

end MarkovDecision
