import MarkovDecision.Proofs.Simulation.Course

/-!
# The share of a target

A target is drawn by walking along a row until the probabilities add up to the draw,
and a draw is one of `2 ^ 53` equally spaced points of the unit interval, zero among
them and one not. So every target owns an interval of the unit interval, and its share
of the draws is the number of points in there. This module says that the share is what
the probability asks for, up to one draw (`Model.abs_share_sub_le`).

In exact arithmetic the probabilities of a row add up to one, which no draw exceeds, so
that the walk always ends because it has come far enough: at the first target with
positive probability where the sum reaches the draw (`isLeast_sampleTarget`). The
comparison is a weak one. A target therefore owns the upper end of its interval and not
the lower one – except that the first target of a row owns zero as well, which nothing
else would. A point too many at the beginning is made up for at the end, where the one
is missing; and in between the two ends of an interval are rounded in the same
direction. Hence both ends, counted in points, are off by at most one and never to the
left (`abs_card_sub_le`), and the errors cannot add up.
-/

namespace MarkovDecision

open Finset

variable {n : ℕ} {row : Vector ℚ n} {u : ℚ} {source t : Fin n}

/-! ### Where the walk ends -/

/-- The probabilities in front of a target, added up. -/
def sumBefore (row : Vector ℚ n) (t : Fin n) : ℚ := ∑ r ∈ Iio t, row.get r

theorem sumBefore_nonneg (h0 : ∀ r, 0 ≤ row.get r) (t : Fin n) : 0 ≤ sumBefore row t :=
  sum_nonneg fun r _ => h0 r

/-- The sum up to a target. -/
theorem sumBefore_add (row : Vector ℚ n) (t : Fin n) :
    sumBefore row t + row.get t = ∑ r ∈ Iic t, row.get r := by
  rw [sumBefore, ← Iio_insert, sum_insert (by simp), add_comm]

/-- The sum in front of a target contains those up to the targets before it. -/
theorem add_le_sumBefore (h0 : ∀ r, 0 ≤ row.get r) {r : Fin n} (hr : r < t) :
    sumBefore row r + row.get r ≤ sumBefore row t := by
  rw [sumBefore_add]
  refine sum_le_sum_of_subset_of_nonneg (fun x hx => ?_) fun x _ _ => h0 x
  rw [mem_Iic] at hx
  exact mem_Iio.mpr (hx.trans_lt hr)

/-- Where nothing is positive, nothing is added. -/
theorem sum_map_nonpos {l : List (Fin n)} (h : ∀ r ∈ l, row.get r ≤ 0) :
    (l.map row.get).sum ≤ 0 := by
  refine (List.sum_le_card_nsmul _ 0 fun x hx => ?_).trans (nsmul_zero _).le
  obtain ⟨r, hr, rfl⟩ := List.mem_map.mp hx
  exact h r hr

/-- **The walk along a list** that is long enough ends at a target of positive probability where
the sum has reached the draw; and if anything had been added before, it had not. -/
theorem walk_spec (h0 : ∀ r, 0 ≤ row.get r) (sum : ℚ) (last : Fin n) {l : List (Fin n)}
    (hu : u ≤ sum + (l.map row.get).sum) (hpos : ∃ r ∈ l, 0 < row.get r) :
    ∃ front back, l = front ++ walk row u sum last l :: back ∧
      0 < row.get (walk row u sum last l) ∧
      u ≤ sum + (front.map row.get).sum + row.get (walk row u sum last l) ∧
      ((∃ r ∈ front, 0 < row.get r) → sum + (front.map row.get).sum < u) := by
  induction l generalizing sum last with
  | nil =>
    obtain ⟨r, hr, -⟩ := hpos
    exact absurd hr List.not_mem_nil
  | cons x rest ih =>
    rw [List.map_cons, List.sum_cons] at hu
    rw [walk]
    dsimp only
    split_ifs with hx hreached
    · exact ⟨[], rest, rfl, hx, by simpa using hreached, by simp⟩
    · -- the draw is still ahead, and so is something to come to it with
      have hahead : ∃ r ∈ rest, 0 < row.get r := by
        by_contra! hnone
        linarith [sum_map_nonpos hnone]
      obtain ⟨front, back, hl, hwalk, hle, hlt⟩ := ih (sum + row.get x) x (by linarith) hahead
      refine ⟨x :: front, back, congrArg (x :: ·) hl, hwalk, ?_, fun _ => ?_⟩
      · rw [List.map_cons, List.sum_cons]
        linarith
      · rw [List.map_cons, List.sum_cons]
        by_cases hfront : ∃ r ∈ front, 0 < row.get r
        · linarith [hlt hfront]
        · push Not at hfront
          linarith [sum_map_nonpos hfront]
    · have hzero : row.get x = 0 := le_antisymm (not_lt.mp hx) (h0 x)
      have hahead : ∃ r ∈ rest, 0 < row.get r := by
        obtain ⟨r, hr, hrpos⟩ := hpos
        rcases List.mem_cons.mp hr with rfl | hr
        · exact absurd hrpos hx
        · exact ⟨r, hr, hrpos⟩
      obtain ⟨front, back, hl, hwalk, hle, hlt⟩ := ih sum last (by linarith) hahead
      refine ⟨x :: front, back, congrArg (x :: ·) hl, hwalk, ?_, fun hfront => ?_⟩
      · rw [List.map_cons, List.sum_cons, hzero, zero_add]
        exact hle
      · rw [List.map_cons, List.sum_cons, hzero, zero_add]
        obtain ⟨r, hr, hrpos⟩ := hfront
        rcases List.mem_cons.mp hr with rfl | hr
        · exact absurd hrpos hx
        · exact hlt ⟨r, hr, hrpos⟩

/-- What stands in front of a target in the list of all. -/
theorem sum_map_of_finRange (row : Vector ℚ n) {front back : List (Fin n)}
    (h : List.finRange n = front ++ t :: back) : (front.map row.get).sum = sumBefore row t := by
  have hsorted : (front ++ t :: back).Pairwise (· < ·) := h ▸ List.pairwise_lt_finRange n
  obtain ⟨hfront, hback, hcross⟩ := List.pairwise_append.mp hsorted
  have hset : front.toFinset = Iio t := by
    ext r
    rw [List.mem_toFinset, mem_Iio]
    refine ⟨fun hr => hcross r hr t List.mem_cons_self, fun hr => ?_⟩
    have hall : r ∈ front ++ t :: back := h ▸ List.mem_finRange r
    rcases List.mem_append.mp hall with hr' | hr'
    · exact hr'
    rcases List.mem_cons.mp hr' with rfl | hr'
    · exact absurd hr (lt_irrefl r)
    · exact absurd ((List.pairwise_cons.mp hback).1 r hr') hr.not_gt
  rw [sumBefore, ← hset, List.sum_toFinset row.get (hfront.imp ne_of_lt)]

/-- The targets at which a walk may end: their probability is positive, and the sum up to them
reaches the draw. -/
def reaching (row : Vector ℚ n) (u : ℚ) : Set (Fin n) :=
  {t | 0 < row.get t ∧ u ≤ ∑ r ∈ Iic t, row.get r}

/-- A target is the first of these if the sum in front of it falls short of the draw, or is zero. -/
theorem isLeast_reaching (h0 : ∀ r, 0 ≤ row.get r) (ht : 0 < row.get t)
    (hle : u ≤ sumBefore row t + row.get t) (hlt : 0 < sumBefore row t → sumBefore row t < u) :
    IsLeast (reaching row u) t := by
  refine ⟨⟨ht, hle.trans (sumBefore_add row t).le⟩, ?_⟩
  rintro r ⟨hr, hreached⟩
  rw [← sumBefore_add] at hreached
  by_contra! hbefore
  have hadd := add_le_sumBefore h0 hbefore
  linarith [sumBefore_nonneg h0 r, hlt (by linarith [sumBefore_nonneg h0 r])]

section Draws

variable (h0 : ∀ r, 0 ≤ row.get r) (hsum : ∑ r, row.get r = 1) (hu : u ≤ 1)

include h0 hsum hu

/-- **What a draw leads to.** -/
theorem sampleTarget_spec (source : Fin n) :
    0 < row.get (sampleTarget row source u) ∧
      u ≤ sumBefore row (sampleTarget row source u) + row.get (sampleTarget row source u) ∧
      (0 < sumBefore row (sampleTarget row source u) →
        sumBefore row (sampleTarget row source u) < u) := by
  have hall : ((List.finRange n).map row.get).sum = 1 := by
    rw [← Fin.sum_univ_def, hsum]
  have hpos : ∃ r ∈ List.finRange n, 0 < row.get r := by
    by_contra! hnone
    linarith [sum_map_nonpos hnone]
  obtain ⟨front, back, hsplit, hwalk, hle, hlt⟩ :=
    walk_spec h0 0 source (hall.symm ▸ hu.trans_eq (zero_add 1).symm) hpos
  have hfront := sum_map_of_finRange row hsplit
  rw [zero_add, hfront] at hle hlt
  refine ⟨hwalk, hle, fun hbefore => hlt ?_⟩
  by_contra! hnone
  exact absurd (hbefore.trans_eq hfront.symm) (sum_map_nonpos hnone).not_gt

/-- **The walk ends because it has come far enough**: at the first target with positive probability
where the sum reaches the draw. -/
theorem isLeast_sampleTarget (source : Fin n) :
    IsLeast (reaching row u) (sampleTarget row source u) := by
  obtain ⟨hpos, hle, hlt⟩ := sampleTarget_spec h0 hsum hu source
  exact isLeast_reaching h0 hpos hle hlt

/-- **A draw falls to a target** exactly if the sum up to it reaches the draw, and the sum in front
of it does not, unless that is zero. -/
theorem sampleTarget_eq_iff (source : Fin n) (ht : 0 < row.get t) :
    sampleTarget row source u = t ↔
      u ≤ sumBefore row t + row.get t ∧ (0 < sumBefore row t → sumBefore row t < u) := by
  constructor
  · rintro rfl
    exact (sampleTarget_spec h0 hsum hu source).2
  · rintro ⟨hle, hlt⟩
    exact (isLeast_sampleTarget h0 hsum hu source).unique (isLeast_reaching h0 ht hle hlt)

end Draws

/-! ### Counting draws -/

/-- The upper end of an interval, rounded to the first number that is past it and no more than
the number of points. -/
theorem exists_past_upper {N : ℕ} {y : ℚ} (h0 : 0 ≤ y) (hN : y ≤ N) :
    ∃ hi ≤ N, (∀ k < N, (k : ℚ) ≤ y ↔ k < hi) ∧ y ≤ hi ∧ (hi : ℚ) ≤ y + 1 := by
  refine ⟨min (⌊y⌋₊ + 1) N, min_le_right _ _, fun k hk => ?_, ?_, ?_⟩
  · rw [← Nat.le_floor_iff h0]
    omega
  · rw [Nat.cast_min, Nat.cast_succ]
    exact le_min (Nat.lt_floor_add_one y).le hN
  · have hmin : ((min (⌊y⌋₊ + 1) N : ℕ) : ℚ) ≤ (⌊y⌋₊ + 1 : ℕ) :=
      Nat.cast_le.mpr (min_le_left _ _)
    rw [Nat.cast_succ] at hmin
    linarith [Nat.floor_le h0]

/-- The lower end, rounded to the first number that is past it, or zero where it is zero. -/
theorem exists_past_lower {x : ℚ} (h0 : 0 ≤ x) :
    ∃ lo : ℕ, (∀ k : ℕ, (0 < x → x < k) ↔ lo ≤ k) ∧ x ≤ lo ∧ (lo : ℚ) ≤ x + 1 := by
  rcases h0.eq_or_lt with rfl | hx
  · exact ⟨0, by simp, by simp, by simp⟩
  · refine ⟨⌊x⌋₊ + 1, fun k => ?_, ?_, ?_⟩
    · rw [forall_prop_of_true hx, ← Nat.floor_lt h0]
      rfl
    · rw [Nat.cast_succ]
      exact (Nat.lt_floor_add_one x).le
    · rw [Nat.cast_succ]
      linarith [Nat.floor_le h0]

/-- **The points in an interval**: their number is the length of the interval, up to one. The
points are the natural numbers below `N`; the interval contains its upper end and, unless it begins
with zero, not its lower one. -/
theorem abs_card_sub_le {N : ℕ} {x y : ℚ} (hx : 0 ≤ x) (hxy : x ≤ y) (hy : y ≤ N) :
    |((range N).filter fun k : ℕ => (k : ℚ) ≤ y ∧ (0 < x → x < k)).card - (y - x)| ≤ 1 := by
  obtain ⟨hi, hiN, hhi, hhi_ge, hhi_le⟩ := exists_past_upper (hx.trans hxy) hy
  obtain ⟨lo, hlo, hlo_ge, hlo_le⟩ := exists_past_lower hx
  have hset : ((range N).filter fun k : ℕ => (k : ℚ) ≤ y ∧ (0 < x → x < k)) = Ico lo hi := by
    ext k
    rw [mem_filter, mem_range, mem_Ico, hlo]
    constructor
    · rintro ⟨hk, hle, hge⟩
      exact ⟨hge, (hhi k hk).mp hle⟩
    · rintro ⟨hge, hlt⟩
      have hk : k < N := hlt.trans_le hiN
      exact ⟨hk, (hhi k hk).mpr hlt, hge⟩
  rw [hset, Nat.card_Ico]
  -- both ends have been moved to the right, by at most one
  rcases le_total lo hi with hle | hle
  · rw [Nat.cast_sub hle, abs_le]
    constructor <;> linarith
  · have hcast : (hi : ℚ) ≤ lo := Nat.cast_le.mpr hle
    rw [Nat.sub_eq_zero_of_le hle, Nat.cast_zero, abs_le]
    constructor <;> linarith

/-- **The share of a target**: how many of `N` equally spaced draws fall to it. -/
def share (row : Vector ℚ n) (source : Fin n) (N : ℕ) (t : Fin n) : ℕ :=
  ((range N).filter fun k : ℕ => sampleTarget row source ((k : ℚ) / N) = t).card

/-- **The share of a target is its probability, up to one draw.** -/
theorem abs_share_sub_mul_le (h0 : ∀ r, 0 ≤ row.get r) (hsum : ∑ r, row.get r = 1)
    (source : Fin n) (N : ℕ) (ht : 0 < row.get t) :
    |(share row source N t : ℚ) - row.get t * N| ≤ 1 := by
  have hN : (0 : ℚ) ≤ N := Nat.cast_nonneg N
  have hle_one : sumBefore row t + row.get t ≤ 1 := by
    rw [sumBefore_add, ← hsum]
    exact sum_le_sum_of_subset_of_nonneg (subset_univ _) fun r _ _ => h0 r
  have hcount := abs_card_sub_le (mul_nonneg (sumBefore_nonneg h0 t) hN)
    (mul_le_mul_of_nonneg_right (le_add_of_nonneg_right ht.le) hN)
    (mul_le_of_le_one_left hN hle_one)
  have hset : ((range N).filter fun k : ℕ => sampleTarget row source ((k : ℚ) / N) = t) =
      (range N).filter fun k : ℕ => (k : ℚ) ≤ (sumBefore row t + row.get t) * N ∧
        (0 < sumBefore row t * N → sumBefore row t * N < k) := by
    refine filter_congr fun k hk => ?_
    have hkN : k < N := mem_range.mp hk
    have hpos : (0 : ℚ) < N := Nat.cast_pos.mpr (Nat.zero_lt_of_lt hkN)
    have hu : (k : ℚ) / N ≤ 1 := (div_le_one hpos).mpr (Nat.cast_le.mpr hkN.le)
    rw [sampleTarget_eq_iff h0 hsum hu source ht, div_le_iff₀ hpos, lt_div_iff₀ hpos,
      mul_pos_iff_of_pos_right hpos]
  rw [← sub_mul, add_sub_cancel_left] at hcount
  rwa [share, hset]

/-! ### The draws of a source -/

/-- The draws that words of 64 bits can denote are the points of a grid. -/
theorem range_unitOf :
    Set.range (unitOf : UInt64 → ℚ) = {u | ∃ k : ℕ, k < 2 ^ 53 ∧ u = (k : ℚ) / (2 ^ 53 : ℕ)} := by
  have hshift : ∀ word : UInt64, (word >>> 11).toNat = word.toNat / 2 ^ 11 := fun word => by
    rw [UInt64.toNat_shiftRight, Nat.shiftRight_eq_div_pow]
    rfl
  ext u
  constructor
  · rintro ⟨word, rfl⟩
    refine ⟨(word >>> 11).toNat, ?_, rfl⟩
    have hlt := word.toNat_lt
    rw [hshift]
    omega
  · rintro ⟨k, hk, rfl⟩
    have hword : (UInt64.ofNat (k * 2 ^ 11)).toNat = k * 2 ^ 11 :=
      UInt64.toNat_ofNat_of_lt' (by
        rw [UInt64.size]
        omega)
    refine ⟨.ofNat (k * 2 ^ 11), ?_⟩
    rw [unitOf, hshift, hword, Nat.mul_div_cancel k (by decide)]
    rfl

namespace Model

/-- **Targets are drawn without bias, up to one draw.** Let an action be enabled in a state of a
model that has been built. The draws that a source can make are the `2 ^ 53` points `k / 2 ^ 53`
below one. Whatever the draw, the walk along the row ends because the probabilities have reached
it, at the first target of positive probability where they do; and of the `2 ^ 53` draws every such
target is chosen by as many as its probability asks for, up to one. -/
theorem abs_share_sub_le {b : Builder ℚ} (hb : b.Reachable) {initial : Option String} {m : Model ℚ}
    (hm : b.build initial = .ok m) {s : m.State} {a : m.Action} (ha : a ∈ m.enabled.get s) :
    Set.range (unitOf : UInt64 → ℚ) = {u | ∃ k : ℕ, k < 2 ^ 53 ∧ u = (k : ℚ) / (2 ^ 53 : ℕ)} ∧
    (∀ k : ℕ, k < 2 ^ 53 →
      IsLeast {t | 0 < m.prob s a t ∧ (k : ℚ) / (2 ^ 53 : ℕ) ≤ ∑ r ∈ Iic t, m.prob s a r}
        (sampleTarget (m.row s a) s ((k : ℚ) / (2 ^ 53 : ℕ)))) ∧
    ∀ t, 0 < m.prob s a t →
      |(share (m.row s a) s (2 ^ 53) t : ℚ) - m.prob s a t * (2 ^ 53 : ℕ)| ≤ 1 := by
  have hmodel := hb.stochastic hm
  have h0 : ∀ t, 0 ≤ (m.row s a).get t := hmodel.prob_nonneg s a
  have hsum : ∑ t, (m.row s a).get t = 1 := hmodel.sum_prob s a ha
  refine ⟨range_unitOf, fun k hk => ?_, fun t ht => abs_share_sub_mul_le h0 hsum s (2 ^ 53) ht⟩
  have hu : (k : ℚ) / (2 ^ 53 : ℕ) ≤ 1 :=
    div_le_one_of_le₀ (Nat.cast_le.mpr hk.le) (Nat.cast_nonneg _)
  exact isLeast_sampleTarget h0 hsum hu s

/-- A throw that is repeated once in three, won twice in three, and never lost. -/
def loaded : List Declaration :=
  [.state "throw" none, .state "lost" none, .state "won" none,
    .transition "throw" none [⟨1, "throw"⟩, ⟨0, "lost"⟩, ⟨2, "won"⟩]]

/-- A third of the draws is no whole number: the throw is repeated by the whole number before it or
by the one after it. -/
theorem abs_share_sub_le_loaded : ∃ b : Builder ℚ, ∃ m : Model ℚ,
    Builder.ofDeclarations loaded = .ok b ∧ b.build none = .ok m ∧
      ∃ s : m.State, ∃ a ∈ m.enabled.get s, m.prob s a s = 1 / 3 ∧
        (share (m.row s a) s (2 ^ 53) s = 3002399751580330 ∨
          share (m.row s a) s (2 ^ 53) s = 3002399751580331) := by
  obtain ⟨b, m, hb, hm, htest⟩ := Builder.exists_of_any loaded
    (fun m => m.states.any fun s => (m.enabled.get s).any fun a => m.prob s a s == 1 / 3)
    (by decide +kernel)
  obtain ⟨s, -, hs⟩ := List.any_eq_true.mp htest
  obtain ⟨a, ha, hprob⟩ := List.any_eq_true.mp hs
  have hthird : m.prob s a s = 1 / 3 := eq_of_beq hprob
  obtain ⟨-, -, hshare⟩ := abs_share_sub_le (Builder.reachable_of_ofDeclarations hb) hm ha
  have hle := hshare s (by rw [hthird]; norm_num)
  rw [hthird, abs_le] at hle
  refine ⟨b, m, hb, hm, s, a, ha, hthird, ?_⟩
  generalize share (m.row s a) s (2 ^ 53) s = k at hle
  have hlow : (3002399751580329 : ℚ) < k := by linarith [hle.1]
  have hhigh : (k : ℚ) < 3002399751580332 := by linarith [hle.2]
  have hlow' : 3002399751580329 < k := by exact_mod_cast hlow
  have hhigh' : k < 3002399751580332 := by exact_mod_cast hhigh
  omega

end Model

end MarkovDecision
