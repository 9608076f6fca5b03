import Mathlib

/-!
# Processes, in the abstract

What the queries of this library are about, freed from labels, actions and
matrices. A *distribution* is a row of non-negative rational weights that add up
to one; a *chain* puts one distribution at every state; a *process* offers a
finite set of them at every state, and a chain that picks one of the offers
everywhere is a way of choosing that does not look back.

The value of interest is the chance of having come to a goal within `n` steps. A
chain has one such number for every state (`Chain.within`), a process has a
largest and a smallest one (`Process.best`, `Process.worst`), each obtained from
the one for `n - 1` steps by a single average.

The one difficulty is what happens as `n` grows. The sequences increase and stay
below one, but the rationals are not complete, so that a least upper bound has to
be produced before it can be spoken of. Half of the work is done here:
`Process.le_of_forall_worst_le` says that a function that is below its average
under every offer, and that vanishes where the goal can be avoided for ever, lies
below *every* upper bound of the smallest chances. The reason is that the gap
shrinks by a fixed factor each time enough steps have been made for every state
that cannot avoid the goal to have hit it with positive probability.
-/

namespace MarkovDecision

open Finset

/-! ### Distributions -/

/-- A distribution over finitely many states, with rational weights. -/
@[ext]
structure Distribution (S : Type) [Fintype S] where
  /-- The weight of a state. -/
  weight : S → ℚ
  /-- Weights are not negative. -/
  weight_nonneg : ∀ t, 0 ≤ weight t
  /-- Weights add up to one. -/
  sum_weight : ∑ t, weight t = 1

variable {S : Type} [Fintype S]

namespace Distribution

/-- The average of a function under a distribution. -/
def mean (d : Distribution S) (f : S → ℚ) : ℚ := ∑ t, d.weight t * f t

variable (d : Distribution S) {f g : S → ℚ}

theorem mean_const (q : ℚ) : (d.mean fun _ => q) = q := by
  rw [mean, ← sum_mul, d.sum_weight, one_mul]

theorem mean_sub : (d.mean fun t => f t - g t) = d.mean f - d.mean g := by
  simp only [mean, mul_sub, sum_sub_distrib]

theorem mean_mul_const (q : ℚ) : (d.mean fun t => f t * q) = d.mean f * q := by
  simp only [mean, sum_mul, mul_assoc]

/-- Averages are monotone. -/
theorem mean_mono (h : ∀ t, f t ≤ g t) : d.mean f ≤ d.mean g :=
  sum_le_sum fun t _ => mul_le_mul_of_nonneg_left (h t) (d.weight_nonneg t)

theorem mean_nonneg (h : ∀ t, 0 ≤ f t) : 0 ≤ d.mean f :=
  sum_nonneg fun t _ => mul_nonneg (d.weight_nonneg t) (h t)

/-- An average of values up to one is at most one. -/
theorem mean_le_one (h : ∀ t, f t ≤ 1) : d.mean f ≤ 1 := by
  calc d.mean f ≤ d.mean fun _ => 1 := d.mean_mono h
    _ = 1 := d.mean_const 1

/-- A function that is constant where the weight is positive averages to that constant. -/
theorem mean_eq_of_support {q : ℚ} (h : ∀ t, 0 < d.weight t → f t = q) : d.mean f = q := by
  rw [← d.mean_const q]
  refine sum_congr rfl fun t _ => ?_
  rcases (d.weight_nonneg t).eq_or_lt with h0 | h0
  · rw [← h0, zero_mul, zero_mul]
  · rw [h t h0]

/-- One state of positive weight with a positive value makes the average positive. -/
theorem mean_pos (h : ∀ t, 0 ≤ f t) {t : S} (ht : 0 < d.weight t) (hf : 0 < f t) :
    0 < d.mean f :=
  sum_pos' (fun u _ => mul_nonneg (d.weight_nonneg u) (h u)) ⟨t, mem_univ t, mul_pos ht hf⟩

/-- **An average reaches an upper bound only by equality**: where it does, every state of
positive weight attains the bound. -/
theorem eq_of_le_mean {q : ℚ} (h : ∀ t, f t ≤ q) (hq : q ≤ d.mean f) {t : S}
    (ht : 0 < d.weight t) : f t = q := by
  by_contra hne
  have hlt : f t < q := lt_of_le_of_ne (h t) hne
  have hgap : 0 < d.mean fun u => q - f u :=
    d.mean_pos (fun u => sub_nonneg.mpr (h u)) ht (sub_pos.mpr hlt)
  rw [mean_sub, mean_const] at hgap
  linarith

/-- Some state has positive weight. -/
theorem exists_weight_pos : ∃ t, 0 < d.weight t := by
  obtain ⟨t, -, ht⟩ : ∃ t ∈ univ, 0 < d.weight t :=
    exists_lt_of_sum_lt (f := fun _ => 0) (by rw [sum_const_zero, d.sum_weight]; exact one_pos)
  exact ⟨t, ht⟩

end Distribution

/-! ### Chains and processes -/

/-- One distribution at every state. -/
abbrev Chain (S : Type) [Fintype S] := S → Distribution S

/-- Finitely many distributions at every state, one of which is chosen. -/
@[ext]
structure Process (S : Type) [Fintype S] where
  /-- What may be chosen in a state. -/
  options : S → Finset (Distribution S)
  /-- Something may be chosen. -/
  offered : ∀ s, (options s).Nonempty

/-- A chain picks one of the options everywhere. -/
def Process.Allows (p : Process S) (c : Chain S) : Prop := ∀ s, c s ∈ p.options s

variable [DecidableEq S]

/-- The chance of having come to the goal within a number of steps. -/
def Chain.within (c : Chain S) (goal : S) : ℕ → S → ℚ
  | 0 => fun s => if s = goal then 1 else 0
  | n + 1 => fun s => if s = goal then 1 else (c s).mean (c.within goal n)

namespace Process

/-- The largest chance of having come to the goal within a number of steps. -/
def best (p : Process S) (goal : S) : ℕ → S → ℚ
  | 0 => fun s => if s = goal then 1 else 0
  | n + 1 => fun s =>
    if s = goal then 1 else (p.options s).sup' (p.offered s) fun d => d.mean (p.best goal n)

/-- The smallest chance of having come to the goal within a number of steps. -/
def worst (p : Process S) (goal : S) : ℕ → S → ℚ
  | 0 => fun s => if s = goal then 1 else 0
  | n + 1 => fun s =>
    if s = goal then 1 else (p.options s).inf' (p.offered s) fun d => d.mean (p.worst goal n)

variable (p : Process S) (goal : S)

theorem worst_goal (n : ℕ) : p.worst goal n goal = 1 := by
  cases n <;> simp [worst]

theorem worst_zero {s : S} (hs : s ≠ goal) : p.worst goal 0 s = 0 := by
  simp [worst, hs]

/-- The goal itself has a chance. -/
theorem ne_goal_of_worst {s : S} (hs : ∀ n, p.worst goal n s = 0) : s ≠ goal := by
  rintro rfl
  have h := hs 0
  rw [worst_goal] at h
  exact one_ne_zero h

/-- One more step: no option does better than the smallest chance. -/
theorem worst_succ_le {s : S} (hs : s ≠ goal) {d : Distribution S} (hd : d ∈ p.options s) (n : ℕ) :
    p.worst goal (n + 1) s ≤ d.mean (p.worst goal n) := by
  simp only [worst, hs, if_false]
  exact inf'_le _ hd

/-- One more step: some option attains the smallest chance. -/
theorem exists_worst_succ {s : S} (hs : s ≠ goal) (n : ℕ) :
    ∃ d ∈ p.options s, p.worst goal (n + 1) s = d.mean (p.worst goal n) := by
  simp only [worst, hs, if_false]
  exact exists_mem_eq_inf' (p.offered s) _

theorem worst_nonneg (n : ℕ) (s : S) : 0 ≤ p.worst goal n s := by
  induction n generalizing s with
  | zero => by_cases hs : s = goal <;> simp [worst, hs]
  | succ n ih =>
    rcases eq_or_ne s goal with rfl | hs
    · rw [worst_goal]
      exact zero_le_one
    · obtain ⟨d, -, hd⟩ := p.exists_worst_succ goal hs n
      rw [hd]
      exact d.mean_nonneg ih

theorem worst_le_one (n : ℕ) (s : S) : p.worst goal n s ≤ 1 := by
  induction n generalizing s with
  | zero => by_cases hs : s = goal <;> simp [worst, hs]
  | succ n ih =>
    rcases eq_or_ne s goal with rfl | hs
    · rw [worst_goal]
    · obtain ⟨d, -, hd⟩ := p.exists_worst_succ goal hs n
      rw [hd]
      exact d.mean_le_one ih

/-- **More steps never hurt**, one at a time. -/
theorem worst_le_succ (n : ℕ) (s : S) : p.worst goal n s ≤ p.worst goal (n + 1) s := by
  induction n generalizing s with
  | zero =>
    rcases eq_or_ne s goal with rfl | hs
    · rw [worst_goal, worst_goal]
    · rw [worst_zero p goal hs]
      exact p.worst_nonneg goal 1 s
  | succ n ih =>
    rcases eq_or_ne s goal with rfl | hs
    · rw [worst_goal, worst_goal]
    · obtain ⟨d, hd, heq⟩ := p.exists_worst_succ goal hs (n + 1)
      rw [heq]
      exact (p.worst_succ_le goal hs hd n).trans (d.mean_mono ih)

theorem worst_mono (s : S) : Monotone fun n => p.worst goal n s :=
  monotone_nat_of_le_succ fun n => p.worst_le_succ goal n s

/-! ### The gap to the smallest chances shrinks -/

variable {p goal} {v : S → ℚ}

/-- **How a gap propagates**: a function below its averages that exceeds the chances within `n`
steps by at most `M` exceeds those within `n + k` steps by at most the part of `M` that belongs
to not having come to the goal in `k` steps. -/
theorem sub_worst_add_le (hgoal : v goal ≤ 1)
    (hsub : ∀ s, s ≠ goal → ∀ d ∈ p.options s, v s ≤ d.mean v) {n : ℕ} {M : ℚ} (hM0 : 0 ≤ M)
    (hM : ∀ s, v s - p.worst goal n s ≤ M) (k : ℕ) (s : S) :
    v s - p.worst goal (n + k) s ≤ (1 - p.worst goal k s) * M := by
  have hatGoal (j : ℕ) : v goal - p.worst goal (n + j) goal ≤ (1 - p.worst goal j goal) * M := by
    rw [worst_goal, worst_goal]
    linarith
  induction k generalizing s with
  | zero =>
    rcases eq_or_ne s goal with rfl | hs
    · exact hatGoal 0
    · rw [worst_zero p goal hs, sub_zero, one_mul]
      exact hM s
  | succ k ih =>
    rcases eq_or_ne s goal with rfl | hs
    · exact hatGoal (k + 1)
    -- follow the option that makes the later chance smallest
    obtain ⟨d, hd, heq⟩ := p.exists_worst_succ goal hs (n + k)
    calc v s - p.worst goal (n + (k + 1)) s
        ≤ d.mean v - d.mean (p.worst goal (n + k)) := by
          rw [← add_assoc, heq]
          exact sub_le_sub_right (hsub s hs d hd) _
      _ = d.mean fun t => v t - p.worst goal (n + k) t := d.mean_sub.symm
      _ ≤ d.mean fun t => (1 - p.worst goal k t) * M := d.mean_mono ih
      _ = (1 - d.mean (p.worst goal k)) * M := by
          rw [Distribution.mean_mul_const, Distribution.mean_sub, Distribution.mean_const]
      _ ≤ (1 - p.worst goal (k + 1) s) * M :=
          mul_le_mul_of_nonneg_right (sub_le_sub_left (p.worst_succ_le goal hs hd k) 1) hM0

/-- Enough steps make the chance of every state that cannot avoid the goal exceed one bound. -/
theorem exists_le_worst (p : Process S) (goal : S) :
    ∃ k : ℕ, ∃ q : ℚ, 0 < q ∧ q ≤ 1 ∧
      ∀ s, (∃ n, 0 < p.worst goal n s) → q ≤ p.worst goal k s := by
  classical
  choose! time htime using fun s (h : ∃ n, 0 < p.worst goal n s) => h
  -- the latest of these times serves all states
  let k := univ.sup time
  have hpos : ∀ s, (∃ n, 0 < p.worst goal n s) → 0 < p.worst goal k s := fun s hs =>
    (htime s hs).trans_le (p.worst_mono goal s (le_sup (mem_univ s)))
  let chance : S → ℚ := fun s => if ∃ n, 0 < p.worst goal n s then p.worst goal k s else 1
  obtain ⟨s, -, hs⟩ := exists_min_image univ chance ⟨goal, mem_univ goal⟩
  refine ⟨k, chance s, ?_, ?_, fun t ht => ?_⟩
  · by_cases h : ∃ n, 0 < p.worst goal n s
    · simp only [chance, if_pos h]
      exact hpos s h
    · simp only [chance, if_neg h]
      exact one_pos
  · refine (hs goal (mem_univ goal)).trans ?_
    by_cases h : ∃ n, 0 < p.worst goal n goal
    · simp only [chance, if_pos h]
      exact p.worst_le_one goal k goal
    · simp only [chance, if_neg h, le_refl]
  · have := hs t (mem_univ t)
    simp only [chance, if_pos ht] at this ⊢
    exact this

/-- **A function below its averages lies below every bound of the smallest chances**, provided
that it vanishes where the goal can be avoided for ever. -/
theorem le_of_forall_worst_le (hgoal : v goal ≤ 1)
    (hsub : ∀ s, s ≠ goal → ∀ d ∈ p.options s, v s ≤ d.mean v)
    (hzero : ∀ s, (∀ n, p.worst goal n s = 0) → v s ≤ 0) {s : S} {u : ℚ}
    (hu : ∀ n, p.worst goal n s ≤ u) : v s ≤ u := by
  obtain ⟨k, q, hq0, hq1, hq⟩ := exists_le_worst p goal
  obtain ⟨M, hM0, hM⟩ : ∃ M : ℚ, 0 ≤ M ∧ ∀ t, v t ≤ M := by
    obtain ⟨t, -, ht⟩ := exists_max_image univ (fun t => |v t|) ⟨goal, mem_univ goal⟩
    exact ⟨|v t|, abs_nonneg _, fun t' => (le_abs_self _).trans (ht t' (mem_univ t'))⟩
  have hr0 : 0 ≤ 1 - q := sub_nonneg.mpr hq1
  -- after `j` rounds of `k` steps the gap has shrunk `j` times
  have hgap : ∀ j : ℕ, ∀ t, v t - p.worst goal (j * k) t ≤ (1 - q) ^ j * M := by
    intro j
    induction j with
    | zero =>
      intro t
      rw [pow_zero, one_mul]
      exact (sub_le_self _ (p.worst_nonneg goal _ t)).trans (hM t)
    | succ j ih =>
      intro t
      have hMj : 0 ≤ (1 - q) ^ j * M := mul_nonneg (pow_nonneg hr0 j) hM0
      rw [pow_succ', mul_assoc, Nat.succ_mul]
      by_cases ht : ∃ n, 0 < p.worst goal n t
      · exact (sub_worst_add_le hgoal hsub hMj ih k t).trans
          (mul_le_mul_of_nonneg_right (sub_le_sub_left (hq t ht) 1) hMj)
      · have h0 : ∀ n, p.worst goal n t = 0 := fun n =>
          le_antisymm (not_lt.mp fun h => ht ⟨n, h⟩) (p.worst_nonneg goal n t)
        rw [h0, sub_zero]
        exact (hzero t h0).trans (mul_nonneg hr0 hMj)
  by_contra hlt
  have hlt : 0 < v s - u := sub_pos.mpr (not_le.mp hlt)
  -- and so it becomes smaller than any distance to the bound
  obtain ⟨j, hj⟩ := exists_pow_lt_of_lt_one (div_pos hlt (show 0 < M + 1 by linarith))
    (show 1 - q < 1 by linarith)
  have h1 : (1 - q) ^ j * (M + 1) < v s - u := (lt_div_iff₀ (by linarith)).mp hj
  have h2 := hgap j s
  have h3 := hu (j * k)
  have h4 : 0 ≤ (1 - q) ^ j := pow_nonneg hr0 j
  nlinarith

end Process

end MarkovDecision
