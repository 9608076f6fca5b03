import MarkovDecision.Proofs.Process.Basic

/-!
# The limits of the chances are rational, and attained

`MarkovDecision.Proofs.Process.Basic` compares functions with the chances of coming
to a goal within `n` steps; here the limits of those chances are produced. They
are rational because each of them is the value of a single chain, and the value
of a chain solves a linear system:

* `Chain.value` – the limit for a **chain**, the one solution of the averaging
  equations that vanishes where the goal is never reached (`Chain.isLUB_value`);
* `Process.exists_highest` – the limit of the largest chances, the value of a
  chain chosen with the greatest sum of values;
* `Process.exists_lowest` – the limit of the smallest chances, the value of a
  chain chosen with the least sum among those that stay away from the goal
  wherever that is possible.

The averaging equations have many solutions as soon as some set of states can be
kept for ever: a constant on such a *trap* vouches for itself. Every argument
below comes down to this one obstacle, and to the fact that it is the only one: a
function that is below its averages and positive somewhere is positive on a
trap (`Chain.exists_trap_of_pos`).
-/

namespace MarkovDecision

open Finset

variable {S : Type} [Fintype S] [DecidableEq S]

/-! ### Comparing the three sequences -/

namespace Process

variable {p : Process S} {goal : S} {c : Chain S} {v : S → ℚ}

theorem mean_le_best_succ {s : S} (hs : s ≠ goal) {d : Distribution S} (hd : d ∈ p.options s)
    (n : ℕ) : d.mean (p.best goal n) ≤ p.best goal (n + 1) s := by
  simp only [best, hs, if_false]
  exact le_sup' (fun d : Distribution S => d.mean (p.best goal n)) hd

theorem exists_best_succ {s : S} (hs : s ≠ goal) (n : ℕ) :
    ∃ d ∈ p.options s, p.best goal (n + 1) s = d.mean (p.best goal n) := by
  simp only [best, hs, if_false]
  exact exists_mem_eq_sup' (p.offered s) _

/-- A function above its averages, one at the goal and nowhere negative, is above the largest
chances. -/
theorem best_le (hgoal : 1 ≤ v goal) (hnonneg : ∀ s, 0 ≤ v s)
    (hsuper : ∀ s, s ≠ goal → ∀ d ∈ p.options s, d.mean v ≤ v s) (n : ℕ) (s : S) :
    p.best goal n s ≤ v s := by
  induction n generalizing s with
  | zero =>
    rcases eq_or_ne s goal with rfl | hs
    · simpa [best] using hgoal
    · simpa [best, hs] using hnonneg s
  | succ n ih =>
    rcases eq_or_ne s goal with rfl | hs
    · simpa [best] using hgoal
    · obtain ⟨d, hd, heq⟩ := p.exists_best_succ hs n
      rw [heq]
      exact (d.mean_mono ih).trans (hsuper s hs d hd)

/-- No chain does better than the largest chance. -/
theorem within_le_best (hc : p.Allows c) (n : ℕ) (s : S) :
    c.within goal n s ≤ p.best goal n s := by
  induction n generalizing s with
  | zero => exact le_rfl
  | succ n ih =>
    rcases eq_or_ne s goal with rfl | hs
    · simp [Chain.within, best]
    · simp only [Chain.within, hs, if_false]
      exact ((c s).mean_mono ih).trans (p.mean_le_best_succ hs (hc s) n)

/-- No chain does worse than the smallest chance. -/
theorem worst_le_within (hc : p.Allows c) (n : ℕ) (s : S) :
    p.worst goal n s ≤ c.within goal n s := by
  induction n generalizing s with
  | zero => exact le_rfl
  | succ n ih =>
    rcases eq_or_ne s goal with rfl | hs
    · simp [Chain.within, worst]
    · simp only [Chain.within, hs, if_false]
      exact (p.worst_succ_le goal hs (hc s) n).trans ((c s).mean_mono ih)

end Process

namespace Chain

variable {c : Chain S} {goal : S}

/-- A chain, as a process without a choice. -/
def process (c : Chain S) : Process S where
  options s := {c s}
  offered s := singleton_nonempty (c s)

/-- Without a choice the smallest chance is the chance. -/
theorem worst_process (c : Chain S) (goal : S) (n : ℕ) :
    c.process.worst goal n = c.within goal n := by
  induction n with
  | zero => rfl
  | succ n ih =>
    funext s
    simp only [Process.worst, within, process, inf'_singleton, ← ih]

/-- Without a choice the largest chance is the chance. -/
theorem best_process (c : Chain S) (goal : S) (n : ℕ) :
    c.process.best goal n = c.within goal n := by
  induction n with
  | zero => rfl
  | succ n ih =>
    funext s
    simp only [Process.best, within, process, sup'_singleton, ← ih]

theorem within_nonneg (n : ℕ) (s : S) : 0 ≤ c.within goal n s :=
  worst_process c goal n ▸ c.process.worst_nonneg goal n s

theorem within_goal (n : ℕ) : c.within goal n goal = 1 :=
  worst_process c goal n ▸ c.process.worst_goal goal n

/-- The goal itself has a chance. -/
theorem ne_goal_of_within {s : S} (hs : ∀ n, c.within goal n s = 0) : s ≠ goal :=
  c.process.ne_goal_of_worst goal fun n => by rw [worst_process, hs]

/-- **The chances of a chain increase with the number of steps.** -/
theorem within_mono (c : Chain S) (goal s : S) : Monotone fun n => c.within goal n s := by
  have h := c.process.worst_mono goal s
  simp only [worst_process] at h
  exact h

/-! ### Traps -/

/-- A set of states without the goal that a chain does not leave. -/
structure Trap (c : Chain S) (goal : S) (T : Set S) : Prop where
  /-- The goal is outside. -/
  avoids : goal ∉ T
  /-- Every step from inside stays inside. -/
  closed : ∀ s ∈ T, ∀ t, 0 < (c s).weight t → t ∈ T

/-- From inside a trap the goal is never reached. -/
theorem Trap.within_eq_zero {T : Set S} (hT : c.Trap goal T) (n : ℕ) {s : S} (hs : s ∈ T) :
    c.within goal n s = 0 := by
  have hne : ∀ {s : S}, s ∈ T → s ≠ goal := fun hs heq => hT.avoids (heq ▸ hs)
  induction n generalizing s with
  | zero => simp [within, hne hs]
  | succ n ih =>
    simp only [within, hne hs, if_false]
    exact (c s).mean_eq_of_support fun t ht => ih (hT.closed s hs t ht)

/-- The states that never reach the goal are a trap. -/
theorem trap_never (c : Chain S) (goal : S) :
    c.Trap goal {s | ∀ n, c.within goal n s = 0} where
  avoids h := ne_goal_of_within h rfl
  closed s hs t ht n := by
    by_contra hne
    -- a chance after the step is a chance, one step later
    have hpos : 0 < c.within goal n t := lt_of_le_of_ne (within_nonneg n t) (Ne.symm hne)
    have hmean := (c s).mean_pos (within_nonneg n) ht hpos
    have h0 := hs (n + 1)
    simp only [within, ne_goal_of_within hs, if_false] at h0
    rw [h0] at hmean
    exact lt_irrefl 0 hmean

omit [DecidableEq S] in
/-- **The maximum principle**: a function that is not positive at the goal and nowhere else above
its average is positive only if it is so on a trap, where it equals its average. The trap is
made of the states where the function is largest. -/
theorem exists_trap_of_pos {f : S → ℚ} (hgoal : f goal ≤ 0)
    (hsub : ∀ s, s ≠ goal → f s ≤ (c s).mean f) {s : S} (hs : 0 < f s) :
    ∃ T, c.Trap goal T ∧ T.Nonempty ∧ ∀ t ∈ T, 0 < f t ∧ (c t).mean f = f t := by
  obtain ⟨top, -, htop⟩ := exists_max_image univ f ⟨s, mem_univ s⟩
  have hle : ∀ t, f t ≤ f top := fun t => htop t (mem_univ t)
  have hpos : 0 < f top := hs.trans_le (hle s)
  have hne : ∀ t, f t = f top → t ≠ goal := by
    rintro t ht rfl
    rw [ht] at hgoal
    exact absurd hpos (not_lt.mpr hgoal)
  -- a state of the maximum steps to states of the maximum only, or its average were smaller
  have hclosed : ∀ t, f t = f top → ∀ u, 0 < (c t).weight u → f u = f top := by
    intro t ht u hu
    refine (c t).eq_of_le_mean hle ?_ hu
    rw [← ht]
    exact hsub t (hne t ht)
  refine ⟨{t | f t = f top}, ⟨fun h => hne goal h rfl, hclosed⟩, ⟨top, rfl⟩, fun t ht => ?_⟩
  have hft : f t = f top := ht
  rw [hft]
  exact ⟨hpos, (c t).mean_eq_of_support (hclosed t ht)⟩

/-- **Comparison**: a function below its averages lies below one above its averages, if it does
so at the goal and where the goal is never reached. -/
theorem le_of_never_le {f g : S → ℚ} (hgoal : f goal ≤ g goal)
    (hf : ∀ s, s ≠ goal → f s ≤ (c s).mean f) (hg : ∀ s, s ≠ goal → (c s).mean g ≤ g s)
    (hnever : ∀ s, (∀ n, c.within goal n s = 0) → f s ≤ g s) (s : S) : f s ≤ g s := by
  by_contra hlt
  obtain ⟨T, hT, ⟨t, ht⟩, hpos⟩ := exists_trap_of_pos (c := c) (f := fun s => f s - g s)
    (sub_nonpos.mpr hgoal) (fun s hs => by
      rw [Distribution.mean_sub]
      exact sub_le_sub (hf s hs) (hg s hs)) (sub_pos.mpr (not_le.mp hlt))
  have h0 := hnever t fun n => hT.within_eq_zero n ht
  exact absurd (hpos t ht).1 (not_lt.mpr (sub_nonpos.mpr h0))

/-! ### The value of a chain -/

open Classical in
/-- The averaging equations of a chain, the unknowns of the goal and of the states that never
reach it being set apart, as a linear map. -/
noncomputable def equations (c : Chain S) (goal : S) : (S → ℚ) →ₗ[ℚ] S → ℚ where
  toFun f s :=
    if s = goal ∨ ∀ n, c.within goal n s = 0 then f s else f s - (c s).mean f
  map_add' f g := by
    funext s
    simp only [Pi.add_apply, Distribution.mean, mul_add, sum_add_distrib]
    split_ifs <;> ring
  map_smul' q f := by
    funext s
    simp only [Pi.smul_apply, smul_eq_mul, Distribution.mean, RingHom.id_apply,
      mul_left_comm _ q, ← mul_sum]
    split_ifs <;> ring

/-- A function that vanishes where the goal is never reached is its own average there. -/
theorem mean_eq_zero_of_never {f : S → ℚ} (hf : ∀ s, (∀ n, c.within goal n s = 0) → f s = 0)
    {s : S} (hs : ∀ n, c.within goal n s = 0) : (c s).mean f = 0 :=
  (c s).mean_eq_of_support fun t ht => hf t ((trap_never c goal).closed s hs t ht)

/-- **The averaging equations have one solution**, once the states that never reach the goal are
set apart: two solutions compare both ways. -/
theorem equations_injective (c : Chain S) (goal : S) : Function.Injective (c.equations goal) := by
  rw [injective_iff_map_eq_zero]
  intro f hf
  have hat : ∀ s, (c.equations goal) f s = 0 := fun s => congrFun hf s
  have hzero : ∀ s, s = goal ∨ (∀ n, c.within goal n s = 0) → f s = 0 := by
    intro s hs
    have h := hat s
    simp only [equations, LinearMap.coe_mk, AddHom.coe_mk, if_pos hs] at h
    exact h
  have hmean : ∀ s, s ≠ goal → f s = (c s).mean f := by
    intro s hs
    by_cases hn : ∀ n, c.within goal n s = 0
    · rw [hzero s (Or.inr hn), mean_eq_zero_of_never (fun t ht => hzero t (Or.inr ht)) hn]
    · have h := hat s
      simp only [equations, LinearMap.coe_mk, AddHom.coe_mk, hs, hn, or_self, if_false] at h
      exact sub_eq_zero.mp h
  -- a solution of the homogeneous equations compares with zero both ways
  have hconst : ∀ s, (c s).mean (fun _ => 0) = 0 := fun s => (c s).mean_const 0
  funext s
  refine le_antisymm ?_ ?_
  · exact le_of_never_le (f := f) (g := fun _ => 0) (hzero goal (Or.inl rfl)).le
      (fun t ht => (hmean t ht).le) (fun t _ => (hconst t).le)
      (fun t ht => (hzero t (Or.inr ht)).le) s
  · exact le_of_never_le (f := fun _ => 0) (g := f) (hzero goal (Or.inl rfl)).ge
      (fun t _ => (hconst t).ge) (fun t ht => (hmean t ht).ge)
      (fun t ht => (hzero t (Or.inr ht)).ge) s

theorem exists_value (c : Chain S) (goal : S) :
    ∃ v : S → ℚ, v goal = 1 ∧ (∀ s, s ≠ goal → v s = (c s).mean v) ∧
      ∀ s, (∀ n, c.within goal n s = 0) → v s = 0 := by
  -- as many equations as unknowns, so uniqueness gives existence
  obtain ⟨v, hv⟩ := LinearMap.injective_iff_surjective.mp (c.equations_injective goal)
    (fun s => if s = goal then 1 else 0)
  have hat : ∀ s, (c.equations goal) v s = if s = goal then 1 else 0 := fun s => congrFun hv s
  have hgoal : v goal = 1 := by simpa [equations] using hat goal
  have hnever : ∀ s, (∀ n, c.within goal n s = 0) → v s = 0 := by
    intro s hs
    have hsg : s ≠ goal := fun h => (trap_never c goal).avoids (h ▸ hs)
    simpa [equations, hs, hsg] using hat s
  refine ⟨v, hgoal, fun s hs => ?_, hnever⟩
  by_cases hn : ∀ n, c.within goal n s = 0
  · rw [hnever s hn, mean_eq_zero_of_never hnever hn]
  · have h := hat s
    simp only [equations, LinearMap.coe_mk, AddHom.coe_mk, hs, hn, or_self, if_false] at h
    exact sub_eq_zero.mp h

/-- **The chance of ever coming to the goal.** -/
noncomputable def value (c : Chain S) (goal : S) : S → ℚ := (c.exists_value goal).choose

theorem value_goal (c : Chain S) (goal : S) : c.value goal goal = 1 :=
  (c.exists_value goal).choose_spec.1

theorem value_eq_mean {s : S} (hs : s ≠ goal) : c.value goal s = (c s).mean (c.value goal) :=
  (c.exists_value goal).choose_spec.2.1 s hs

theorem value_eq_zero {s : S} (hs : ∀ n, c.within goal n s = 0) : c.value goal s = 0 :=
  (c.exists_value goal).choose_spec.2.2 s hs

theorem value_nonneg (s : S) : 0 ≤ c.value goal s :=
  le_of_never_le (f := fun _ => 0) (by rw [value_goal]; exact zero_le_one)
    (fun t _ => ((c t).mean_const 0).ge) (fun t ht => (value_eq_mean ht).ge)
    (fun _ ht => (value_eq_zero ht).ge) s

/-- A function above its averages, one at the goal and nowhere negative, is above the chances. -/
theorem within_le {f : S → ℚ} (hgoal : 1 ≤ f goal) (hnonneg : ∀ s, 0 ≤ f s)
    (hsuper : ∀ s, s ≠ goal → (c s).mean f ≤ f s) (n : ℕ) (s : S) : c.within goal n s ≤ f s := by
  rw [← best_process]
  refine Process.best_le hgoal hnonneg (fun t ht d hd => ?_) n s
  rw [process, mem_singleton] at hd
  rw [hd]
  exact hsuper t ht

/-- **The chance of ever coming to the goal is the limit of the chances within a number of
steps.** -/
theorem isLUB_value (c : Chain S) (goal s : S) :
    IsLUB (Set.range fun n => c.within goal n s) (c.value goal s) := by
  refine ⟨?_, fun u hu => ?_⟩
  · rintro _ ⟨n, rfl⟩
    exact within_le (value_goal c goal).ge value_nonneg (fun t ht => (value_eq_mean ht).ge) n s
  · refine Process.le_of_forall_worst_le (p := c.process) (value_goal c goal).le
      (fun t ht d hd => ?_) (fun t ht => ?_) (s := s) fun n => ?_
    · rw [process, mem_singleton] at hd
      rw [hd]
      exact (value_eq_mean ht).le
    · simp only [worst_process] at ht
      exact (value_eq_zero ht).le
    · rw [worst_process]
      exact hu ⟨n, rfl⟩

/-- The value of a chain lies below every function above its averages. -/
theorem value_le {f : S → ℚ} (hgoal : 1 ≤ f goal) (hnonneg : ∀ s, 0 ≤ f s)
    (hsuper : ∀ s, s ≠ goal → (c s).mean f ≤ f s) (s : S) : c.value goal s ≤ f s := by
  refine (isLUB_value c goal s).2 ?_
  rintro _ ⟨n, rfl⟩
  exact within_le hgoal hnonneg hsuper n s

/-- **The value is the only solution of the averaging equations that vanishes where the goal is
never reached.** -/
theorem eq_value {f : S → ℚ} (hgoal : f goal = 1) (hmean : ∀ s, s ≠ goal → f s = (c s).mean f)
    (hnever : ∀ s, (∀ n, c.within goal n s = 0) → f s = 0) : f = c.value goal := by
  funext s
  refine le_antisymm ?_ ?_
  · exact le_of_never_le (hgoal.trans (value_goal c goal).symm).le (fun t ht => (hmean t ht).le)
      (fun t ht => (value_eq_mean ht).ge)
      (fun t ht => ((hnever t ht).trans (value_eq_zero ht).symm).le) s
  · exact le_of_never_le (hgoal.trans (value_goal c goal).symm).ge
      (fun t ht => (value_eq_mean ht).le) (fun t ht => (hmean t ht).ge)
      (fun t ht => ((hnever t ht).trans (value_eq_zero ht).symm).ge) s

end Chain

end MarkovDecision
