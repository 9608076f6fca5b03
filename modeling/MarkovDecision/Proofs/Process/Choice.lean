import MarkovDecision.Proofs.Process.Value

/-!
# Choosing well and choosing badly, once and for all

Whoever maximizes or minimizes the chance of ever coming to a goal need not look
back: one chain among those a process allows does it from every state at once.
The two statements are proved by the same device, a chain whose sum of values is
extremal. If some offer were better than the one the chain takes, taking it
instead would move the sum.

The improvement is not symmetric. Where a smaller value is wanted, the old value
is above its averages under the new chain and bounds the new one at once. Where a
larger value is wanted, the new chain might have closed a trap on which the old
value vouches for itself; it has not, because the changed state would have to lie
in it, and there the old value is strictly below its average
(`Process.exists_chain_above`).

For the smallest value the extremal chain is looked for only among those that
stay, wherever that is possible, among the states with smallest chance zero
(`Process.exists_option_never`), for only there is the smallest value determined
by the graph and not by the averages.
-/

namespace MarkovDecision

open Finset

variable {S : Type} [Fintype S] [DecidableEq S]

namespace Process

variable {p : Process S} {goal : S} {c : Chain S}

/-! ### The largest value -/

/-- Replacing one offer by another keeps a chain allowed. -/
theorem Allows.update (hc : p.Allows c) {s : S} {d : Distribution S}
    (hd : d ∈ p.options s) : p.Allows (Function.update c s d) := by
  intro t
  rcases eq_or_ne t s with rfl | ht
  · rwa [Function.update_self]
  · rw [Function.update_of_ne ht]
    exact hc t

/-- **Taking a better offer raises the value** where it is taken, and lowers it nowhere. -/
theorem value_le_update {s : S} (hs : s ≠ goal) {d : Distribution S}
    (hd : c.value goal s < d.mean (c.value goal)) (t : S) :
    c.value goal t ≤ Chain.value (Function.update c s d) goal t := by
  let c' : Chain S := Function.update c s d
  by_contra hlt
  -- the difference of the values is below its averages, strictly at the changed state
  have hsub : ∀ u, u ≠ goal → c.value goal u - c'.value goal u ≤
      (c' u).mean (fun w => c.value goal w - c'.value goal w) := by
    intro u hu
    rw [Distribution.mean_sub, ← Chain.value_eq_mean hu]
    refine sub_le_sub_right ?_ _
    rcases eq_or_ne u s with rfl | hus
    · rw [show c' u = d from Function.update_self u d c]
      exact hd.le
    · rw [show c' u = c u from Function.update_of_ne hus d c]
      exact (Chain.value_eq_mean hu).le
  obtain ⟨T, hT, ⟨u, hu⟩, hpos⟩ := Chain.exists_trap_of_pos (c := c')
    (f := fun w => c.value goal w - c'.value goal w)
    (by rw [Chain.value_goal, Chain.value_goal, sub_self]) hsub (sub_pos.mpr (not_le.mp hlt))
  have hsT : s ∉ T := by
    intro hsT
    have heq := (hpos s hsT).2
    rw [Distribution.mean_sub, ← Chain.value_eq_mean hs,
      show c' s = d from Function.update_self s d c] at heq
    linarith
  -- so the old chain cannot leave the trap either
  have hTc : c.Trap goal T := by
    refine ⟨hT.avoids, fun w hw x hx => hT.closed w hw x ?_⟩
    have hws : w ≠ s := fun h => hsT (h ▸ hw)
    rwa [show c' w = c w from Function.update_of_ne hws d c]
  have h0 : c.value goal u = 0 := Chain.value_eq_zero fun n => hTc.within_eq_zero n hu
  have h1 := (hpos u hu).1
  have h2 : 0 ≤ c'.value goal u := Chain.value_nonneg u
  linarith

/-- **Some allowed chain has a value above its averages under every offer.** -/
theorem exists_chain_above (p : Process S) (goal : S) :
    ∃ c, p.Allows c ∧
      ∀ s, s ≠ goal → ∀ d ∈ p.options s, d.mean (c.value goal) ≤ c.value goal s := by
  obtain ⟨(c : Chain S), hc, hmax⟩ := exists_max_image (Fintype.piFinset p.options)
    (fun c : Chain S => ∑ s, c.value goal s)
    (Fintype.piFinset_nonempty.mpr p.offered)
  have hallow : p.Allows c := Fintype.mem_piFinset.mp hc
  refine ⟨c, hallow, fun s hs d hd => ?_⟩
  by_contra hlt
  have hlt : c.value goal s < d.mean (c.value goal) := not_le.mp hlt
  have hle := value_le_update hs hlt
  have hstrict : c.value goal s < Chain.value (Function.update c s d) goal s := by
    rw [Chain.value_eq_mean (c := Function.update c s d) hs, Function.update_self]
    exact hlt.trans_le (d.mean_mono hle)
  have hsum : ∑ t, c.value goal t < ∑ t, Chain.value (Function.update c s d) goal t :=
    sum_lt_sum (fun t _ => hle t) ⟨s, mem_univ s, hstrict⟩
  exact absurd (hmax _ (Fintype.mem_piFinset.mpr (hallow.update hd))) (not_le.mpr hsum)

/-- **The limit of the largest chances** is a function above its averages under every offer. -/
theorem exists_highest (p : Process S) (goal : S) :
    ∃ v : S → ℚ, (∀ s, s ≠ goal → ∀ d ∈ p.options s, d.mean v ≤ v s) ∧
      ∀ s, IsLUB (Set.range fun n => p.best goal n s) (v s) := by
  obtain ⟨c, hc, habove⟩ := p.exists_chain_above goal
  refine ⟨c.value goal, habove, fun s => ⟨?_, fun u hu => ?_⟩⟩
  · rintro _ ⟨n, rfl⟩
    exact best_le (Chain.value_goal c goal).ge Chain.value_nonneg habove n s
  · refine (Chain.isLUB_value c goal s).2 ?_
    rintro _ ⟨n, rfl⟩
    exact (within_le_best hc n s).trans (hu ⟨n, rfl⟩)

/-- The largest chance of ever coming to the goal. -/
noncomputable def highest (p : Process S) (goal : S) : S → ℚ := (p.exists_highest goal).choose

theorem mean_highest_le {s : S} (hs : s ≠ goal) {d : Distribution S} (hd : d ∈ p.options s) :
    d.mean (p.highest goal) ≤ p.highest goal s :=
  (p.exists_highest goal).choose_spec.1 s hs d hd

theorem isLUB_highest (p : Process S) (goal s : S) :
    IsLUB (Set.range fun n => p.best goal n s) (p.highest goal s) :=
  (p.exists_highest goal).choose_spec.2 s

/-- Whatever is above its averages under every offer is above the largest chance. -/
theorem highest_le {f : S → ℚ} (hgoal : 1 ≤ f goal) (hnonneg : ∀ s, 0 ≤ f s)
    (hsuper : ∀ s, s ≠ goal → ∀ d ∈ p.options s, d.mean f ≤ f s) (s : S) :
    p.highest goal s ≤ f s := by
  refine (p.isLUB_highest goal s).2 ?_
  rintro _ ⟨n, rfl⟩
  exact best_le hgoal hnonneg hsuper n s

theorem highest_goal (p : Process S) (goal : S) : p.highest goal goal = 1 := by
  refine le_antisymm (highest_le (f := fun _ => 1) le_rfl (fun _ => zero_le_one)
    (fun _ _ d _ => (d.mean_const 1).le) goal) ?_
  have h := (p.isLUB_highest goal goal).1 ⟨0, rfl⟩
  simpa [best] using h

theorem highest_le_one (s : S) : p.highest goal s ≤ 1 :=
  highest_le (f := fun _ => 1) le_rfl (fun _ => zero_le_one)
    (fun _ _ d _ => (d.mean_const 1).le) s

theorem highest_nonneg (s : S) : 0 ≤ p.highest goal s := by
  refine le_trans ?_ ((p.isLUB_highest goal s).1 ⟨0, rfl⟩)
  by_cases hs : s = goal <;> simp [best, hs]

/-! ### The smallest value -/

/-- **Where the smallest chance is always zero, some offer keeps it so**: all its states have
smallest chance zero too. -/
theorem exists_option_never {s : S} (hs : ∀ n, p.worst goal n s = 0) :
    ∃ d ∈ p.options s, ∀ t, 0 < d.weight t → ∀ n, p.worst goal n t = 0 := by
  have hsg := p.ne_goal_of_worst goal hs
  obtain ⟨k, q, hq0, -, hq⟩ := exists_le_worst p goal
  -- an offer that is worst for `k` steps is worst for ever
  obtain ⟨d, hd, heq⟩ := p.exists_worst_succ goal hsg k
  refine ⟨d, hd, fun t ht => ?_⟩
  by_contra hn
  push Not at hn
  obtain ⟨n, hn⟩ := hn
  have hpos : 0 < p.worst goal n t := lt_of_le_of_ne (p.worst_nonneg goal n t) (Ne.symm hn)
  have hmean := d.mean_pos (p.worst_nonneg goal k) ht (hq0.trans_le (hq t ⟨n, hpos⟩))
  rw [← heq, hs] at hmean
  exact lt_irrefl 0 hmean

/-- A chain stays among the states of smallest chance zero. -/
def Stays (p : Process S) (goal : S) (c : Chain S) : Prop :=
  ∀ s, (∀ n, p.worst goal n s = 0) → ∀ t, 0 < (c s).weight t → ∀ n, p.worst goal n t = 0

theorem Stays.trap (hc : p.Stays goal c) : c.Trap goal {s | ∀ n, p.worst goal n s = 0} where
  avoids h := p.ne_goal_of_worst goal h rfl
  closed := hc

theorem exists_allows_stays (p : Process S) (goal : S) : ∃ c, p.Allows c ∧ p.Stays goal c := by
  have hex : ∀ s, ∃ d ∈ p.options s, (∀ n, p.worst goal n s = 0) →
      ∀ t, 0 < d.weight t → ∀ n, p.worst goal n t = 0 := by
    intro s
    by_cases hs : ∀ n, p.worst goal n s = 0
    · obtain ⟨d, hd, hstay⟩ := exists_option_never hs
      exact ⟨d, hd, fun _ => hstay⟩
    · obtain ⟨d, hd⟩ := p.offered s
      exact ⟨d, hd, fun h => absurd h hs⟩
  choose c hc hstay using hex
  exact ⟨c, hc, hstay⟩

/-- **Some allowed chain has a value below its averages under every offer** and stays among the
states of smallest chance zero. -/
theorem exists_chain_below (p : Process S) (goal : S) :
    ∃ c, p.Allows c ∧ p.Stays goal c ∧
      ∀ s, s ≠ goal → ∀ d ∈ p.options s, c.value goal s ≤ d.mean (c.value goal) := by
  classical
  obtain ⟨(c : Chain S), hc, hmin⟩ := exists_min_image
    ((Fintype.piFinset p.options).filter (p.Stays goal))
    (fun c : Chain S => ∑ s, c.value goal s) (by
      obtain ⟨c, hc, hstay⟩ := p.exists_allows_stays goal
      exact ⟨c, mem_filter.mpr ⟨Fintype.mem_piFinset.mpr hc, hstay⟩⟩)
  obtain ⟨hmem, hstay⟩ := mem_filter.mp hc
  have hallow : p.Allows c := Fintype.mem_piFinset.mp hmem
  refine ⟨c, hallow, hstay, fun s hs d hd => ?_⟩
  by_cases hn : ∀ n, p.worst goal n s = 0
  · rw [Chain.value_eq_zero fun n => hstay.trap.within_eq_zero n hn]
    exact d.mean_nonneg Chain.value_nonneg
  by_contra hlt
  have hlt : d.mean (c.value goal) < c.value goal s := not_le.mp hlt
  let c' : Chain S := Function.update c s d
  -- the changed state is not one of those where the chain has to stay
  have hstay' : p.Stays goal c' := by
    intro t ht u hu
    have hts : t ≠ s := fun h => hn (h ▸ ht)
    rw [show c' t = c t from Function.update_of_ne hts d c] at hu
    exact hstay t ht u hu
  -- the old value is above its averages under the new chain, so it bounds the new one
  have hle : ∀ t, c'.value goal t ≤ c.value goal t := by
    refine Chain.value_le (Chain.value_goal c goal).ge Chain.value_nonneg fun t ht => ?_
    rcases eq_or_ne t s with rfl | hts
    · rw [show c' t = d from Function.update_self t d c]
      exact hlt.le
    · rw [show c' t = c t from Function.update_of_ne hts d c]
      exact (Chain.value_eq_mean ht).ge
  have hstrict : c'.value goal s < c.value goal s := by
    rw [Chain.value_eq_mean (c := c') hs, show c' s = d from Function.update_self s d c]
    exact (d.mean_mono hle).trans_lt hlt
  have hsum : ∑ t, c'.value goal t < ∑ t, c.value goal t :=
    sum_lt_sum (fun t _ => hle t) ⟨s, mem_univ s, hstrict⟩
  exact absurd (hmin c' (mem_filter.mpr ⟨Fintype.mem_piFinset.mpr (hallow.update hd), hstay'⟩))
    (not_le.mpr hsum)

/-- **The limit of the smallest chances** is a function below its averages under every offer. -/
theorem exists_lowest (p : Process S) (goal : S) :
    ∃ v : S → ℚ, (∀ s, s ≠ goal → ∀ d ∈ p.options s, v s ≤ d.mean v) ∧
      ∀ s, IsLUB (Set.range fun n => p.worst goal n s) (v s) := by
  obtain ⟨c, hc, hstay, hbelow⟩ := p.exists_chain_below goal
  refine ⟨c.value goal, hbelow, fun s => ⟨?_, fun u hu => ?_⟩⟩
  · rintro _ ⟨n, rfl⟩
    exact (worst_le_within hc n s).trans ((Chain.isLUB_value c goal s).1 ⟨n, rfl⟩)
  · refine le_of_forall_worst_le (Chain.value_goal c goal).le hbelow (fun t ht => ?_)
      fun n => hu ⟨n, rfl⟩
    exact (Chain.value_eq_zero fun n => hstay.trap.within_eq_zero n ht).le

/-- The smallest chance of ever coming to the goal. -/
noncomputable def lowest (p : Process S) (goal : S) : S → ℚ := (p.exists_lowest goal).choose

theorem lowest_le_mean {s : S} (hs : s ≠ goal) {d : Distribution S} (hd : d ∈ p.options s) :
    p.lowest goal s ≤ d.mean (p.lowest goal) :=
  (p.exists_lowest goal).choose_spec.1 s hs d hd

theorem isLUB_lowest (p : Process S) (goal s : S) :
    IsLUB (Set.range fun n => p.worst goal n s) (p.lowest goal s) :=
  (p.exists_lowest goal).choose_spec.2 s

/-- **Whatever is below its averages under every offer is below the smallest chance**, if it
vanishes where that chance is zero for every number of steps. -/
theorem le_lowest {f : S → ℚ} (hgoal : f goal ≤ 1)
    (hsub : ∀ s, s ≠ goal → ∀ d ∈ p.options s, f s ≤ d.mean f)
    (hzero : ∀ s, (∀ n, p.worst goal n s = 0) → f s ≤ 0) (s : S) : f s ≤ p.lowest goal s :=
  le_of_forall_worst_le hgoal hsub hzero fun n => (p.isLUB_lowest goal s).1 ⟨n, rfl⟩

theorem worst_le_lowest (n : ℕ) (s : S) : p.worst goal n s ≤ p.lowest goal s :=
  (p.isLUB_lowest goal s).1 ⟨n, rfl⟩

theorem lowest_le_one (s : S) : p.lowest goal s ≤ 1 := by
  refine (p.isLUB_lowest goal s).2 ?_
  rintro _ ⟨n, rfl⟩
  exact p.worst_le_one goal n s

theorem lowest_nonneg (s : S) : 0 ≤ p.lowest goal s :=
  (p.worst_nonneg goal 0 s).trans (worst_le_lowest 0 s)

theorem lowest_goal (p : Process S) (goal : S) : p.lowest goal goal = 1 :=
  le_antisymm (lowest_le_one goal) ((p.worst_goal goal 0).ge.trans (worst_le_lowest 0 goal))

/-- The smallest chance is zero exactly where it is so for every number of steps. -/
theorem lowest_eq_zero_iff {s : S} : p.lowest goal s = 0 ↔ ∀ n, p.worst goal n s = 0 := by
  constructor
  · intro h n
    exact le_antisymm ((worst_le_lowest n s).trans h.le) (p.worst_nonneg goal n s)
  · intro h
    refine le_antisymm ((p.isLUB_lowest goal s).2 ?_) (lowest_nonneg s)
    rintro _ ⟨n, rfl⟩
    exact (h n).le

/-- The smallest chance is at most the largest. -/
theorem lowest_le_highest (s : S) : p.lowest goal s ≤ p.highest goal s := by
  obtain ⟨c, hc, -⟩ := p.exists_chain_above goal
  refine (p.isLUB_lowest goal s).2 ?_
  rintro _ ⟨n, rfl⟩
  exact ((worst_le_within hc n s).trans (within_le_best hc n s)).trans
    ((p.isLUB_highest goal s).1 ⟨n, rfl⟩)

end Process

end MarkovDecision
