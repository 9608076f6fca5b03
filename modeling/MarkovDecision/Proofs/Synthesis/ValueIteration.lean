import MarkovDecision.Proofs.Model.Process
import MarkovDecision.Proofs.Process.Discounted
import MarkovDecision.Synthesis.ValueIteration

/-!
# How good value iteration is

Value iteration stops when two successive sweeps are close to each other, and hands
out the last values and a policy that is greedy for them. This module says how close
they are to the best: the values by `γ * ε / (1 - γ)`, the policy by twice that, and that
the loop does come to a stop (`Model.valueIteration_accurate`).

What is to be compared with is stated without the engine. The best values are those
that are the greatest, over the enabled actions, of the reward and the discounted
average of themselves (`Model.IsOptimal`); a policy is worth the limit of what it is
expected to collect in a number of steps (`Model.collected`).

The loop is taken apart first (`Sweeps.run_spec`): it ends after some number of sweeps, all
earlier ones were apart, and it ends with the last one allowed or with two that are
not apart. Nothing is said about arithmetic there. The test is a distance in the
Euclidean sense, and all that is needed of it is that it bounds the change of every
single value, and vanishes with their common bound.
-/

namespace MarkovDecision

open Finset

/-! ### The loop -/

namespace Sweeps

variable {K : Type} {n : ℕ}

/-- The situation of the loop after a number of sweeps from given values. -/
def after (sweep : Vector K n → Vector K n) (v : Vector K n) : ℕ → Sweeps K n
  | 0 => ⟨none, v, 0⟩
  | k + 1 => ⟨some (sweep^[k] v), sweep^[k + 1] v, k + 1⟩

/-- One sweep more. -/
theorem next_after (sweep : Vector K n → Vector K n) (v : Vector K n) (k : ℕ) :
    (⟨some (after sweep v k).current, sweep (after sweep v k).current,
      (after sweep v k).count + 1⟩ : Sweeps K n) = after sweep v (k + 1) := by
  cases k with
  | zero => rfl
  | succ k => simp only [after, Function.iterate_succ_apply']

/-- **Where the loop ends**: after some number of sweeps, all before it having been apart; and
unless it is the last one allowed, these are not. -/
theorem run_spec [Scalar K] (sweep : Vector K n → Vector K n) (v : Vector K n) (epsilon : K)
    (fuel k : ℕ) :
    ∃ j, k ≤ j ∧ j ≤ k + fuel ∧ run sweep epsilon fuel (after sweep v k) = after sweep v j ∧
      (∀ i, k ≤ i → i < j → (after sweep v i).apart epsilon = true) ∧
      (j < k + fuel → (after sweep v j).apart epsilon = false) := by
  induction fuel generalizing k with
  | zero =>
    exact ⟨k, le_rfl, le_rfl, rfl, fun i hki hik => absurd hki (not_le.mpr hik),
      fun h => absurd h (lt_irrefl k)⟩
  | succ fuel ih =>
    rw [run]
    by_cases hapart : (after sweep v k).apart epsilon = true
    · rw [if_pos hapart, next_after]
      obtain ⟨j, hkj, hj, hrun, hbefore, hend⟩ := ih (k + 1)
      refine ⟨j, by omega, by omega, hrun, fun i hki hij => ?_, fun hlt => hend (by omega)⟩
      rcases hki.eq_or_lt with rfl | hki
      · exact hapart
      · exact hbefore i hki hij
    · rw [if_neg hapart]
      exact ⟨k, le_rfl, by omega, rfl, fun i hki hik => absurd hki (not_le.mpr hik),
        fun _ => Bool.eq_false_iff.mpr hapart⟩

/-- In exact arithmetic values are close exactly if they are not apart. -/
theorem close_eq_not_apart (w : Sweeps ℚ n) (ε : ℚ) : w.close ε = !w.apart ε := by
  rcases w with ⟨_ | v, current, count⟩
  · rfl
  · show decide (squaredDistance current v < ε * ε) = !decide (ε * ε ≤ squaredDistance current v)
    rw [← decide_not]
    exact decide_eq_decide.mpr not_le.symm

end Sweeps

/-! ### The distance -/

theorem squaredDistance_eq {n : ℕ} (x y : Vector ℚ n) :
    squaredDistance x y = ∑ i, (x.get i - y.get i) ^ 2 := by
  simp only [squaredDistance, dot_eq_sum, get_zipWith, sq]

/-- **Two vectors that are close are so in every entry.** -/
theorem abs_get_sub_lt {n : ℕ} {x y : Vector ℚ n} {ε : ℚ} (hε : 0 < ε)
    (h : squaredDistance x y < ε * ε) (i : Fin n) : |x.get i - y.get i| < ε := by
  rw [squaredDistance_eq, ← sq] at h
  have hle : (x.get i - y.get i) ^ 2 ≤ ∑ j, (x.get j - y.get j) ^ 2 :=
    single_le_sum (fun j _ => sq_nonneg (x.get j - y.get j)) (mem_univ i)
  exact abs_lt_of_sq_lt_sq (hle.trans_lt h) hε.le

/-- Two vectors whose entries differ by little are close. -/
theorem squaredDistance_le {n : ℕ} {x y : Vector ℚ n} {M : ℚ}
    (h : ∀ i, |x.get i - y.get i| ≤ M) : squaredDistance x y ≤ n * M ^ 2 := by
  rw [squaredDistance_eq]
  calc ∑ i, (x.get i - y.get i) ^ 2 ≤ ∑ _i : Fin n, M ^ 2 :=
        sum_le_sum fun i _ => sq_le_sq.mpr ((h i).trans (le_abs_self M))
    _ = n * M ^ 2 := by rw [sum_const, card_univ, Fintype.card_fin, nsmul_eq_mul]

/-! ### Plans -/

theorem Parameter.discount_eq_ok_iff {γ : ℚ} : discount γ = .ok () ↔ 0 ≤ γ ∧ γ ≤ 1 := by
  refine check_eq_ok_iff.trans ?_
  rw [Scalar.inUnit, Bool.and_eq_true, decide_eq_true_eq, decide_eq_true_eq]

/-- What value iteration asks of its plan. -/
theorem IterationPlan.check_iff {plan : IterationPlan ℚ} :
    plan.check = .ok () ↔ 0 ≤ plan.gamma ∧ plan.gamma ≤ 1 ∧ 0 < plan.epsilon := by
  have htolerance : Parameter.tolerance plan.epsilon = .ok () ↔ 0 < plan.epsilon := by
    refine check_not_eq_ok_iff.trans ?_
    rw [Scalar.isFinite, sub_self, beq_self_eq_true, Bool.not_true, Bool.false_or,
      decide_eq_true_eq, not_le]
  rw [check, bind_check_eq_ok_iff, Parameter.discount_eq_ok_iff, htolerance, and_assoc]

/-! ### The best action -/

/-- The best action so far comes with its score, and no action passed over has a larger one. -/
theorem foldl_better_spec {α : Type} (score : α → ℚ) (rest : List α) (a : α) :
    ∃ best, rest.foldl (better score) (a, score a) = (best, score best) ∧
      best ∈ a :: rest ∧ ∀ a' ∈ a :: rest, score a' ≤ score best := by
  induction rest generalizing a with
  | nil => exact ⟨a, rfl, List.mem_cons_self, by simp⟩
  | cons a' rest ih =>
    rw [List.foldl_cons, better]
    by_cases hlt : score a < score a'
    · rw [if_pos hlt]
      obtain ⟨best, heq, hmem, hle⟩ := ih a'
      refine ⟨best, heq, List.mem_cons_of_mem a hmem, List.forall_mem_cons.mpr ⟨?_, hle⟩⟩
      exact hlt.le.trans (hle a' List.mem_cons_self)
    · rw [if_neg hlt]
      obtain ⟨best, heq, hmem, hle⟩ := ih a
      obtain ⟨ha, hrest⟩ := List.forall_mem_cons.mp hle
      refine ⟨best, heq, ?_, ?_⟩
      · exact List.mem_cons.mpr ((List.mem_cons.mp hmem).imp_right (List.mem_cons_of_mem a'))
      · exact List.forall_mem_cons.mpr
          ⟨ha, List.forall_mem_cons.mpr ⟨(not_lt.mp hlt).trans ha, hrest⟩⟩

namespace Model

/-- **The greedy action is enabled and has the largest score.** -/
theorem greedy_spec {m : Model ℚ} {s : m.State} (hs : m.enabled.get s ≠ [])
    (score : m.Action → ℚ) :
    m.greedy s score ∈ m.enabled.get s ∧
      ∀ a ∈ m.enabled.get s, score a ≤ score (m.greedy s score) := by
  rw [greedy]
  split
  next h => exact absurd h hs
  next a rest h =>
    obtain ⟨best, heq, hmem, hle⟩ := foldl_better_spec score rest a
    rw [heq, h]
    exact ⟨hmem, hle⟩

/-! ### What is best, and what a policy is worth -/

/-- **The best values**: the greatest, over the enabled actions, of the reward and the discounted
average of themselves. -/
def IsOptimal (m : Model ℚ) (γ : ℚ) (v : m.State → ℚ) : Prop :=
  ∀ s, IsGreatest
    {x | ∃ a ∈ m.enabled.get s, x = m.rewards.get s + γ * ∑ t, m.prob s a t * v t} (v s)

/-- The discounted reward that a run which takes the action `choice s` in every state `s` is
expected to collect in a number of steps. -/
def collected (m : Model ℚ) (γ : ℚ) (choice : m.State → m.Action) : ℕ → m.State → ℚ
  | 0 => fun _ => 0
  | n + 1 => fun s =>
    m.rewards.get s + γ * ∑ t, m.prob s (choice s) t * m.collected γ choice n t

/-- The policy that is greedy for values. -/
def greedyFor (m : Model ℚ) (γ : ℚ) (v : Vector ℚ m.size) (s : m.State) : m.Action :=
  m.greedy s (m.backup γ v s)

/-- The rewards of a model, with a discount. -/
def payoff (m : Model ℚ) {γ : ℚ} (h0 : 0 ≤ γ) (h1 : γ < 1) : Payoff m.State where
  reward := m.rewards.get
  discount := γ
  discount_nonneg := h0
  discount_lt_one := h1

namespace Stochastic

variable {m : Model ℚ} (h : m.Stochastic) {γ : ℚ} (h0 : 0 ≤ γ) (h1 : γ < 1)

theorem backup_row {s : m.State} {a : m.Action} (ha : a ∈ m.enabled.get s) (v : m.State → ℚ) :
    (m.payoff h0 h1).backup s (h.row s a ha) v
      = m.rewards.get s + γ * ∑ t, m.prob s a t * v t := rfl

theorem backup_eq {s : m.State} {a : m.Action} (ha : a ∈ m.enabled.get s) (v : Vector ℚ m.size) :
    m.backup γ v s a = (m.payoff h0 h1).backup s (h.row s a ha) v.get := by
  rw [backup, dot_eq_sum]
  rfl

/-- **The best values are those that a sweep of the process keeps.** -/
theorem isOptimal_iff {v : m.State → ℚ} :
    m.IsOptimal γ v ↔ (m.payoff h0 h1).Sweep h.process v v := by
  constructor
  · intro hv
    refine ⟨fun s d hd => ?_, fun s => ?_⟩
    · obtain ⟨a, ha, rfl⟩ := h.mem_options.mp hd
      exact (hv s).2 ⟨a, ha, h.backup_row h0 h1 ha v⟩
    · obtain ⟨a, ha, heq⟩ := (hv s).1
      exact ⟨h.row s a ha, h.row_mem_options ha, heq.trans (h.backup_row h0 h1 ha v).symm⟩
  · intro hv s
    constructor
    · obtain ⟨d, hd, heq⟩ := hv.attained s
      obtain ⟨a, ha, rfl⟩ := h.mem_options.mp hd
      exact ⟨a, ha, heq.trans (h.backup_row h0 h1 ha v)⟩
    · rintro _ ⟨a, ha, rfl⟩
      exact (h.backup_row h0 h1 ha v).symm.trans_le (hv.le s _ (h.row_mem_options ha))

/-- **A sweep of the engine is one of the process.** -/
theorem sweep_spec (v : Vector ℚ m.size) :
    (m.payoff h0 h1).Sweep h.process v.get (m.sweep γ v).get := by
  have hgreatest : ∀ s, IsGreatest {x | x ∈ (m.enabled.get s).map (m.backup γ v s)}
      ((m.sweep γ v).get s) := by
    intro s
    rw [sweep, get_ofFn]
    exact isGreatest_maximum fun hnil => h.enabled_ne_nil s (List.map_eq_nil_iff.mp hnil)
  refine ⟨fun s d hd => ?_, fun s => ?_⟩
  · obtain ⟨a, ha, rfl⟩ := h.mem_options.mp hd
    rw [← h.backup_eq h0 h1 ha]
    exact (hgreatest s).2 (List.mem_map_of_mem ha)
  · obtain ⟨a, ha, heq⟩ := List.mem_map.mp (hgreatest s).1
    exact ⟨h.row s a ha, h.row_mem_options ha, by rw [← heq, h.backup_eq h0 h1 ha]⟩

/-- What a policy collects is what its chain accrues. -/
theorem collected_eq {choice : m.State → m.Action} (hchoice : ∀ s, choice s ∈ m.enabled.get s)
    (n : ℕ) : m.collected γ choice n = (m.payoff h0 h1).accrued (h.follow hchoice) n := by
  induction n with
  | zero => rfl
  | succ n ih =>
    funext s
    rw [collected, ih]
    rfl

include h in
theorem greedyFor_mem (γ : ℚ) (v : Vector ℚ m.size) (s : m.State) :
    m.greedyFor γ v s ∈ m.enabled.get s :=
  (greedy_spec (h.enabled_ne_nil s) _).1

/-- **The greedy policy follows the best offers.** -/
theorem backup_le_greedyFor (v : Vector ℚ m.size) (s : m.State) {d : Distribution m.State}
    (hd : d ∈ h.process.options s) :
    (m.payoff h0 h1).backup s d v.get
      ≤ (m.payoff h0 h1).backup s (h.follow (h.greedyFor_mem γ v) s) v.get := by
  obtain ⟨a, ha, rfl⟩ := h.mem_options.mp hd
  rw [← h.backup_eq h0 h1 ha, follow, ← h.backup_eq h0 h1 (h.greedyFor_mem γ v s)]
  exact (greedy_spec (h.enabled_ne_nil s) (m.backup γ v s)).2 a ha

section Accuracy

variable {v : Vector ℚ m.size} {best : m.State → ℚ} {ε : ℚ}
  (hbest : m.IsOptimal γ best) (hchange : ∀ s, |(m.sweep γ v).get s - v.get s| ≤ ε)

include h h0 h1 hbest hchange

/-- The values of a sweep that changed little are close to the best. -/
theorem abs_sweep_sub_le (s : m.State) : |(m.sweep γ v).get s - best s| ≤ γ * ε / (1 - γ) :=
  (h.sweep_spec h0 h1 v).abs_sub_fixed_le ((h.isOptimal_iff h0 h1).mp hbest) hchange s

open Filter Topology in
/-- The policy that is greedy for them is worth nearly as much as the best. -/
theorem exists_worth_greedyFor : ∃ w : m.State → ℚ,
    (∀ s, Tendsto (fun n => m.collected γ (m.greedyFor γ (m.sweep γ v)) n s) atTop (𝓝 (w s))) ∧
      ∀ s, best s - 2 * γ * ε / (1 - γ) ≤ w s := by
  let c : Chain m.State := h.follow (h.greedyFor_mem γ (m.sweep γ v))
  refine ⟨(m.payoff h0 h1).worth c, fun s => ?_, fun s => ?_⟩
  · simp only [h.collected_eq h0 h1 (h.greedyFor_mem γ (m.sweep γ v))]
    exact (m.payoff h0 h1).tendsto_accrued c s
  · have hvalue := (abs_sub_le_iff.mp (h.abs_sweep_sub_le h0 h1 hbest hchange s)).2
    have hloss : (m.sweep γ v).get s - (m.payoff h0 h1).worth c s ≤ γ * ε / (1 - γ) :=
      (h.sweep_spec h0 h1 v).sub_worth_le hchange
        (fun s _ => h.backup_le_greedyFor h0 h1 (m.sweep γ v) s) s
    have htwice : 2 * γ * ε / (1 - γ) = γ * ε / (1 - γ) + γ * ε / (1 - γ) := by ring
    linarith

end Accuracy

end Stochastic

/-! ### The engine -/

/-- The values after a number of sweeps. -/
def swept (m : Model ℚ) (γ : ℚ) (k : ℕ) : Vector ℚ m.size :=
  (m.sweep γ)^[k] (Vector.replicate m.size 0)

variable {m : Model ℚ} {γ ε : ℚ}

theorem swept_succ (m : Model ℚ) (γ : ℚ) (k : ℕ) : m.swept γ (k + 1) = m.sweep γ (m.swept γ k) :=
  Function.iterate_succ_apply' _ _ _

/-- The loop of the engine after a number of sweeps. -/
def sweepsAfter (m : Model ℚ) (γ : ℚ) (k : ℕ) : Sweeps ℚ m.size :=
  Sweeps.after (m.sweep γ) (Vector.replicate m.size 0) k

/-- **Value iteration answers** with the values of some number of sweeps, not more than are allowed;
unless they are all made, the last two values are close. -/
theorem exists_of_valueIteration (m : Model ℚ) (h0 : 0 ≤ γ) (h1 : γ ≤ 1) (hε : 0 < ε) (k : ℕ) :
    ∃ j ≤ k, m.valueIteration ⟨γ, ε, k⟩ = .ok {
        values := m.swept γ j
        policy := Vector.ofFn (m.greedyFor γ (m.swept γ j))
        sweeps := j
        converged := (m.sweepsAfter γ j).close ε } ∧
      (j < k → (m.sweepsAfter γ j).close ε = true) := by
  obtain ⟨j, -, hj, hrun, -, hend⟩ :=
    Sweeps.run_spec (m.sweep γ) (Vector.replicate m.size 0) ε k 0
  rw [zero_add] at hj hend
  refine ⟨j, hj, ?_, fun hlt => ?_⟩
  · have hlast : Sweeps.run (m.sweep γ) ε k ⟨none, Vector.replicate m.size 0, 0⟩
        = m.sweepsAfter γ j := hrun
    have hcurrent : (m.sweepsAfter γ j).current = m.swept γ j := by cases j <;> rfl
    have hcount : (m.sweepsAfter γ j).count = j := by cases j <;> rfl
    rw [valueIteration, IterationPlan.check_iff.mpr ⟨h0, h1, hε⟩]
    simp only [hlast, hcurrent, hcount]
    rfl
  · rw [Sweeps.close_eq_not_apart, sweepsAfter, hend hlt]
    rfl

/-- **The loop ends close exactly if a sweep has changed little.** -/
theorem close_sweepsAfter_iff {j : ℕ} : (m.sweepsAfter γ j).close ε = true ↔
    ∃ i, j = i + 1 ∧ squaredDistance (m.swept γ (i + 1)) (m.swept γ i) < ε * ε := by
  cases j with
  | zero =>
    constructor
    · rintro ⟨⟩
    · rintro ⟨i, hi, -⟩
      cases hi
  | succ j =>
    refine decide_eq_true_iff.trans ⟨fun h => ⟨j, rfl, h⟩, ?_⟩
    rintro ⟨i, hi, h⟩
    cases hi
    exact h

open Filter in
/-- **Enough sweeps change little.** -/
theorem Stochastic.exists_close (h : m.Stochastic) (h0 : 0 ≤ γ) (h1 : γ < 1) (hε : 0 < ε) :
    ∃ N, ∀ k, N ≤ k → squaredDistance (m.swept γ (k + 1)) (m.swept γ k) < ε * ε := by
  obtain ⟨M, hM⟩ := Payoff.exists_abs_le fun s => (m.swept γ 1).get s - (m.swept γ 0).get s
  have hsweep : ∀ k, (m.payoff h0 h1).Sweep h.process (m.swept γ k).get (m.swept γ (k + 1)).get :=
    fun k => m.swept_succ γ k ▸ h.sweep_spec h0 h1 (m.swept γ k)
  have hchange := Payoff.Sweep.abs_succ_sub_le hsweep hM
  -- a common bound of the entries that vanishes bounds the distance by one that vanishes
  have hlim := (((m.payoff h0 h1).tendsto_discount_pow_mul M).pow 2).const_mul (m.size : ℚ)
  rw [zero_pow two_ne_zero, mul_zero] at hlim
  obtain ⟨N, hN⟩ := eventually_atTop.mp (hlim.eventually_lt_const (mul_pos hε hε))
  exact ⟨N, fun k hk => (squaredDistance_le (hchange k)).trans_lt (hN k hk)⟩

open Filter Topology in
/-- **How good value iteration is.** For a discount `γ` below one and a tolerance `ε`,

* it converges if enough sweeps are allowed;
* there is exactly one way of assigning best values to the states;
* if it has converged, its values are within `γ * ε / (1 - γ)` of the best, and following its policy
  is worth at most twice that less than the best, from every state. -/
theorem valueIteration_accurate {b : Builder ℚ} (hb : b.Reachable) {initial : Option String}
    (hm : b.build initial = .ok m) (h0 : 0 ≤ γ) (h1 : γ < 1) (hε : 0 < ε) :
    (∃ N, ∀ k, N ≤ k → ∃ o, m.valueIteration ⟨γ, ε, k⟩ = .ok o ∧ o.converged = true) ∧
    (∃! v, m.IsOptimal γ v) ∧
    ∀ k o v, m.valueIteration ⟨γ, ε, k⟩ = .ok o → o.converged = true → m.IsOptimal γ v →
      (∀ s, |o.values.get s - v s| ≤ γ * ε / (1 - γ)) ∧
      (∀ s, o.policy.get s ∈ m.enabled.get s) ∧
      ∃ w : m.State → ℚ,
        (∀ s, Tendsto (fun n => m.collected γ o.policy.get n s) atTop (𝓝 (w s))) ∧
        ∀ s, v s - 2 * γ * ε / (1 - γ) ≤ w s := by
  have h := hb.stochastic hm
  refine ⟨?_, ?_, fun k o v ho hconverged hv => ?_⟩
  · obtain ⟨N, hN⟩ := h.exists_close h0 h1 hε
    refine ⟨N + 1, fun k hk => ?_⟩
    obtain ⟨j, hjk, hanswer, hclose⟩ := m.exists_of_valueIteration h0 h1.le hε k
    refine ⟨_, hanswer, ?_⟩
    rcases hjk.lt_or_eq with hlt | rfl
    · exact hclose hlt
    -- all sweeps have been made, and these are enough
    · obtain ⟨i, rfl⟩ : ∃ i, j = i + 1 := ⟨j - 1, by omega⟩
      exact close_sweepsAfter_iff.mpr ⟨i, rfl, hN i (by omega)⟩
  · obtain ⟨v, hv⟩ := (m.payoff h0 h1).exists_sweep_self h.process
    exact ⟨v, (h.isOptimal_iff h0 h1).mpr hv, fun w hw =>
      ((h.isOptimal_iff h0 h1).mp hw).unique hv⟩
  · obtain ⟨j, -, hanswer, -⟩ := m.exists_of_valueIteration h0 h1.le hε k
    obtain rfl := Except.ok.inj (hanswer.symm.trans ho)
    obtain ⟨i, rfl, hdistance⟩ := close_sweepsAfter_iff.mp hconverged
    have hchange : ∀ s, |(m.sweep γ (m.swept γ i)).get s - (m.swept γ i).get s| ≤ ε := by
      rw [← swept_succ]
      exact fun s => (abs_get_sub_lt hε hdistance s).le
    have hpolicy : (Vector.ofFn (m.greedyFor γ (m.swept γ (i + 1)))).get
        = m.greedyFor γ (m.swept γ (i + 1)) := funext fun s => get_ofFn _ s
    simp only [hpolicy]
    refine ⟨fun s => ?_, h.greedyFor_mem γ _, ?_⟩
    · rw [swept_succ]
      exact h.abs_sweep_sub_le h0 h1 hv hchange s
    · rw [swept_succ]
      exact h.exists_worth_greedyFor h0 h1 hv hchange

/-- A state that pays as long as it is kept. -/
def thriving : List Declaration :=
  [.state "rich" (some 5), .state "poor" none, .actions ["stay", "leave"],
    .transition "rich" (some "stay") [⟨1, "rich"⟩],
    .transition "rich" (some "leave") [⟨1, "poor"⟩]]

/-- The values of the thriving process are found up to a thousandth. -/
theorem valueIteration_accurate_thriving : ∃ b : Builder ℚ, ∃ m : Model ℚ, ∃ o : Iteration m,
    Builder.ofDeclarations thriving = .ok b ∧ b.build none = .ok m ∧
      m.valueIteration ⟨1 / 2, 1 / 1000, 100⟩ = .ok o ∧ o.converged = true ∧
      ∃ v, m.IsOptimal (1 / 2) v ∧ ∀ s, |o.values.get s - v s| ≤ 1 / 1000 := by
  obtain ⟨b, m, hb, hm, htest⟩ := Builder.exists_of_any thriving
    (fun m => (m.valueIteration ⟨1 / 2, 1 / 1000, 100⟩).toOption.any (·.converged))
    (by decide +kernel)
  obtain ⟨o, ho, hconverged⟩ := (Option.any_eq_true _ _).mp htest
  have ho := eq_ok_of_toOption ho
  obtain ⟨-, ⟨v, hv, -⟩, haccurate⟩ := valueIteration_accurate
    (Builder.reachable_of_ofDeclarations hb) hm (γ := 1 / 2) (ε := 1 / 1000) (by norm_num)
    (by norm_num) (by norm_num)
  refine ⟨b, m, o, hb, hm, ho, hconverged, v, hv, fun s => ?_⟩
  refine ((haccurate 100 o v ho hconverged hv).1 s).trans ?_
  norm_num

end Model

end MarkovDecision
