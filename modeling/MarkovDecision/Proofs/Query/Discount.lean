import MarkovDecision.Proofs.Query.Solvable
import MarkovDecision.Proofs.Synthesis.Unrolled

/-!
# Discounted reward is discounted expected reward

A run of a chain that starts in a state is in the state `t` after `k` steps with the
probability that the `k`-th power of the matrix holds for the two. So the reward it is
expected to collect in `n` steps, a later one counting less by a factor `γ` for every
step, is a sum over the powers below `n`. The bounded query returns that sum, for every
`γ` up to one (`Model.get_accumulated`): it unrolls the sum from its end, and one step of
the unrolling multiplies what there is by the matrix and moves every power up by one.

Without a bound the query solves a system, and whatever it returns is the worth of the
chain, since there is only one function that is worth itself (`Payoff.eq_worth`). What is
left out by stopping after `n` steps is then at most `γ ^ n` times the largest reward for
ever. For `γ = 1` no bound of this kind is left, and there is no solution to return
either: the rows of the matrix add up to one, so any solution could be raised by a
constant, while elimination returns solutions only where there is no other
(`LinearSystem.eq_of_solve`). Hence some pivot is always negligible, whatever the
rewards.
-/

namespace MarkovDecision

open Finset

/-! ### No solution without a discount -/

/-- **No solution is returned for the identity less a stochastic matrix**: a solution could be
raised by one. -/
theorem LinearSystem.solve_identityMinus_one {n : ℕ} {p : Matrix ℚ n n} {c : Chain (Fin n)}
    (hp : ∀ s t, p.entry s t = (c s).weight t) (b : Vector ℚ n) (s : Fin n) :
    (ofRows (p.identityMinus 1) b).solve = none := by
  rcases hsolve : (ofRows (p.identityMinus 1) b).solve with _ | x
  · rfl
  have hx := (solves_identityMinus_iff p b 1 x).mp (solves_of_solve hsolve)
  have hraised : (ofRows (p.identityMinus 1) b).Solves (x.map (· + 1)) := by
    refine (solves_identityMinus_iff p b 1 _).mpr fun i => ?_
    have hmean : (p.apply (x.map (· + 1))).get i = (p.apply x).get i + 1 := by
      simp only [get_apply, get_map, mul_add, mul_one, sum_add_distrib, hp, (c i).sum_weight]
    rw [get_map, hmean, hx i]
    ring
  have hget := congrArg (fun v => v.get s) (eq_of_solve hsolve hraised)
  simp only [get_map] at hget
  linarith

/-! ### The bounded query -/

namespace Model

variable {m : Model ℚ} {γ : ℚ}

/-- The probabilities of the steps of a chain, as a matrix whose powers can be taken. -/
def transitions (m : Model ℚ) := Matrix.of m.chainMatrix.entry

/-- The largest magnitude of a reward. -/
def largestReward (m : Model ℚ) : ℚ :=
  univ.sup' ⟨m.initial, mem_univ _⟩ fun t => |m.rewards.get t|

/-- What the query returns for a number of steps. -/
def accumulated (m : Model ℚ) (γ : ℚ) (n : ℕ) : Vector ℚ m.size :=
  unrollReward m.chainMatrix m.rewards γ n (Vector.replicate m.size 0)

theorem get_accumulated_zero (s : m.State) : (m.accumulated γ 0).get s = 0 := get_replicate 0 s

/-- **One step more** is the reward of the state and what is accumulated after a step. -/
theorem get_accumulated_succ (n : ℕ) (s : m.State) :
    (m.accumulated γ (n + 1)).get s
      = m.rewards.get s + γ * ∑ t, m.chainMatrix.entry s t * (m.accumulated γ n).get t := by
  rw [accumulated, unrollReward_eq_iterate, Function.iterate_succ_apply', rewardStep,
    get_zipWith, get_apply, ← unrollReward_eq_iterate, add_comm, mul_comm]
  rfl

/-- The reward that is expected of a single step, one step later. -/
theorem sum_transitions_succ (r : m.State → ℚ) (k : ℕ) (s : m.State) :
    ∑ t, (m.transitions ^ (k + 1)) s t * r t
      = ∑ t, m.chainMatrix.entry s t * ∑ u, (m.transitions ^ k) t u * r u := by
  have hpow := congrFun (Matrix.mulVec_mulVec r m.transitions (m.transitions ^ k)) s
  rw [← pow_succ'] at hpow
  exact hpow.symm

/-- **What is accumulated is the discounted expected reward of every step.** -/
theorem get_accumulated (n : ℕ) (s : m.State) :
    (m.accumulated γ n).get s
      = ∑ k ∈ range n, γ ^ k * ∑ t, (m.transitions ^ k) s t * m.rewards.get t := by
  induction n generalizing s with
  | zero => rw [get_accumulated_zero, range_zero, sum_empty]
  | succ n ih =>
    have hfirst : ∑ t, (m.transitions ^ 0) s t * m.rewards.get t = m.rewards.get s := by
      rw [pow_zero]
      exact congrFun (Matrix.one_mulVec m.rewards.get) s
    have hrest : ∑ k ∈ range n, γ ^ (k + 1) * ∑ t, (m.transitions ^ (k + 1)) s t * m.rewards.get t
        = γ * ∑ t, m.chainMatrix.entry s t * (m.accumulated γ n).get t := by
      calc ∑ k ∈ range n, γ ^ (k + 1) * ∑ t, (m.transitions ^ (k + 1)) s t * m.rewards.get t
          = ∑ k ∈ range n, ∑ t, γ * (m.chainMatrix.entry s t *
              (γ ^ k * ∑ u, (m.transitions ^ k) t u * m.rewards.get u)) := by
            refine sum_congr rfl fun k _ => ?_
            rw [sum_transitions_succ m.rewards.get, mul_sum]
            refine sum_congr rfl fun t _ => ?_
            ring
        _ = ∑ t, ∑ k ∈ range n, γ * (m.chainMatrix.entry s t *
              (γ ^ k * ∑ u, (m.transitions ^ k) t u * m.rewards.get u)) := sum_comm
        _ = γ * ∑ t, m.chainMatrix.entry s t * (m.accumulated γ n).get t := by
            rw [mul_sum]
            refine sum_congr rfl fun t _ => ?_
            rw [ih, mul_sum, mul_sum]
    rw [get_accumulated_succ, sum_range_succ', pow_zero, one_mul, hfirst, hrest, add_comm]

/-! ### The unbounded query -/

theorem abs_reward_le (m : Model ℚ) (t : m.State) : |m.rewards.get t| ≤ m.largestReward :=
  le_sup' (fun t => |m.rewards.get t|) (mem_univ t)

namespace Stochastic

variable (h : m.Stochastic) (hm : m.isChain = true) (h0 : 0 ≤ γ) (h1 : γ < 1)

/-- What the bounded query returns is what the chain accrues. -/
theorem get_accumulated_eq (n : ℕ) (s : m.State) :
    (m.accumulated γ n).get s = (m.payoff h0 h1).accrued (h.chain hm) n s := by
  induction n generalizing s with
  | zero => exact get_accumulated_zero s
  | succ n ih =>
    rw [get_accumulated_succ]
    simp only [h.entry_chainMatrix hm, ih]
    rfl

/-- **What the unbounded query returns is what the chain is worth.** -/
theorem get_eq_worth {y : Vector ℚ m.size} (hy : (m.discountSystem γ).solve = some y) :
    y.get = (m.payoff h0 h1).worth (h.chain hm) := by
  refine Payoff.eq_worth _ fun s => ?_
  have hsolves := LinearSystem.solves_of_solve hy
  rw [discountSystem, LinearSystem.solves_identityMinus_iff] at hsolves
  rw [hsolves s, get_apply, add_comm]
  simp only [h.entry_chainMatrix hm]
  rfl

end Stochastic

/-- **Discounted reward means discounted expected reward.** For a chain and a discount `γ` between
zero and one,

* the query for `n` steps is answered, and its value at a state is the sum, over the steps `k`
  below `n`, of `γ ^ k` times the reward that is expected after `k` steps;
* for `γ` below one, whatever the unbounded query returns differs from that value by at most
  `γ ^ n / (1 - γ)` times the largest reward;
* for `γ = 1` the unbounded query is refused as divergent, whatever the rewards. -/
theorem discountedReward_eq_sum {b : Builder ℚ} (hb : b.Reachable) {initial : Option String}
    (hm : b.build initial = .ok m) (hchain : m.isChain = true) (h0 : 0 ≤ γ) (h1 : γ ≤ 1) :
    ∃ w : ℕ → Vector ℚ m.size, (∀ n, m.discountedReward (.steps n) γ = .ok (w n)) ∧
      (∀ n s, (w n).get s
        = ∑ k ∈ range n, γ ^ k * ∑ t, (m.transitions ^ k) s t * m.rewards.get t) ∧
      (γ < 1 → ∀ y, m.discountedReward .unbounded γ = .ok y →
        ∀ n s, |y.get s - (w n).get s| ≤ γ ^ n * m.largestReward / (1 - γ)) ∧
      (γ = 1 → ∀ rewards : Vector ℚ m.size,
        { m with rewards }.discountedReward .unbounded γ = .error (.diverged γ)) := by
  have h := hb.stochastic hm
  have hdiscount := Parameter.discount_eq_ok_iff.mpr ⟨h0, h1⟩
  refine ⟨m.accumulated γ, discountedReward_steps hchain hdiscount, get_accumulated,
    fun hlt y hy n s => ?_, fun hone rewards => ?_⟩
  · have hsolve : (m.discountSystem γ).solve = some y := by
      rw [discountedReward_unbounded hchain h0 h1] at hy
      split at hy
      next y' hy' => rwa [Except.ok.inj hy] at hy'
      next => cases hy
    rw [congrFun (h.get_eq_worth hchain h0 hlt hsolve) s, h.get_accumulated_eq hchain h0 hlt,
      abs_sub_comm, mul_div_assoc]
    exact Payoff.abs_accrued_sub_worth_le _ ((m.payoff h0 hlt).abs_worth_le m.abs_reward_le) n s
  · subst hone
    have hsolve : ({ m with rewards }.discountSystem 1).solve = none :=
      LinearSystem.solve_identityMinus_one (h.entry_chainMatrix hchain) rewards m.initial
    have hother : { m with rewards }.isChain = true := hchain
    rw [discountedReward_unbounded hother h0 h1, hsolve]

/-- Rewards of the alternating chain that are halved with every step: three steps leave out one at
most of what is paid for ever. Without a discount there is no answer for ever. -/
theorem discountedReward_eq_sum_alternating : ∃ b : Builder ℚ, ∃ m : Model ℚ,
    ∃ v y : Vector ℚ m.size, Builder.ofDeclarations alternating = .ok b ∧ b.build none = .ok m ∧
      m.discountedReward (.steps 3) (1 / 2) = .ok v ∧
      m.discountedReward .unbounded (1 / 2) = .ok y ∧
      (∀ s, v.get s = ∑ k ∈ range 3,
        (1 / 2) ^ k * ∑ t, (m.transitions ^ k) s t * m.rewards.get t) ∧
      (∀ s, |y.get s - v.get s| ≤ 1) ∧
      m.discountedReward .unbounded 1 = .error (.diverged 1) := by
  obtain ⟨b, m, hb, hm, htest⟩ := Builder.exists_of_any alternating
    (fun m => m.isChain && m.largestReward == 4 &&
      (m.discountedReward .unbounded (1 / 2)).toOption.isSome) (by decide +kernel)
  rw [Bool.and_eq_true_iff, Bool.and_eq_true_iff] at htest
  obtain ⟨⟨hchain, hlargest⟩, hsome⟩ := htest
  obtain ⟨y, hy⟩ := Option.isSome_iff_exists.mp hsome
  have hreachable := Builder.reachable_of_ofDeclarations hb
  obtain ⟨w, hw, hsum, hrest, -⟩ := discountedReward_eq_sum hreachable hm hchain (γ := 1 / 2)
    (by norm_num) (by norm_num)
  obtain ⟨-, -, -, -, hdiverged⟩ := discountedReward_eq_sum hreachable hm hchain (γ := 1)
    (by norm_num) le_rfl
  refine ⟨b, m, w 3, y, hb, hm, hw 3, eq_ok_of_toOption hy, hsum 3, fun s => ?_,
    hdiverged rfl m.rewards⟩
  have hleft := hrest (by norm_num) y (eq_ok_of_toOption hy) 3 s
  rw [eq_of_beq hlargest] at hleft
  norm_num at hleft
  exact hleft

end Model

end MarkovDecision
