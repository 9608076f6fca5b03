import MarkovDecision.Proofs.Synthesis.ValueIteration
import MarkovDecision.Query.Discount

/-!
# Value iteration on a chain

Where there is nothing to choose, value iteration and the discounted reward over a
number of steps are two ways of unrolling one recursion. A sweep takes the best of
the enabled actions, which is the only one, so that it is one step of the unrolling
(`Model.sweep_of_isChain`); and both begin with zero. Hence the two agree after every
number of sweeps (`Model.swept_of_isChain`), and it does not matter whether the sweeps
have ended because they came close or because no more were allowed.

Nothing is asked of the rows here: they need not be distributions.
-/

namespace MarkovDecision

/-- One step of the unrolled reward, as `unrollReward` makes it first. -/
def rewardStep {n : ℕ} (p : Matrix ℚ n n) (rewards : Vector ℚ n) (γ : ℚ) (y : Vector ℚ n) :
    Vector ℚ n :=
  Vector.zipWith (fun v r => v * γ + r) (p.apply y) rewards

/-- **Unrolling is iterating.** -/
theorem unrollReward_eq_iterate {n : ℕ} (p : Matrix ℚ n n) (rewards : Vector ℚ n) (γ : ℚ) (k : ℕ)
    (y : Vector ℚ n) : unrollReward p rewards γ k y = (rewardStep p rewards γ)^[k] y := by
  induction k generalizing y with
  | zero => rfl
  | succ k ih =>
    rw [unrollReward, ih, Function.iterate_succ_apply]
    rfl

namespace Model

variable {m : Model ℚ} {γ : ℚ}

/-- **A sweep over a chain is one step of the unrolling.** -/
theorem sweep_of_isChain (hm : m.isChain = true) (γ : ℚ) (v : Vector ℚ m.size) :
    m.sweep γ v = rewardStep m.chainMatrix m.rewards γ v := by
  refine ext_get fun s => ?_
  -- the best of one value is that value
  have hsweep : (m.sweep γ v).get s = m.backup γ v s m.unnamed := by
    rw [sweep, get_ofFn, enabled_of_isChain hm s]
    exact List.mem_singleton.mp (isGreatest_maximum (List.cons_ne_nil _ _)).1
  have hrow : dot (m.row s m.unnamed) v = (m.chainMatrix.apply v).get s := by
    rw [Matrix.apply, get_map, chainMatrix, get_map]
    rfl
  rw [hsweep, backup, hrow, rewardStep, get_zipWith, add_comm, mul_comm]

/-- The values after a number of sweeps over a chain. -/
theorem swept_of_isChain (hm : m.isChain = true) (γ : ℚ) (k : ℕ) :
    m.swept γ k = unrollReward m.chainMatrix m.rewards γ k (Vector.replicate m.size 0) := by
  rw [unrollReward_eq_iterate, swept, funext (sweep_of_isChain hm γ)]

/-- The discounted reward over a number of steps is always there. -/
theorem discountedReward_steps (hm : m.isChain = true) (hγ : Parameter.discount γ = .ok ())
    (k : ℕ) : m.discountedReward (.steps k) γ
      = .ok (unrollReward m.chainMatrix m.rewards γ k (Vector.replicate m.size 0)) := by
  rw [discountedReward, hγ, hm]
  rfl

/-- **On a chain value iteration returns the discounted reward of its number of sweeps.** It
answers whenever its plan passes the check, and stops before the last sweep allowed only because it
has converged; in either case the discounted reward over as many steps as there were sweeps is the
same vector. -/
theorem discountedReward_eq_values (hm : m.isChain = true) {plan : IterationPlan ℚ}
    (hplan : plan.check = .ok ()) :
    ∃ o, m.valueIteration plan = .ok o ∧ o.sweeps ≤ plan.maxSweeps ∧
      (o.sweeps < plan.maxSweeps → o.converged = true) ∧
      m.discountedReward (.steps o.sweeps) plan.gamma = .ok o.values := by
  obtain ⟨hγ, -⟩ := bind_check_eq_ok_iff.mp hplan
  obtain ⟨h0, h1, hε⟩ := IterationPlan.check_iff.mp hplan
  obtain ⟨k, hk, hanswer, hclose⟩ := m.exists_of_valueIteration h0 h1 hε plan.maxSweeps
  refine ⟨_, hanswer, hk, hclose, ?_⟩
  rw [discountedReward_steps hm hγ, swept_of_isChain hm]

/-- A chain that pays in one of its two states. -/
def alternating : List Declaration :=
  [.state "work" (some 4), .state "rest" (some (-1)),
    .transition "work" none [⟨1, "work"⟩, ⟨3, "rest"⟩], .transition "rest" none [⟨1, "work"⟩]]

/-- Without a discount value iteration does not converge on the alternating chain, and still returns
the reward of its five sweeps. -/
theorem discountedReward_eq_values_alternating : ∃ b : Builder ℚ, ∃ m : Model ℚ,
    ∃ o : Iteration m, Builder.ofDeclarations alternating = .ok b ∧ b.build none = .ok m ∧
      m.valueIteration ⟨1, 1 / 100, 5⟩ = .ok o ∧ o.converged = false ∧
      m.discountedReward (.steps 5) 1 = .ok o.values := by
  obtain ⟨b, m, hb, hm, htest⟩ := Builder.exists_of_any alternating
    (fun m => m.isChain && (m.valueIteration ⟨1, 1 / 100, 5⟩).toOption.any
      fun o => o.sweeps == 5 && !o.converged) (by decide +kernel)
  obtain ⟨hchain, htest⟩ := Bool.and_eq_true_iff.mp htest
  obtain ⟨o', ho', hstop⟩ := (Option.any_eq_true _ _).mp htest
  obtain ⟨hsweeps, hconverged⟩ := Bool.and_eq_true_iff.mp hstop
  have hplan : (⟨1, 1 / 100, 5⟩ : IterationPlan ℚ).check = .ok () :=
    IterationPlan.check_iff.mpr (by norm_num)
  obtain ⟨o, ho, -, -, hreward⟩ := discountedReward_eq_values hchain hplan
  obtain rfl := Except.ok.inj (ho.symm.trans (eq_ok_of_toOption ho'))
  rw [eq_of_beq hsweeps] at hreward
  exact ⟨b, m, o, hb, hm, ho, by simpa using hconverged, hreward⟩

end Model

end MarkovDecision
