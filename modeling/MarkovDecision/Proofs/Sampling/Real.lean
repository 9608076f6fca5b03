import Mathlib
import MarkovDecision.Proofs.Outcome
import MarkovDecision.Sampling.SequentialTest

/-!
# The statistical engines over the real numbers

The estimate and the sequential test take logarithms, and rational arithmetic has
none. Here their text is read over `ℝ`, with the logarithm of analysis, so that the
theorems about them are about the numbers that the documentation writes down.

What the engines ask of their parameters becomes a list of inequalities
(`TestPlan.check_iff_proper`): over the reals every number is regular and finite, and
nothing else is left of the checks.
-/

namespace MarkovDecision

/-- Real arithmetic. -/
noncomputable instance Scalar.real : Scalar ℝ where
  decLT := inferInstance
  decLE := inferInstance
  lowest := 0
  rootBelow x e := decide (√x < e)
  rootAtLeast x e := decide (e ≤ √x)

/-- Real arithmetic with the natural logarithm. -/
noncomputable instance Analytic.real : Analytic ℝ where
  log := Real.log
  ceilNat x := min ⌈x⌉₊ (2 ^ 64 - 1)

/-! ### Parameters -/

namespace Parameter

theorem properProbability_eq_ok_iff {name : String} {x : ℝ} :
    properProbability name x = .ok () ↔ 0 < x ∧ x < 1 := by
  refine check_eq_ok_iff.trans ?_
  rw [Scalar.inOpenUnit, Bool.and_eq_true, decide_eq_true_eq, decide_eq_true_eq]

theorem tolerance_eq_ok_iff {x : ℝ} : tolerance x = .ok () ↔ 0 < x := by
  refine check_not_eq_ok_iff.trans ?_
  rw [Scalar.isFinite, sub_self, beq_self_eq_true, Bool.not_true, Bool.false_or, decide_eq_true_eq,
    not_le]

theorem errorRates_eq_ok_iff {x y : ℝ} : errorRates x y = .ok () ↔ x + y < 1 :=
  check_not_eq_ok_iff.trans not_le

end Parameter

/-- What makes sense as a plan: the error rates are proper and add up to less than one, and so are
the two probabilities, with the smaller one below the larger one. -/
structure TestPlan.Proper (plan : TestPlan ℝ) : Prop where
  /-- The first error rate is positive. -/
  alpha_pos : 0 < plan.alpha
  /-- The second error rate is positive. -/
  beta_pos : 0 < plan.beta
  /-- Together they are less than one. -/
  rates_lt_one : plan.alpha + plan.beta < 1
  /-- The margin is positive. -/
  epsilon_pos : 0 < plan.epsilon
  /-- The smaller probability is positive. -/
  low_pos : 0 < plan.theta - plan.epsilon
  /-- The larger one is less than one. -/
  high_lt_one : plan.theta + plan.epsilon < 1

/-- **A plan passes its check exactly if it is proper.** -/
theorem TestPlan.check_iff_proper {plan : TestPlan ℝ} : plan.check = .ok () ↔ plan.Proper := by
  rw [TestPlan.check]
  simp only [bind_check_eq_ok_iff, Parameter.properProbability_eq_ok_iff,
    Parameter.tolerance_eq_ok_iff, Parameter.errorRates_eq_ok_iff]
  constructor
  · rintro ⟨hα, hβ, hrates, hε, hlow, hhigh⟩
    exact ⟨hα.1, hβ.1, hrates, hε, hlow.1, hhigh.2⟩
  · rintro ⟨hα, hβ, hrates, hε, hlow, hhigh⟩
    refine ⟨⟨hα, ?_⟩, ⟨hβ, ?_⟩, hrates, hε, ⟨hlow, ?_⟩, ?_, hhigh⟩ <;> linarith

end MarkovDecision
