import MarkovDecision.Proofs.Sampling.Real
import MarkovDecision.Proofs.Sampling.Trials

/-!
# The error bounds of the sequential test

The loop of the test is run on a sequence of hits and misses instead of runs of a
model (`Wald.outcome`); whatever the engine answers is its answer to such a sequence
(`TestPlan.exists_verdict_eq`). If every run hits with probability `p`, a sequence has a
weight, and the wrong answers together weigh no more than the plan admits: *below* has
a chance of at most `α / (1 - β)` where `p` is `θ + ε` or more, and *above* one of at
most `β / (1 - α)` where it is `θ - ε` or less.

There are two steps. The chance of a verdict at `θ + ε` is compared with its chance at
`θ - ε` (`Wald.chance_verdict_le`). The sequences that end the test after `d` runs with
`h` hits have a common factor `p ^ h * (1 - p) ^ (d - h)`, and the test ends when the
quotient of the two factors leaves an interval; so the two chances differ by the end
of the interval as a factor, whatever the sequences do afterwards. Then the answer is
monotone in the hits (`Wald.outcome_mono`), so that a larger `p` makes *below* less
likely and *above* more so.

The loop knows the quotient only by its logarithm, and computes that from the two
counts in natural numbers: the number of misses is a difference that is cut off at
zero. So every induction carries along that the hits are no more than the runs.
-/

namespace MarkovDecision

open Trials

/-! ### Feeding the loop -/

/-- A run adds one to the hits, or nothing. -/
theorem ite_hit_eq_add (hit : Bool) (hits : ℕ) :
    (if hit then hits + 1 else hits) = hits + hit.toNat := by
  cases hit <;> rfl

/-- The next trial of a sequence; a miss where there is none. -/
def nextTrial : StateM (List Bool) Bool := fun trials => (trials.headD false, trials.tail)

namespace Wald

variable {w : Wald ℝ} {left draws hits hits' : ℕ} {ratio ratio' : ℝ} {trials trials' : List Bool}

/-- What the loop comes to on a sequence of trials. -/
noncomputable def outcome (w : Wald ℝ) (left draws hits : ℕ) (ratio : ℝ) (trials : List Bool) :
    TestOutcome ℝ :=
  (w.run nextTrial left draws hits ratio trials).1

/-- The number of hits after one trial more. -/
def counted (hits : ℕ) (trials : List Bool) : ℕ := hits + (trials.headD false).toNat

/-- **One trial**: the loop ends where the ratio says something, and goes on elsewhere. -/
theorem outcome_succ : w.outcome (left + 1) draws hits ratio trials =
    match w.judge (w.logRatio (draws + 1) (counted hits trials)) with
    | some verdict => ⟨verdict, draws + 1, counted hits trials,
        w.logRatio (draws + 1) (counted hits trials)⟩
    | none => w.outcome left (draws + 1) (counted hits trials)
        (w.logRatio (draws + 1) (counted hits trials)) trials.tail := by
  have hcounted : (if trials.headD false then hits + 1 else hits) = counted hits trials :=
    ite_hit_eq_add (trials.headD false) hits
  simp only [outcome, run, nextTrial, bind, StateT.bind, hcounted]
  cases w.judge (w.logRatio (draws + 1) (counted hits trials)) <;> rfl

theorem outcome_cons (hit : Bool) (trials : List Bool) :
    w.outcome (left + 1) draws hits ratio (hit :: trials) =
      match w.judge (w.logRatio (draws + 1) (hits + hit.toNat)) with
      | some verdict => ⟨verdict, draws + 1, hits + hit.toNat,
          w.logRatio (draws + 1) (hits + hit.toNat)⟩
      | none => w.outcome left (draws + 1) (hits + hit.toNat)
          (w.logRatio (draws + 1) (hits + hit.toNat)) trials :=
  outcome_succ

/-- No run is forgotten. -/
theorem le_draws_outcome : draws ≤ (w.outcome left draws hits ratio trials).draws := by
  induction left generalizing draws hits ratio trials with
  | zero => exact le_rfl
  | succ left ih =>
    rw [outcome_succ]
    split
    · exact Nat.le_succ draws
    · exact (Nat.le_succ draws).trans ih

/-! ### What the ratio says -/

theorem judge_eq_below_iff : w.judge ratio = some .below ↔ w.upper ≤ ratio := by
  rw [judge]
  split_ifs with h h' <;> simp [h]

theorem judge_eq_above_iff : w.judge ratio = some .above ↔ ratio < w.upper ∧ ratio ≤ w.lower := by
  rw [judge]
  split_ifs with h h' <;> simp_all

theorem judge_ne_undecided : w.judge ratio ≠ some .undecided := by
  rw [judge]
  split_ifs <;> simp

/-- The ratio in terms of the two counts. -/
theorem logRatio_eq (h : hits ≤ draws) :
    w.logRatio draws hits = hits * w.hit + (draws - hits) * w.miss := by
  rw [← Nat.cast_sub h]
  rfl

/-- More hits make the ratio smaller. -/
theorem logRatio_anti (hw : w.hit ≤ w.miss) (h : hits ≤ hits') (h' : hits' ≤ draws) :
    w.logRatio draws hits' ≤ w.logRatio draws hits := by
  rw [logRatio_eq h', logRatio_eq (h.trans h')]
  have hcast : (hits : ℝ) ≤ hits' := Nat.cast_le.mpr h
  have hdiff := mul_le_mul_of_nonneg_left hw (sub_nonneg.mpr hcast)
  linarith

/-! ### More hits -/

/-- The second outcome leans to *above* as much as the first one, and as early. -/
structure Leans (o o' : TestOutcome ℝ) : Prop where
  /-- If the first is above, so is the second, and it does not take longer. -/
  above : o.verdict = .above → o'.verdict = .above ∧ o'.draws ≤ o.draws
  /-- If the second is below, so is the first, and it does not take longer. -/
  below : o'.verdict = .below → o.verdict = .below ∧ o.draws ≤ o'.draws

/-- **The test is monotone in the hits.** -/
theorem outcome_mono (hw : w.hit ≤ w.miss) (htrials : List.Forall₂ (· ≤ ·) trials trials')
    (hhits : hits ≤ hits') (hdraws : hits' ≤ draws) :
    Leans (w.outcome left draws hits ratio trials) (w.outcome left draws hits' ratio' trials') := by
  induction left generalizing draws hits hits' ratio ratio' trials trials' with
  | zero => exact ⟨nofun, nofun⟩
  | succ left ih =>
    have hcounted : counted hits trials ≤ counted hits' trials' := by
      cases htrials with
      | nil => exact hhits
      | cons h _ => exact add_le_add hhits (Bool.toNat_le_toNat h)
    have hle : counted hits' trials' ≤ draws + 1 :=
      add_le_add hdraws (Bool.toNat_le _)
    have hratio := logRatio_anti hw hcounted hle
    have htail : List.Forall₂ (· ≤ ·) trials.tail trials'.tail := by
      cases htrials with
      | nil => exact .nil
      | cons _ h => exact h
    rw [outcome_succ, outcome_succ]
    generalize w.logRatio (draws + 1) (counted hits trials) = r at hratio ⊢
    generalize w.logRatio (draws + 1) (counted hits' trials') = r' at hratio ⊢
    have habove : w.judge r = some .above → w.judge r' = some .above := by
      rw [judge_eq_above_iff, judge_eq_above_iff]
      exact fun h => ⟨hratio.trans_lt h.1, hratio.trans h.2⟩
    have hbelow : w.judge r' = some .below → w.judge r = some .below := by
      rw [judge_eq_below_iff, judge_eq_below_iff]
      exact fun h => h.trans hratio
    rcases hjudge : w.judge r with _ | verdict <;> rcases hjudge' : w.judge r' with _ | verdict'
    · exact ih htail hcounted hle
    · -- only the second run ends here, so it is not because its ratio is large
      cases verdict' with
      | below =>
        rw [hbelow hjudge'] at hjudge
        cases hjudge
      | above => exact ⟨fun _ => ⟨rfl, le_draws_outcome⟩, nofun⟩
      | undecided => exact absurd hjudge' judge_ne_undecided
    · cases verdict with
      | below => exact ⟨nofun, fun _ => ⟨rfl, le_draws_outcome⟩⟩
      | above =>
        rw [habove hjudge] at hjudge'
        cases hjudge'
      | undecided => exact absurd hjudge judge_ne_undecided
    · refine ⟨fun h => ⟨?_, le_rfl⟩, fun h => ⟨?_, le_rfl⟩⟩
      · obtain rfl : verdict = .above := h
        exact Option.some.inj (hjudge'.symm.trans (habove hjudge))
      · obtain rfl : verdict' = .below := h
        exact Option.some.inj (hjudge.symm.trans (hbelow hjudge'))

/-! ### Two probabilities -/

/-- The weight of what has been seen after a number of runs. -/
def likelihood (p : ℝ) (draws hits : ℕ) : ℝ := p ^ hits * (1 - p) ^ (draws - hits)

theorem likelihood_hit (p : ℝ) (draws hits : ℕ) :
    likelihood p (draws + 1) (hits + 1) = p * likelihood p draws hits := by
  rw [likelihood, likelihood, Nat.add_sub_add_right, pow_succ]
  ring

theorem likelihood_miss (p : ℝ) (h : hits ≤ draws) :
    likelihood p (draws + 1) hits = (1 - p) * likelihood p draws hits := by
  rw [likelihood, likelihood, Nat.sub_add_comm h, pow_succ]
  ring

/-- **Two probabilities give a verdict chances that differ by a factor**, if wherever the verdict
is reached the weights of what has been seen differ by that factor. -/
theorem likelihood_mul_chance_le {p q c : ℝ} {verdict : Verdict} (hne : verdict ≠ .undecided)
    (hstop : ∀ draws hits, hits ≤ draws → w.judge (w.logRatio draws hits) = some verdict →
      likelihood p draws hits ≤ c * likelihood q draws hits) (left : ℕ) (hle : hits ≤ draws)
    (ratio : ℝ) :
    likelihood p draws hits
        * chance p left (fun trials => (w.outcome left draws hits ratio trials).verdict = verdict)
      ≤ c * (likelihood q draws hits * chance q left
        (fun trials => (w.outcome left draws hits ratio trials).verdict = verdict)) := by
  induction left generalizing draws hits ratio with
  | zero =>
    have hnever : ∀ trials, ¬(w.outcome 0 draws hits ratio trials).verdict = verdict :=
      fun _ h => hne h.symm
    rw [chance_of_forall_not p 0 hnever, chance_of_forall_not q 0 hnever]
    simp
  | succ left ih =>
    -- what the first trial leaves: the verdict, another one, or the rest of the loop
    have hfirst : ∀ hit : Bool,
        likelihood p (draws + 1) (hits + hit.toNat) * chance p left (fun trials =>
            (w.outcome (left + 1) draws hits ratio (hit :: trials)).verdict = verdict)
          ≤ c * (likelihood q (draws + 1) (hits + hit.toNat) * chance q left (fun trials =>
            (w.outcome (left + 1) draws hits ratio (hit :: trials)).verdict = verdict)) := by
      intro hit
      have hle' : hits + hit.toNat ≤ draws + 1 := add_le_add hle (Bool.toNat_le hit)
      rcases hjudge : w.judge (w.logRatio (draws + 1) (hits + hit.toNat)) with _ | verdict'
      · simp only [outcome_cons, hjudge]
        exact ih hle' _
      · simp only [outcome_cons, hjudge]
        by_cases hverdict : verdict' = verdict
        · subst hverdict
          rw [chance_of_forall p left fun _ => rfl, chance_of_forall q left fun _ => rfl, mul_one,
            mul_one]
          exact hstop _ _ hle' hjudge
        · rw [chance_of_forall_not p left fun _ => hverdict,
            chance_of_forall_not q left fun _ => hverdict, mul_zero, mul_zero, mul_zero]
    have hhit := hfirst true
    have hmiss := hfirst false
    simp only [Bool.toNat_true, Bool.toNat_false, add_zero, likelihood_hit,
      likelihood_miss _ hle] at hhit hmiss
    rw [chance_succ, chance_succ]
    linarith

/-- The chance of a verdict at one probability is bounded by that at another one. -/
theorem chance_verdict_le {p q c : ℝ} {verdict : Verdict} (hne : verdict ≠ .undecided)
    (hstop : ∀ draws hits, hits ≤ draws → w.judge (w.logRatio draws hits) = some verdict →
      likelihood p draws hits ≤ c * likelihood q draws hits) (n : ℕ) :
    chance p n (fun trials => (w.outcome n 0 0 0 trials).verdict = verdict)
      ≤ c * chance q n (fun trials => (w.outcome n 0 0 0 trials).verdict = verdict) := by
  have hone : ∀ p : ℝ, likelihood p 0 0 = 1 := by
    intro p
    rw [likelihood, pow_zero, Nat.sub_zero, pow_zero, one_mul]
  have h := likelihood_mul_chance_le hne hstop n (le_refl 0) 0
  rwa [hone, hone, one_mul, one_mul] at h

/-! ### The ratio of a plan -/

section Plan

variable {plan : TestPlan ℝ} (hplan : plan.Proper)

theorem likelihood_pos {p : ℝ} (h0 : 0 < p) (h1 : p < 1) (draws hits : ℕ) :
    0 < likelihood p draws hits :=
  mul_pos (pow_pos h0 _) (pow_pos (sub_pos.mpr h1) _)

include hplan

theorem likelihood_low_pos (draws hits : ℕ) :
    0 < likelihood (plan.theta - plan.epsilon) draws hits :=
  likelihood_pos hplan.low_pos (by linarith [hplan.epsilon_pos, hplan.high_lt_one]) draws hits

theorem likelihood_high_pos (draws hits : ℕ) :
    0 < likelihood (plan.theta + plan.epsilon) draws hits :=
  likelihood_pos (by linarith [hplan.epsilon_pos, hplan.low_pos]) hplan.high_lt_one draws hits

/-- A hit speaks for the larger probability. -/
theorem hit_ofPlan_nonpos : (ofPlan plan).hit ≤ 0 := by
  have hlow := hplan.low_pos
  have hε := hplan.epsilon_pos
  exact Real.log_nonpos (div_nonneg (by linarith) (by linarith))
    (div_le_one_of_le₀ (by linarith) (by linarith))

/-- A miss speaks for the smaller one. -/
theorem miss_ofPlan_nonneg : 0 ≤ (ofPlan plan).miss := by
  have hhigh := hplan.high_lt_one
  have hε := hplan.epsilon_pos
  exact Real.log_nonneg ((one_le_div (by linarith)).mpr (by linarith))

theorem hit_le_miss_ofPlan : (ofPlan plan).hit ≤ (ofPlan plan).miss :=
  (hit_ofPlan_nonpos hplan).trans (miss_ofPlan_nonneg hplan)

/-- **The ratio that a test compares** is the quotient of the two likelihoods. -/
theorem logRatio_ofPlan (draws hits : ℕ) : (ofPlan plan).logRatio draws hits =
    Real.log (likelihood (plan.theta - plan.epsilon) draws hits
      / likelihood (plan.theta + plan.epsilon) draws hits) := by
  have hlow := hplan.low_pos
  have hhigh := hplan.high_lt_one
  have hε := hplan.epsilon_pos
  have hhit : 0 < (plan.theta - plan.epsilon) / (plan.theta + plan.epsilon) :=
    div_pos hlow (by linarith)
  have hmiss : 0 < (1 - (plan.theta - plan.epsilon)) / (1 - (plan.theta + plan.epsilon)) :=
    div_pos (by linarith) (by linarith)
  have hcounts : (ofPlan plan).logRatio draws hits =
      hits * Real.log ((plan.theta - plan.epsilon) / (plan.theta + plan.epsilon))
        + ((draws - hits : ℕ) : ℝ)
          * Real.log ((1 - (plan.theta - plan.epsilon)) / (1 - (plan.theta + plan.epsilon))) := rfl
  rw [hcounts, ← Real.log_pow, ← Real.log_pow,
    ← Real.log_mul (pow_pos hhit hits).ne' (pow_pos hmiss (draws - hits)).ne', div_pow, div_pow,
    div_mul_div_comm]
  rfl

/-- Where the test says *below*, what has been seen is unlikely at the larger probability. -/
theorem likelihood_le_of_below
    (h : (ofPlan plan).judge ((ofPlan plan).logRatio draws hits) = some .below) :
    likelihood (plan.theta + plan.epsilon) draws hits ≤ plan.alpha / (1 - plan.beta)
      * likelihood (plan.theta - plan.epsilon) draws hits := by
  have hα := hplan.alpha_pos
  have hβ : 0 < 1 - plan.beta := by linarith [hplan.alpha_pos, hplan.rates_lt_one]
  have hlow := likelihood_low_pos hplan draws hits
  have hhigh := likelihood_high_pos hplan draws hits
  rw [judge_eq_below_iff, logRatio_ofPlan hplan] at h
  have hle : (1 - plan.beta) / plan.alpha ≤ _ :=
    (Real.log_le_log_iff (div_pos hβ hα) (div_pos hlow hhigh)).mp h
  rw [div_le_div_iff₀ hα hhigh] at hle
  rw [div_mul_eq_mul_div, le_div_iff₀ hβ]
  linarith

/-- Where the test says *above*, what has been seen is unlikely at the smaller probability. -/
theorem likelihood_le_of_above
    (h : (ofPlan plan).judge ((ofPlan plan).logRatio draws hits) = some .above) :
    likelihood (plan.theta - plan.epsilon) draws hits ≤ plan.beta / (1 - plan.alpha)
      * likelihood (plan.theta + plan.epsilon) draws hits := by
  have hβ := hplan.beta_pos
  have hα : 0 < 1 - plan.alpha := by linarith [hplan.beta_pos, hplan.rates_lt_one]
  have hlow := likelihood_low_pos hplan draws hits
  have hhigh := likelihood_high_pos hplan draws hits
  rw [judge_eq_above_iff, logRatio_ofPlan hplan] at h
  have hle : _ ≤ plan.beta / (1 - plan.alpha) :=
    (Real.log_le_log_iff (div_pos hlow hhigh) (div_pos hβ hα)).mp h.2
  rwa [div_le_iff₀ hhigh] at hle

end Plan

end Wald

/-! ### The runs of a model -/

section Runs

variable {G ε : Type} {g g' : G}

/-- **Whatever makes the runs**, a loop that comes to an outcome has come to it on a sequence of
hits and misses. -/
theorem Wald.exists_outcome_eq {w : Wald ℝ} {left draws hits : ℕ} {ratio : ℝ}
    {sample : ExceptT ε (StateM G) Bool} {o : TestOutcome ℝ}
    (h : w.run sample left draws hits ratio g = (.ok o, g')) :
    ∃ trials : List Bool, trials.length = left ∧ w.outcome left draws hits ratio trials = o := by
  induction left generalizing draws hits ratio g with
  | zero =>
    cases h
    exact ⟨[], rfl, rfl⟩
  | succ left ih =>
    obtain ⟨hit, mid, -, hrest⟩ := exists_of_run_bind h
    simp only [ite_hit_eq_add] at hrest
    rcases hjudge : w.judge (w.logRatio (draws + 1) (hits + hit.toNat)) with _ | verdict
    · rw [hjudge] at hrest
      obtain ⟨trials, rfl, rfl⟩ := ih hrest
      refine ⟨hit :: trials, rfl, ?_⟩
      rw [outcome_cons, hjudge]
    · rw [hjudge] at hrest
      cases hrest
      refine ⟨hit :: List.replicate left false, by simp, ?_⟩
      rw [outcome_cons, hjudge]

/-- **The outcomes of the sequential test are outcomes on sequences of trials**, as many as the plan
allows for. -/
theorem Model.exists_outcome_eq [RandomSource G] {m : Model ℝ} {target : String}
    {plan : TestPlan ℝ} {o : TestOutcome ℝ} (h : m.sequentialTest target plan g = (.ok o, g')) :
    ∃ trials : List Bool, trials.length = plan.maxRuns ∧
      (Wald.ofPlan plan).outcome plan.maxRuns 0 0 0 trials = o := by
  obtain ⟨_, _, -, h⟩ := exists_of_run_bind h
  obtain ⟨_, _, -, h⟩ := exists_of_run_bind h
  exact Wald.exists_outcome_eq (run_of_run_adapt h)

end Runs

/-! ### The bounds -/

namespace TestPlan

/-- The answer of the loop to a sequence of hits and misses. -/
noncomputable def verdict (plan : TestPlan ℝ) (trials : List Bool) : Verdict :=
  ((Wald.ofPlan plan).outcome plan.maxRuns 0 0 0 trials).verdict

variable {plan : TestPlan ℝ}

/-- Whatever the engine answers is an answer to such a sequence, of as many trials as the plan
allows for. -/
theorem exists_verdict_eq {G : Type} [RandomSource G] {m : Model ℝ} {target : String} {g g' : G}
    {o : TestOutcome ℝ} (h : m.sequentialTest target plan g = (.ok o, g')) :
    ∃ trials : List Bool, trials.length = plan.maxRuns ∧ plan.verdict trials = o.verdict := by
  obtain ⟨trials, hlength, houtcome⟩ := Model.exists_outcome_eq h
  exact ⟨trials, hlength, congrArg TestOutcome.verdict houtcome⟩

theorem increasing_above (hplan : plan.Proper) :
    Increasing fun trials => plan.verdict trials = .above :=
  fun _ _ htrials h =>
    ((Wald.outcome_mono (Wald.hit_le_miss_ofPlan hplan) htrials le_rfl le_rfl).above h).1

theorem increasing_not_below (hplan : plan.Proper) :
    Increasing fun trials => ¬plan.verdict trials = .below :=
  fun _ _ htrials hnot h =>
    hnot ((Wald.outcome_mono (Wald.hit_le_miss_ofPlan hplan) htrials le_rfl le_rfl).below h).1

/-- **The error bounds of the sequential test.** If every run hits with probability `p`, then a
plan that passes its check says *below* with a chance of at most `α / (1 - β)` where `p` is
`θ + ε` or more, and *above* with a chance of at most `β / (1 - α)` where `p` is `θ - ε` or
less. The engine says nothing, on any model and from any source, that the plan does not say about
some sequence of trials. -/
theorem chance_wrong_verdict_le {p : ℝ} (hplan : plan.check = .ok ()) (h0 : 0 ≤ p) (h1 : p ≤ 1) :
    (plan.theta + plan.epsilon ≤ p →
      chance p plan.maxRuns (fun trials => plan.verdict trials = .below)
        ≤ plan.alpha / (1 - plan.beta)) ∧
    (p ≤ plan.theta - plan.epsilon →
      chance p plan.maxRuns (fun trials => plan.verdict trials = .above)
        ≤ plan.beta / (1 - plan.alpha)) ∧
    ∀ (G : Type) [RandomSource G] (m : Model ℝ) (target : String) (g g' : G) (o : TestOutcome ℝ),
      m.sequentialTest target plan g = (.ok o, g') →
      ∃ trials : List Bool, trials.length = plan.maxRuns ∧ plan.verdict trials = o.verdict := by
  have hproper := check_iff_proper.mp hplan
  obtain ⟨hα, hβ, hrates, hε, hlow, hhigh⟩ := check_iff_proper.mp hplan
  refine ⟨fun hp => ?_, fun hp => ?_, fun G _ m target g g' o => exists_verdict_eq⟩
  · have hbelow : Verdict.below ≠ .undecided := by decide
    have hrate : 0 ≤ plan.alpha / (1 - plan.beta) := div_nonneg hα.le (by linarith)
    calc chance p plan.maxRuns (fun trials => plan.verdict trials = .below)
        ≤ chance (plan.theta + plan.epsilon) plan.maxRuns
            (fun trials => plan.verdict trials = .below) :=
          (increasing_not_below hproper).chance_ge (by linarith) hp h1
      _ ≤ plan.alpha / (1 - plan.beta) * chance (plan.theta - plan.epsilon) plan.maxRuns
            (fun trials => plan.verdict trials = .below) :=
          Wald.chance_verdict_le hbelow (fun _ _ _ => Wald.likelihood_le_of_below hproper) _
      _ ≤ plan.alpha / (1 - plan.beta) * 1 :=
          mul_le_mul_of_nonneg_left (chance_le_one hlow.le (by linarith)) hrate
      _ = plan.alpha / (1 - plan.beta) := mul_one _
  · have habove : Verdict.above ≠ .undecided := by decide
    have hrate : 0 ≤ plan.beta / (1 - plan.alpha) := div_nonneg hβ.le (by linarith)
    calc chance p plan.maxRuns (fun trials => plan.verdict trials = .above)
        ≤ chance (plan.theta - plan.epsilon) plan.maxRuns
            (fun trials => plan.verdict trials = .above) :=
          (increasing_above hproper).chance_le h0 hp (by linarith)
      _ ≤ plan.beta / (1 - plan.alpha) * chance (plan.theta + plan.epsilon) plan.maxRuns
            (fun trials => plan.verdict trials = .above) :=
          Wald.chance_verdict_le habove (fun _ _ _ => Wald.likelihood_le_of_above hproper) _
      _ ≤ plan.beta / (1 - plan.alpha) * 1 :=
          mul_le_mul_of_nonneg_left (chance_le_one (by linarith) hhigh.le) hrate
      _ = plan.beta / (1 - plan.alpha) := mul_one _

/-- The standard plan errs with a chance of at most one in ninety-nine. -/
theorem chance_wrong_verdict_standard : (standard : TestPlan ℝ).check = .ok () ∧
    chance 0.6 10000 (fun trials => (standard : TestPlan ℝ).verdict trials = .below) ≤ 1 / 99 ∧
    chance 0.4 10000 (fun trials => (standard : TestPlan ℝ).verdict trials = .above) ≤ 1 / 99 := by
  have hcheck : (standard : TestPlan ℝ).check = .ok () := by
    rw [check_iff_proper]
    constructor <;> norm_num [standard]
  refine ⟨hcheck, ?_, ?_⟩
  · refine ((chance_wrong_verdict_le hcheck (by norm_num) (by norm_num)).1 ?_).trans ?_
    · norm_num [standard]
    · norm_num [standard]
  · refine ((chance_wrong_verdict_le hcheck (by norm_num) (by norm_num)).2.1 ?_).trans ?_
    · norm_num [standard]
    · norm_num [standard]

end TestPlan

end MarkovDecision
