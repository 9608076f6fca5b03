import MarkovDecision.Proofs.Sampling.Wald

/-!
# The first draw that decides

A sequential test is fed with a sequence of hits and misses and stops at the first draw
that brings the logarithm of the ratio to one of the two ends of its interval. Which end
that is, and when, is monotone in the hits: a sequence with more of them is called
*above* whenever one with fewer is, and not later, and the other way round for *below*
(`TestPlan.outcomeOn_mono`).

`MarkovDecision.Proofs.Sampling.Wald` compares two runs of the loop draw by draw
(`Wald.outcome_mono`). What is added here is the sequence itself: after `k` draws the loop
holds the ratio of the first `k` trials, whatever has gone before, so that a test which
comes to no decision is one whose ratio has stayed inside the interval all the time
(`Wald.verdict_outcome_eq_undecided_iff`).
-/

namespace MarkovDecision

namespace Wald

variable {w : Wald ℝ} {left draws hits : ℕ} {ratio : ℝ} {trials : List Bool}

/-- No more runs are made than are left. -/
theorem draws_outcome_le : (w.outcome left draws hits ratio trials).draws ≤ draws + left := by
  induction left generalizing draws hits ratio trials with
  | zero => exact le_rfl
  | succ left ih =>
    rw [outcome_succ]
    split
    · exact Nat.add_le_add_left (Nat.le_add_left 1 left) draws
    · have hle := @ih (draws + 1) (counted hits trials)
        (w.logRatio (draws + 1) (counted hits trials)) trials.tail
      omega

/-- The ratio says nothing where it is inside the interval. -/
theorem judge_eq_none_iff : w.judge ratio = none ↔ w.lower < ratio ∧ ratio < w.upper := by
  rw [judge]
  split_ifs with hupper hlower
  · simp [hupper.not_gt]
  · simp [hlower.not_gt]
  · simp [not_le.mp hupper, not_le.mp hlower]

/-- **The loop comes to no decision** exactly if the ratio of the first trials stays inside the
interval, as many as are taken. -/
theorem verdict_outcome_eq_undecided_iff (w : Wald ℝ) (left draws : ℕ) (ratio : ℝ)
    (h : ℕ → Bool) :
    (w.outcome left draws (Nat.count (h · = true) draws) ratio
        ((List.range' draws left).map h)).verdict = .undecided ↔
      ∀ k, draws < k → k ≤ draws + left →
        w.judge (w.logRatio k (Nat.count (h · = true) k)) = none := by
  induction left generalizing draws ratio with
  | zero => exact ⟨fun _ k hlt hle => absurd hle hlt.not_ge, fun _ => rfl⟩
  | succ left ih =>
    have hcount : counted (Nat.count (h · = true) draws)
        (h draws :: (List.range' (draws + 1) left).map h) = Nat.count (h · = true) (draws + 1) := by
      rw [Nat.count_succ, counted, List.headD_cons]
      cases h draws <;> rfl
    rw [List.range'_succ, List.map_cons, outcome_succ, hcount, List.tail_cons]
    rcases hjudge : w.judge (w.logRatio (draws + 1) (Nat.count (h · = true) (draws + 1))) with
      _ | verdict
    · -- the first draw decides nothing, and the others are those of the rest of the loop
      refine (ih (draws + 1) _).trans ⟨fun hrest k hlt hle => ?_, fun hall k hlt hle => ?_⟩
      · rcases Nat.eq_or_lt_of_le (Nat.succ_le_of_lt hlt) with rfl | hlt'
        · exact hjudge
        · exact hrest k hlt' (by omega)
      · exact hall k (by omega) (by omega)
    · constructor
      · rintro rfl
        exact absurd hjudge judge_ne_undecided
      · intro hall
        rw [hall (draws + 1) (by omega) (by omega)] at hjudge
        cases hjudge

end Wald

namespace TestPlan

variable {plan : TestPlan ℝ}

/-- **The outcome of a test on a sequence of hits and misses**, of which it takes no more than the
plan allows for. -/
noncomputable def outcomeOn (plan : TestPlan ℝ) (h : ℕ → Bool) : TestOutcome ℝ :=
  (Wald.ofPlan plan).outcome plan.maxRuns 0 0 0 ((List.range' 0 plan.maxRuns).map h)

/-- **The logarithm of the ratio** of the first `k` trials of a sequence, as the documentation of
the test writes it down. -/
noncomputable def ratioOn (plan : TestPlan ℝ) (h : ℕ → Bool) (k : ℕ) : ℝ :=
  Nat.count (h · = true) k * Real.log ((plan.theta - plan.epsilon) / (plan.theta + plan.epsilon))
    + (k - Nat.count (h · = true) k)
      * Real.log ((1 - (plan.theta - plan.epsilon)) / (1 - (plan.theta + plan.epsilon)))

/-- The loop holds that ratio. -/
theorem logRatio_count (h : ℕ → Bool) (k : ℕ) :
    (Wald.ofPlan plan).logRatio k (Nat.count (h · = true) k) = plan.ratioOn h k :=
  Wald.logRatio_eq (Nat.count_le _)

/-- **A test comes to no decision** exactly if no draw brings the ratio to one of the ends of the
interval. -/
theorem verdict_outcomeOn_eq_undecided_iff (plan : TestPlan ℝ) (h : ℕ → Bool) :
    (plan.outcomeOn h).verdict = .undecided ↔ ∀ k, 0 < k → k ≤ plan.maxRuns →
      Real.log (plan.beta / (1 - plan.alpha)) < plan.ratioOn h k ∧
        plan.ratioOn h k < Real.log ((1 - plan.beta) / plan.alpha) := by
  have hloop := Wald.verdict_outcome_eq_undecided_iff (.ofPlan plan) plan.maxRuns 0 0 h
  rw [Nat.count_zero, Nat.zero_add] at hloop
  simp only [logRatio_count, Wald.judge_eq_none_iff] at hloop
  exact hloop

/-- What the engine answers with is the outcome on some sequence. -/
theorem exists_outcomeOn_eq {G : Type} [RandomSource G] {m : Model ℝ} {target : String} {g g' : G}
    {o : TestOutcome ℝ} (h : m.sequentialTest target plan g = (.ok o, g')) :
    ∃ trials : ℕ → Bool, plan.outcomeOn trials = o := by
  obtain ⟨trials, hlength, houtcome⟩ := Model.exists_outcome_eq h
  have hlist : (List.range' 0 plan.maxRuns).map (trials.getD · false) = trials := by
    rw [← hlength]
    refine List.ext_getElem (by simp) fun i h1 h2 => ?_
    simp [h2]
  refine ⟨(trials.getD · false), ?_⟩
  rw [outcomeOn, hlist]
  exact houtcome

/-- **The sequential test is monotone in the hits.** Let a plan pass its check.

* If a sequence has a hit wherever another one has, then it is called *above* if the other one is,
  and the other one is called *below* if it is; either way no later.
* On every sequence the test makes no more draws than the plan allows for, and it comes to no
  decision exactly if none of these draws brings the logarithm of the ratio to one of the ends of
  its interval.
* Whatever the engine answers, on any model and from any source, it is the outcome on some
  sequence. -/
theorem outcomeOn_mono (hplan : plan.check = .ok ()) :
    (∀ h h' : ℕ → Bool, (∀ i, h i = true → h' i = true) →
      ((plan.outcomeOn h).verdict = .above → (plan.outcomeOn h').verdict = .above ∧
        (plan.outcomeOn h').draws ≤ (plan.outcomeOn h).draws) ∧
      ((plan.outcomeOn h').verdict = .below → (plan.outcomeOn h).verdict = .below ∧
        (plan.outcomeOn h).draws ≤ (plan.outcomeOn h').draws)) ∧
    (∀ h : ℕ → Bool, (plan.outcomeOn h).draws ≤ plan.maxRuns ∧
      ((plan.outcomeOn h).verdict = .undecided ↔ ∀ k, 0 < k → k ≤ plan.maxRuns →
        Real.log (plan.beta / (1 - plan.alpha)) < plan.ratioOn h k ∧
          plan.ratioOn h k < Real.log ((1 - plan.beta) / plan.alpha))) ∧
    ∀ (G : Type) [RandomSource G] (m : Model ℝ) (target : String) (g g' : G) (o : TestOutcome ℝ),
      m.sequentialTest target plan g = (.ok o, g') → ∃ h : ℕ → Bool, plan.outcomeOn h = o := by
  have hproper := check_iff_proper.mp hplan
  refine ⟨fun h h' hle => ?_, fun h => ⟨?_, verdict_outcomeOn_eq_undecided_iff plan h⟩,
    fun G _ m target g g' o => exists_outcomeOn_eq⟩
  · have htrials : List.Forall₂ (· ≤ ·) ((List.range' 0 plan.maxRuns).map h)
        ((List.range' 0 plan.maxRuns).map h') := by
      rw [List.forall₂_map_left_iff, List.forall₂_map_right_iff, List.forall₂_same]
      exact fun i _ => hle i
    have hleans : Wald.Leans (plan.outcomeOn h) (plan.outcomeOn h') :=
      Wald.outcome_mono (Wald.hit_le_miss_ofPlan hproper) htrials le_rfl le_rfl
    exact ⟨hleans.above, hleans.below⟩
  · exact Wald.draws_outcome_le.trans_eq (Nat.zero_add plan.maxRuns)

/-- A plan for a bound of a half, with probabilities of one and three quarters to compare and five
runs at most. -/
noncomputable def quarters : TestPlan ℝ :=
  ⟨10, (1 / 10 : ℚ), (1 / 10 : ℚ), (1 / 4 : ℚ), (1 / 2 : ℚ), 5⟩

/-- A hit and a miss weigh the same there, and it takes two more of the one than of the other. -/
theorem judge_quarters {draws hits : ℕ} (hle : hits ≤ draws) :
    (Wald.ofPlan quarters).judge ((Wald.ofPlan quarters).logRatio draws hits) =
      if 2 * hits + 2 ≤ draws then some .below
      else if draws + 2 ≤ 2 * hits then some .above else none := by
  have hlog : 0 < Real.log 3 := Real.log_pos (by norm_num)
  have hnine : Real.log 9 = 2 * Real.log 3 := by
    rw [show (9 : ℝ) = 3 ^ 2 by norm_num, Real.log_pow]
    norm_num
  have hupper : (Wald.ofPlan quarters).upper = 2 * Real.log 3 := by
    rw [← hnine]
    change Real.log _ = _
    norm_num [quarters]
  have hlower : (Wald.ofPlan quarters).lower = -(2 * Real.log 3) := by
    rw [← hnine, ← Real.log_inv]
    change Real.log _ = _
    norm_num [quarters]
  have hratio : (Wald.ofPlan quarters).logRatio draws hits
      = ((draws : ℝ) - 2 * hits) * Real.log 3 := by
    have hhit : (Wald.ofPlan quarters).hit = -Real.log 3 := by
      rw [← Real.log_inv]
      change Real.log _ = _
      norm_num [quarters]
    have hmiss : (Wald.ofPlan quarters).miss = Real.log 3 := by
      change Real.log _ = _
      norm_num [quarters]
    rw [Wald.logRatio_eq hle, hhit, hmiss]
    ring
  rw [Wald.judge, hupper, hlower, hratio, ← neg_mul]
  refine if_congr ?_ rfl (if_congr ?_ rfl rfl)
  · rw [mul_le_mul_iff_left₀ hlog, le_sub_iff_add_le, add_comm]
    norm_cast
  · rw [mul_le_mul_iff_left₀ hlog, sub_le_iff_le_add, neg_add_eq_sub, le_sub_iff_add_le]
    norm_cast

/-- A miss and then only hits: the test says *above* after four of the five draws, and so it does on
hits only, and no later. On hits and misses in turn it comes to no decision. -/
theorem outcomeOn_mono_quarters : quarters.check = .ok () ∧
    (quarters.outcomeOn fun i => decide (0 < i)).verdict = .above ∧
    (quarters.outcomeOn fun i => decide (0 < i)).draws = 4 ∧
    (quarters.outcomeOn fun _ => true).verdict = .above ∧
    (quarters.outcomeOn fun _ => true).draws ≤ 4 ∧
    (quarters.outcomeOn fun i => decide (i % 2 = 0)).verdict = .undecided := by
  have hcheck : quarters.check = .ok () := by
    rw [check_iff_proper]
    constructor <;> norm_num [quarters]
  have hlate : (quarters.outcomeOn fun i => decide (0 < i)).verdict = .above ∧
      (quarters.outcomeOn fun i => decide (0 < i)).draws = 4 := by
    have hlist : (List.range' 0 5).map (fun i => decide (0 < i))
        = [false, true, true, true, true] := rfl
    have hruns : quarters.maxRuns = 5 := rfl
    rw [outcomeOn, hruns, hlist]
    simp [Wald.outcome_cons, judge_quarters]
  obtain ⟨hmono, hsingle, -⟩ := outcomeOn_mono hcheck
  obtain ⟨habove, hdraws⟩ := (hmono _ (fun _ => true) fun _ _ => rfl).1 hlate.1
  refine ⟨hcheck, hlate.1, hlate.2, habove, hdraws.trans_eq hlate.2, ?_⟩
  refine (hsingle _).2.mpr fun k hk hle => ?_
  have hfive : k ≤ 5 := hle
  have hbalanced : ¬2 * Nat.count (fun i => decide (i % 2 = 0) = true) k + 2 ≤ k ∧
      ¬k + 2 ≤ 2 * Nat.count (fun i => decide (i % 2 = 0) = true) k := by
    interval_cases k <;> decide
  have hnone := judge_quarters (Nat.count_le (fun i => decide (i % 2 = 0) = true) (n := k))
  rw [if_neg hbalanced.1, if_neg hbalanced.2, logRatio_count] at hnone
  exact Wald.judge_eq_none_iff.mp hnone

end TestPlan

end MarkovDecision
