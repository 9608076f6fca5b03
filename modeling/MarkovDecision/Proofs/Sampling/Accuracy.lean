import MarkovDecision.Proofs.Sampling.Wald

/-!
# The accuracy of an estimate

An estimate is the share of hits among a number of runs that is settled beforehand
(`Model.exists_trials_eq`). Each run hits with the same probability `p`, so the number
of hits has the binomial weights (`Trials.chance_count`), and the chance that the share is
off by more than `ε` is a sum of these (`Trials.missChance`). It is at most
`2 * exp (-2 * n * ε ^ 2)` for `n` runs, whatever `p` (`Trials.missChance_le`): weigh a number
of hits by an exponential of its distance from the mean, and the weighted sum is a power
of what a single trial contributes, which Hoeffding's lemma bounds.

## What the number of runs is good for

That bound is `δ` if there are `log (2 / δ) / (2 * ε ^ 2)` runs. The number of runs that is
made has a four in place of the two, so it is good for `√(2 * δ)` only, and twice as many
are good for `δ` (`EstimatePlan.chance_missed_le`). The difference is real: the runs for an
accuracy of a tenth miss it more often than admitted with a fair coin
(`EstimatePlan.accuracy_missed`).
-/

namespace MarkovDecision

open Finset

namespace Trials

variable {p ε t e : ℝ} {n : ℕ}

/-! ### The number of hits -/

/-- The chance of a number of hits. -/
noncomputable def chanceOfHits (p : ℝ) (n k : ℕ) : ℝ :=
  n.choose k * p ^ k * (1 - p) ^ (n - k)

theorem chanceOfHits_nonneg (h0 : 0 ≤ p) (h1 : p ≤ 1) (n k : ℕ) : 0 ≤ chanceOfHits p n k :=
  mul_nonneg (mul_nonneg (Nat.cast_nonneg _) (pow_nonneg h0 k))
    (pow_nonneg (sub_nonneg.mpr h1) _)

/-- With a fair coin all sequences weigh the same. -/
theorem chanceOfHits_half {k : ℕ} (hk : k ≤ n) :
    chanceOfHits (1 / 2) n k = n.choose k * (1 / 2) ^ n := by
  rw [chanceOfHits, mul_assoc, show (1 - 1 / 2 : ℝ) = 1 / 2 by norm_num, ← pow_add,
    Nat.add_sub_cancel' hk]

open scoped Classical in
/-- **The number of hits has the binomial weights.** -/
theorem chance_count (p : ℝ) (n : ℕ) (event : ℕ → Prop) :
    chance p n (fun trials => event (trials.count true))
      = ∑ k ∈ range (n + 1) with event k, chanceOfHits p n k := by
  induction n generalizing event with
  | zero => by_cases h : event 0 <;> simp [chance_zero, chanceOfHits, sum_filter, h]
  | succ n ih =>
    have hpascal := sum_choose_succ_mul
      (fun i j => if event i then p ^ i * (1 - p) ^ j else 0) n
    have hleft : ∀ i ∈ range (n + 1), n + 1 - i = n - i + 1 := fun i hi =>
      Nat.succ_sub (Nat.lt_succ_iff.mp (mem_range.mp hi))
    simp only [chance_succ, List.count_cons_self, List.count_cons_of_ne Bool.false_ne_true, ih]
    simp only [ih (fun k => event (k + 1)), sum_filter, chanceOfHits, mul_sum, mul_ite, mul_zero,
      mul_assoc] at hpascal ⊢
    rw [hpascal, add_comm]
    -- the first sum is that of a miss, the second that of a hit
    refine congrArg₂ (· + ·) (sum_congr rfl fun i hi => ?_) (sum_congr rfl fun i _ => ?_)
    · rw [hleft i hi]
      split_ifs <;> ring
    · split_ifs <;> ring

/-! ### Exponential weights -/

/-- **The exponential moment of the number of hits** is a power of that of one trial. -/
theorem sum_chanceOfHits_mul_exp (p t : ℝ) (n : ℕ) :
    ∑ k ∈ range (n + 1), chanceOfHits p n k * Real.exp (t * (k - n * p))
      = (p * Real.exp (t * (1 - p)) + (1 - p) * Real.exp (t * (0 - p))) ^ n := by
  rw [add_pow]
  refine sum_congr rfl fun k hk => ?_
  have hkn : k ≤ n := Nat.lt_succ_iff.mp (mem_range.mp hk)
  have hexp : Real.exp (t * (k - n * p))
      = Real.exp (t * (1 - p)) ^ k * Real.exp (t * (0 - p)) ^ (n - k) := by
    rw [← Real.exp_nat_mul, ← Real.exp_nat_mul, ← Real.exp_add, Nat.cast_sub hkn]
    congr 1
    ring
  rw [hexp, chanceOfHits, mul_pow, mul_pow]
  ring

open ProbabilityTheory in
/-- The exponential moment of one trial: Hoeffding's lemma for a coin. -/
theorem moment_le (h0 : 0 ≤ p) (h1 : p ≤ 1) (t : ℝ) :
    p * Real.exp (t * (1 - p)) + (1 - p) * Real.exp (t * (0 - p)) ≤ Real.exp (t ^ 2 / 8) := by
  let coin : MeasureTheory.Measure ℝ := bernoulliMeasure 1 0 ⟨p, h0, h1⟩
  have hmean : ∫ x, x ∂coin = p := by
    rw [integral_bernoulliMeasure, smul_eq_mul, smul_eq_mul, mul_one, mul_zero, add_zero]
  have hunit : ∀ᵐ x ∂coin, x ∈ Set.Icc (0 : ℝ) 1 := by
    rw [MeasureTheory.ae_iff]
    exact bernoulliMeasure_apply_of_notMem_of_notMem _ measurableSet_Icc.compl
      (not_not_intro ⟨zero_le_one, le_rfl⟩) (not_not_intro ⟨le_rfl, zero_le_one⟩)
  have h := (hasSubgaussianMGF_of_mem_Icc aemeasurable_id' hunit).mgf_le t
  rw [hmean, mgf, integral_bernoulliMeasure] at h
  calc p * Real.exp (t * (1 - p)) + (1 - p) * Real.exp (t * (0 - p)) ≤ _ := h
    _ = Real.exp (t ^ 2 / 8) := by
      congr 1
      norm_num
      ring

/-- **A one-sided bound**: an event that puts the weighted distance from the mean at `e` or
more. -/
theorem sum_chanceOfHits_le (h0 : 0 ≤ p) (h1 : p ≤ 1) (event : ℕ → Prop) [DecidablePred event]
    (hevent : ∀ k, k ≤ n → event k → e ≤ t * (k - n * p)) :
    ∑ k ∈ range (n + 1) with event k, chanceOfHits p n k ≤ Real.exp (n * (t ^ 2 / 8) - e) := by
  have hmoment := pow_le_pow_left₀ (add_nonneg (mul_nonneg h0 (Real.exp_pos _).le)
    (mul_nonneg (sub_nonneg.mpr h1) (Real.exp_pos _).le)) (moment_le h0 h1 t) n
  rw [← sum_chanceOfHits_mul_exp, ← Real.exp_nat_mul] at hmoment
  rw [Real.exp_sub, le_div_iff₀ (Real.exp_pos e), sum_mul]
  refine le_trans ?_ hmoment
  calc ∑ k ∈ range (n + 1) with event k, chanceOfHits p n k * Real.exp e
      ≤ ∑ k ∈ range (n + 1) with event k, chanceOfHits p n k * Real.exp (t * (k - n * p)) := by
        refine sum_le_sum fun k hk => ?_
        obtain ⟨hkn, hk⟩ := mem_filter.mp hk
        exact mul_le_mul_of_nonneg_left
          (Real.exp_le_exp.mpr (hevent k (Nat.lt_succ_iff.mp (mem_range.mp hkn)) hk))
          (chanceOfHits_nonneg h0 h1 n k)
    _ ≤ ∑ k ∈ range (n + 1), chanceOfHits p n k * Real.exp (t * (k - n * p)) :=
        sum_le_sum_of_subset_of_nonneg (filter_subset _ _) fun k _ _ =>
          mul_nonneg (chanceOfHits_nonneg h0 h1 n k) (Real.exp_pos _).le

/-! ### Missing an accuracy -/

/-- The chance that the share of hits is off by more than an accuracy. -/
noncomputable def missChance (p : ℝ) (n : ℕ) (ε : ℝ) : ℝ :=
  ∑ k ∈ (range (n + 1)).filter (fun k : ℕ => ε < |(k : ℝ) / n - p|), chanceOfHits p n k

/-- It is a chance of sequences of trials. -/
theorem chance_share (p : ℝ) (n : ℕ) (ε : ℝ) :
    chance p n (fun trials => ε < |(trials.count true : ℝ) / n - p|) = missChance p n ε := by
  rw [chance_count p n fun k => ε < |(k : ℝ) / n - p|, missChance]

/-- Numbers in place of shares: without trials both sides are zero. -/
theorem mul_share_sub {k : ℕ} (hk : k ≤ n) (p : ℝ) : n * ((k : ℝ) / n - p) = k - n * p := by
  rcases Nat.eq_zero_or_pos n with rfl | hn
  · obtain rfl := Nat.le_zero.mp hk
    simp
  · rw [mul_sub, mul_div_cancel₀ _ (Nat.cast_ne_zero.mpr hn.ne')]

/-- **The two-sided bound**: the exponential weights that suit an accuracy `ε` are those of `4 * ε`
on one side and of `-4 * ε` on the other. -/
theorem missChance_le (h0 : 0 ≤ p) (h1 : p ≤ 1) (hε : 0 ≤ ε) (n : ℕ) :
    missChance p n ε ≤ 2 * Real.exp (-(2 * n * ε ^ 2)) := by
  have hn : (0 : ℝ) ≤ n := Nat.cast_nonneg n
  have hside : ∀ r : ℝ, r ^ 2 = 1 →
      ∑ k ∈ (range (n + 1)).filter (fun k : ℕ => ε ≤ r * ((k : ℝ) / n - p)), chanceOfHits p n k
        ≤ Real.exp (-(2 * n * ε ^ 2)) := by
    intro r hr
    refine (sum_chanceOfHits_le (t := 4 * ε * r) (e := 4 * n * ε ^ 2) h0 h1 _
      fun k hk hevent => ?_).trans_eq ?_
    · rw [← mul_share_sub hk p]
      calc 4 * n * ε ^ 2 = 4 * n * ε * ε := by ring
        _ ≤ 4 * n * ε * (r * ((k : ℝ) / n - p)) :=
            mul_le_mul_of_nonneg_left hevent (by positivity)
        _ = 4 * ε * r * (n * ((k : ℝ) / n - p)) := by ring
    · congr 1
      rw [mul_pow, hr]
      ring
  have hcover : ∀ k ∈ range (n + 1), ε < |(k : ℝ) / n - p| →
      ε ≤ 1 * ((k : ℝ) / n - p) ∨ ε ≤ -1 * ((k : ℝ) / n - p) := by
    intro k _ hk
    rw [one_mul, neg_one_mul]
    exact le_abs.mp hk.le
  calc missChance p n ε
      ≤ ∑ k ∈ (range (n + 1)).filter (fun k : ℕ => ε ≤ 1 * ((k : ℝ) / n - p) ∨
          ε ≤ -1 * ((k : ℝ) / n - p)), chanceOfHits p n k := by
        refine sum_le_sum_of_subset_of_nonneg (fun k hk => ?_) fun k _ _ =>
          chanceOfHits_nonneg h0 h1 n k
        obtain ⟨hkn, hk⟩ := mem_filter.mp hk
        exact mem_filter.mpr ⟨hkn, hcover k hkn hk⟩
    _ ≤ Real.exp (-(2 * n * ε ^ 2)) + Real.exp (-(2 * n * ε ^ 2)) := by
        rw [filter_or]
        refine le_trans ?_ (add_le_add (hside 1 (by norm_num)) (hside (-1) (by norm_num)))
        rw [← sum_union_inter]
        exact le_add_of_nonneg_right (sum_nonneg fun k _ => chanceOfHits_nonneg h0 h1 n k)
    _ = 2 * Real.exp (-(2 * n * ε ^ 2)) := (two_mul _).symm

end Trials

/-! ### The runs of a model -/

section Runs

variable {G : Type} {g g' : G}

theorem exists_of_countHits [RandomSource G] {sample : ExceptT (ModelError ℝ) (StateM G) Bool}
    {left hits total : ℕ} (h : countHits sample left hits g = (.ok total, g')) :
    ∃ trials : List Bool, trials.length = left ∧ hits + trials.count true = total := by
  induction left generalizing hits g with
  | zero =>
    cases h
    exact ⟨[], rfl, rfl⟩
  | succ left ih =>
    obtain ⟨hit, mid, -, hrest⟩ := exists_of_run_bind h
    obtain ⟨trials, rfl, rfl⟩ := ih hrest
    refine ⟨hit :: trials, rfl, ?_⟩
    cases hit
    · simp
    · simp only [if_true, List.count_cons_self]
      omega

/-- **An estimate is the share of hits in a sequence of trials**, as many as its accuracy asks
for. -/
theorem Model.exists_trials_eq [RandomSource G] {m : Model ℝ} {target : String} {horizon n : ℕ}
    {ε δ : ℝ} {o : Estimate ℝ} (hn : sampleCount ε δ = .ok n)
    (h : m.estimate target ⟨horizon, ε, δ⟩ g = (.ok o, g')) :
    ∃ trials : List Bool, trials.length = n ∧
      o.probability = (trials.count true : ℝ) / n := by
  obtain ⟨_, _, -, h⟩ := exists_of_run_bind h
  obtain ⟨_, _, -, h⟩ := exists_of_run_bind h
  obtain ⟨samples, _, hsamples, h⟩ := exists_of_run_bind h
  obtain ⟨hits, _, hhits, h⟩ := exists_of_run_bind h
  obtain rfl := Except.ok.inj (hn.symm.trans (congrArg Prod.fst hsamples))
  obtain ⟨trials, hlength, rfl⟩ := exists_of_countHits (run_of_run_adapt hhits)
  cases h
  refine ⟨trials, hlength, ?_⟩
  rw [zero_add]

end Runs

/-! ### The number of runs -/

namespace EstimatePlan

open Trials

variable {ε δ p : ℝ} {n : ℕ}

theorem checkAccuracy_eq_ok_iff : checkAccuracy ε δ = .ok () ↔ 0 < ε ∧ 0 < δ ∧ δ < 1 := by
  rw [checkAccuracy, bind_check_eq_ok_iff, Parameter.tolerance_eq_ok_iff,
    Parameter.properProbability_eq_ok_iff]

/-- The real number that the number of runs is rounded up from. -/
noncomputable def exactRuns (ε δ : ℝ) : ℝ := (Real.log 2 - Real.log δ) / (4 * ε ^ 2)

/-- **The number of runs is given exactly for an accuracy that makes sense**, and as long as it fits
a word it is the next natural number. -/
theorem sampleCount_eq_ok_iff (hfits : ⌈exactRuns ε δ⌉₊ < 2 ^ 64) :
    sampleCount ε δ = .ok n ↔ (0 < ε ∧ 0 < δ ∧ δ < 1) ∧ ⌈exactRuns ε δ⌉₊ = n := by
  have hruns : runsNeeded ε δ = ⌈exactRuns ε δ⌉₊ := by
    have harg : (Real.log (2.0 : ℝ) - Real.log δ) / ((4.0 : ℝ) * ε * ε) = exactRuns ε δ := by
      rw [exactRuns]
      norm_num
      ring
    show min ⌈(Real.log (2.0 : ℝ) - Real.log δ) / ((4.0 : ℝ) * ε * ε)⌉₊ (2 ^ 64 - 1) = _
    rw [harg]
    exact min_eq_left (Nat.le_pred_of_lt hfits)
  rw [sampleCount, hruns, ← checkAccuracy_eq_ok_iff]
  rcases checkAccuracy ε δ with fault | ⟨⟩
  · constructor
    · rintro ⟨⟩
    · rintro ⟨⟨⟩, -⟩
  · exact ⟨fun h => ⟨rfl, Except.ok.inj h⟩, fun h => congrArg Except.ok h.2⟩

/-- **As many runs as Hoeffding's bound asks for** keep an accuracy. -/
theorem missChance_le_of_log_le (h0 : 0 ≤ p) (h1 : p ≤ 1) (hε : 0 ≤ ε) (hδ : 0 < δ)
    (hn : Real.log 2 - Real.log δ ≤ 2 * n * ε ^ 2) : missChance p n ε ≤ δ := by
  calc missChance p n ε ≤ 2 * Real.exp (-(2 * n * ε ^ 2)) := missChance_le h0 h1 hε n
    _ ≤ 2 * Real.exp (Real.log δ - Real.log 2) := by
        gcongr
        linarith
    _ = δ := by
        rw [Real.exp_sub, Real.exp_log hδ, Real.exp_log two_pos]
        ring

theorem log_sub_log_le (hε : 0 < ε) (hn : exactRuns ε δ ≤ n) :
    Real.log 2 - Real.log δ ≤ 4 * n * ε ^ 2 := by
  rw [exactRuns, div_le_iff₀ (by positivity)] at hn
  linarith

/-- **What the runs of an estimate are good for.** The share of hits among them is off by more than
the accuracy with a chance of at most `√(2 * δ)`. The chance is at most `δ` if the runs happen to
be as many as Hoeffding's bound asks for, and if there are twice as many. Whatever the engine
answers, on any model and from any source, is the share of hits in a sequence of that many
trials. -/
theorem chance_missed_le (hn : sampleCount ε δ = .ok n) (hfits : ⌈exactRuns ε δ⌉₊ < 2 ^ 64)
    (h0 : 0 ≤ p) (h1 : p ≤ 1) :
    chance p n (fun trials => ε < |(trials.count true : ℝ) / n - p|) = missChance p n ε ∧
      missChance p n ε ≤ √(2 * δ) ∧
      (Real.log 2 - Real.log δ ≤ 2 * n * ε ^ 2 → missChance p n ε ≤ δ) ∧
      (∀ n', 2 * n ≤ n' → missChance p n' ε ≤ δ) ∧
      ∀ (G : Type) [RandomSource G] (m : Model ℝ) (target : String) (horizon : ℕ) (g g' : G)
        (o : Estimate ℝ), m.estimate target ⟨horizon, ε, δ⟩ g = (.ok o, g') →
        ∃ trials : List Bool, trials.length = n ∧
          o.probability = (trials.count true : ℝ) / n := by
  obtain ⟨⟨hε, hδ, -⟩, rfl⟩ := (sampleCount_eq_ok_iff hfits).mp hn
  have hruns := log_sub_log_le hε (Nat.le_ceil (exactRuns ε δ))
  refine ⟨chance_share p _ ε, ?_, missChance_le_of_log_le h0 h1 hε.le hδ, fun n' hn' => ?_,
    fun G _ m target horizon g g' o => Model.exists_trials_eq hn⟩
  · refine missChance_le_of_log_le h0 h1 hε.le (Real.sqrt_pos.mpr (by positivity)) ?_
    -- the logarithm of the root is halfway between those of two and of `δ`
    rw [Real.log_sqrt (by positivity), Real.log_mul two_ne_zero hδ.ne']
    linarith
  · refine missChance_le_of_log_le h0 h1 hε.le hδ (hruns.trans ?_)
    have hcast : 2 * (⌈exactRuns ε δ⌉₊ : ℝ) ≤ n' := by exact_mod_cast hn'
    nlinarith [sq_nonneg ε]

/-- An accuracy of a tenth that may be missed one time in twenty takes 93 runs. -/
theorem ceil_exactRuns_tenth : ⌈exactRuns 0.1 0.05⌉₊ = 93 := by
  -- `5 ^ 3` is close to `2 ^ 7`, and the logarithm of two is known
  have hfive : 3 * Real.log 5 = 7 * Real.log 2 + Real.log (125 / 128) := by
    rw [Real.log_div (by norm_num) (by norm_num), show (125 : ℝ) = 5 ^ 3 by norm_num,
      show (128 : ℝ) = 2 ^ 7 by norm_num, Real.log_pow, Real.log_pow]
    norm_num
  have hlog : Real.log 0.05 = -(2 * Real.log 2 + Real.log 5) := by
    rw [show (0.05 : ℝ) = (2 ^ 2 * 5)⁻¹ by norm_num, Real.log_inv,
      Real.log_mul (by norm_num) (by norm_num), Real.log_pow]
    norm_num
  have hlow := Real.one_sub_inv_le_log_of_pos (show (0 : ℝ) < 125 / 128 by norm_num)
  have hhigh := Real.log_le_sub_one_of_pos (show (0 : ℝ) < 125 / 128 by norm_num)
  have hlow' := Real.log_two_gt_d9
  have hhigh' := Real.log_two_lt_d9
  rw [exactRuns, hlog, Nat.ceil_eq_iff (by norm_num), lt_div_iff₀ (by norm_num),
    div_le_iff₀ (by norm_num)]
  norm_num at hlow hhigh ⊢
  constructor <;> linarith

theorem sampleCount_tenth :
    ⌈exactRuns 0.1 0.05⌉₊ < 2 ^ 64 ∧ sampleCount (0.1 : ℝ) 0.05 = .ok 93 := by
  have hfits : ⌈exactRuns 0.1 0.05⌉₊ < 2 ^ 64 := by
    rw [ceil_exactRuns_tenth]
    norm_num
  exact ⟨hfits, (sampleCount_eq_ok_iff hfits).mpr ⟨by norm_num, ceil_exactRuns_tenth⟩⟩

/-- They miss it with a fair coin at most one time in three, and twice as many keep it. -/
theorem chance_missed_tenth : sampleCount (0.1 : ℝ) 0.05 = .ok 93 ∧
    missChance (1 / 2) 93 0.1 ≤ 1 / 3 ∧ missChance (1 / 2) 186 0.1 ≤ 0.05 := by
  obtain ⟨hfits, hcount⟩ := sampleCount_tenth
  obtain ⟨-, hroot, -, htwice, -⟩ := chance_missed_le (p := 1 / 2) hcount hfits
    (by norm_num) (by norm_num)
  have hsqrt : √(2 * 0.05 : ℝ) ≤ 1 / 3 := Real.sqrt_le_iff.mpr ⟨by norm_num, by norm_num⟩
  exact ⟨hcount, hroot.trans hsqrt, htwice 186 le_rfl⟩

/-- **An accuracy can be missed more often than was admitted.** With a fair coin fewer than 38 or
more than 55 hits out of 93 are off by more than a tenth, and they come up more than six times in
a hundred where five were admitted. -/
theorem accuracy_missed : sampleCount (0.1 : ℝ) 0.05 = .ok 93 ∧
    ⌈exactRuns 0.1 0.05⌉₊ < 2 ^ 64 ∧ 0.06 < missChance (1 / 2) 93 0.1 ∧
    ¬missChance (1 / 2) 93 0.1 ≤ 0.05 := by
  have hcount : 6 * 2 ^ 93 < 100 * ∑ k ∈ range 94 with k < 38 ∨ 55 < k, Nat.choose 93 k := by
    simp only [Nat.choose_eq_descFactorial_div_factorial]
    decide +kernel
  have hoff : ∀ k : ℕ, k < 38 ∨ 55 < k → (0.1 : ℝ) < |(k : ℝ) / (93 : ℕ) - 1 / 2| := by
    rintro k (hk | hk)
    · have hcast : (k : ℝ) ≤ 37 := Nat.cast_le.mpr (Nat.le_of_lt_succ hk)
      rw [lt_abs]
      right
      norm_num
      linarith
    · have hcast : (56 : ℝ) ≤ k := Nat.cast_le.mpr hk
      rw [lt_abs]
      left
      norm_num
      linarith
  have hmiss : 0.06 < missChance (1 / 2) 93 0.1 := by
    calc (0.06 : ℝ)
        < (∑ k ∈ range 94 with k < 38 ∨ 55 < k, Nat.choose 93 k : ℕ) * (1 / 2) ^ 93 := by
          have hcast : (6 * 2 ^ 93 : ℝ)
              < 100 * (∑ k ∈ range 94 with k < 38 ∨ 55 < k, Nat.choose 93 k : ℕ) := by
            exact_mod_cast hcount
          rw [one_div, inv_pow, ← div_eq_mul_inv, lt_div_iff₀ (by positivity)]
          linarith
      _ = ∑ k ∈ range 94 with k < 38 ∨ 55 < k, chanceOfHits (1 / 2) 93 k := by
          rw [Nat.cast_sum, sum_mul]
          refine sum_congr rfl fun k hk => (chanceOfHits_half ?_).symm
          exact Nat.lt_succ_iff.mp (mem_range.mp (mem_filter.mp hk).1)
      _ ≤ missChance (1 / 2) 93 0.1 := by
          refine sum_le_sum_of_subset_of_nonneg (fun k hk => ?_) fun k _ _ =>
            chanceOfHits_nonneg (by norm_num) (by norm_num) 93 k
          obtain ⟨hk94, hk⟩ := mem_filter.mp hk
          exact mem_filter.mpr ⟨hk94, hoff k hk⟩
  refine ⟨sampleCount_tenth.2, sampleCount_tenth.1, hmiss, ?_⟩
  linarith

end EstimatePlan

end MarkovDecision
