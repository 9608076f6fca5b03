import MarkovDecision.Proofs.Query.Limit
import MarkovDecision.Proofs.Sampling.Accuracy
import MarkovDecision.Proofs.Simulation.Course

/-!
# Where nothing is left to chance

The exact query adds up probabilities, the statistical engines count runs, and in general
the two agree only up to an error and with some confidence. If the probability is one or
zero there is nothing to estimate, and they agree without reservation, whatever
is drawn: all runs reach the target, or none does
(`Model.reachability_decides_sampling`).

What the two have in common is the graph. An average of numbers up to one is one only if
each of them is that carries weight, and so a probability of one is handed on to every
target of a transition, one step shorter, until there is none left; a probability of zero
likewise. A run in turn goes along transitions only, whatever it draws
(`Model.Supported.prob_sampleTarget_pos`). Between them stands `Model.Settled`, which says of
the graph alone that the runs of a number of steps agree.

The engines take logarithms, so they are run over the reals, on the same model with its
numbers read there (`Model.toReal`). Nothing depends on it but the last step: after hits
only the ratio of the sequential test is not positive, after misses only it is not
negative, and its interval has zero inside.
-/

namespace MarkovDecision

/-! ### Probabilities of zero and one -/

section Chains

variable {S : Type} [Fintype S] [DecidableEq S] {c : Chain S} {goal : S}

theorem Chain.within_le_one (n : ℕ) (s : S) : c.within goal n s ≤ 1 :=
  worst_process c goal n ▸ c.process.worst_le_one goal n s

/-- **Certainty is handed on**: if the chance is one, or zero, then so is the chance of every state
that the next step may lead to, with one step less. -/
theorem Chain.within_of_certain {hit : Bool} {k : ℕ} {s t : S} (hs : s ≠ goal)
    (h : c.within goal (k + 1) s = if hit then 1 else 0) (ht : 0 < (c s).weight t) :
    c.within goal k t = if hit then 1 else 0 := by
  have hmean : (c s).mean (c.within goal k) = if hit then 1 else 0 := by
    rw [← h]
    exact (if_neg hs).symm
  cases hit with
  | true => exact (c s).eq_of_le_mean (within_le_one k) hmean.ge ht
  | false =>
    refine le_antisymm (not_lt.mp fun hpos => ?_) (within_nonneg k t)
    exact ((c s).mean_pos (within_nonneg k) ht hpos).ne' hmean

end Chains

/-! ### What the graph settles -/

namespace Model

/-- **All runs of a number of steps come to the target, or none does.** The state that they start
from does not count. -/
def Settled {K : Type} [Scalar K] (m : Model K) (target : m.State) (hit : Bool) :
    ℕ → m.State → Prop
  | 0, _ => hit = false
  | k + 1, s => ∀ a ∈ m.enabled.get s, ∀ t, 0 < m.prob s a t →
      (t = target ∧ hit = true) ∨ (t ≠ target ∧ m.Settled target hit k t)

/-- **A probability of one or zero settles the runs.** -/
theorem Stochastic.settled_of_within {m : Model ℚ} (h : m.Stochastic) (hchain : m.isChain = true)
    {target : m.State} {hit : Bool} {k : ℕ} {s : m.State} (hs : s ≠ target)
    (hwithin : (h.chain hchain).within target k s = if hit then 1 else 0) :
    m.Settled target hit k s := by
  induction k generalizing s with
  | zero =>
    have hzero : (h.chain hchain).within target 0 s = 0 := if_neg hs
    rw [hzero] at hwithin
    cases hit with
    | true => exact absurd hwithin zero_ne_one
    | false => rfl
  | succ k ih =>
    intro a ha t ht
    obtain rfl : a = m.unnamed := List.mem_singleton.mp (enabled_of_isChain hchain s ▸ ha)
    have hnext : (h.chain hchain).within target k t = if hit then 1 else 0 :=
      Chain.within_of_certain hs hwithin ht
    rcases eq_or_ne t target with htarget | htarget
    · rw [htarget, Chain.within_goal] at hnext
      cases hit with
      | true => exact .inl ⟨htarget, rfl⟩
      | false => exact absurd hnext one_ne_zero
    · exact .inr ⟨htarget, ih htarget hnext⟩

/-! ### The same model over the reals -/

/-- A rational model, with its numbers read as real ones. -/
noncomputable def toReal (m : Model ℚ) : Model ℝ where
  size := m.size
  declared := m.declared
  stateLabels := m.stateLabels
  actionLabels := m.actionLabels
  rewards := m.rewards.map (↑)
  rows := m.rows.map (Vector.map (Vector.map (↑)))
  enabled := m.enabled
  initial := m.initial

section Real

variable {m : Model ℚ}

theorem prob_toReal (s : m.State) (a : m.Action) (t : m.State) :
    m.toReal.prob s a t = (m.prob s a t : ℝ) := by
  change (((m.rows.map (Vector.map (Vector.map ((↑) : ℚ → ℝ)))).get s).get a).get t = _
  rw [get_map, get_map, get_map]
  rfl

theorem prob_toReal_pos {s : m.State} {a : m.Action} {t : m.State} :
    0 < m.toReal.prob s a t ↔ 0 < m.prob s a t := by
  rw [prob_toReal]
  exact Rat.cast_pos

theorem Supported.toReal (h : m.Supported) : m.toReal.Supported where
  enabled_ne_nil := h.enabled_ne_nil
  exists_prob_pos s a ha := by
    obtain ⟨t, ht⟩ := h.exists_prob_pos s a ha
    exact ⟨t, prob_toReal_pos.mpr ht⟩

theorem Settled.toReal {target : m.State} {hit : Bool} {k : ℕ} {s : m.State}
    (h : m.Settled target hit k s) : m.toReal.Settled target hit k s := by
  induction k generalizing s with
  | zero => exact h
  | succ k ih =>
    intro a ha t ht
    exact (h a ha t (prob_toReal_pos.mp ht)).imp_right (And.imp_right ih)

theorem findState_toReal {label : String} {target : m.State}
    (h : m.findState label = .ok target) : m.toReal.findState label = .ok target := by
  have hfind : (m.states.find? fun s => m.stateLabel s == label) = some target := by
    rw [findState] at h
    split at h
    next s hs => rwa [Except.ok.inj h] at hs
    next => cases h
  have hreal : (m.toReal.states.find? fun s => m.toReal.stateLabel s == label) = some target :=
    hfind
  rw [findState, hreal]

end Real

end Model

/-! ### Runs that agree -/

section Runs

variable {W ε α : Type}

/-- A program that returns the same, whatever the state. -/
def Always (x : ExceptT ε (StateM W) α) (a : α) : Prop := ∀ w, ∃ w', x w = (.ok a, w')

variable {K G : Type} {hit : Bool}

/-- **A run goes as the graph has settled**, whatever it draws. -/
theorem Model.Settled.always_hitsFrom [RandomSource G] [Scalar K] {m : Model K}
    {target s : m.State} {k : ℕ} (h : m.Settled target hit k s) (hm : m.Supported)
    (hchain : m.isChain = true) : Always (hitsFrom (G := G) m target k s) hit := by
  induction k generalizing s with
  | zero =>
    intro g
    obtain rfl : hit = false := h
    exact ⟨g, rfl⟩
  | succ k ih =>
    intro g
    have hmem := unnamed_mem_enabled hchain s
    obtain ⟨u, g₁, hdraw⟩ : ∃ u g₁, (drawUnit : StateM G K) g = (u, g₁) := ⟨_, _, rfl⟩
    have hchoice : Chooses m (Policy.uniform m) [s.val] s g m.unnamed g :=
      .only (enabled_of_isChain hchain s)
    rw [hitsFrom, run_bind_of_ok (step_of_chooses hchoice hdraw)]
    rcases h m.unnamed hmem _ (hm.prob_sampleTarget_pos hmem u) with ⟨heq, rfl⟩ | ⟨hne, hnext⟩
    · rw [if_pos heq]
      exact ⟨g₁, rfl⟩
    · rw [if_neg hne]
      exact ih hnext g₁

/-- Runs that agree are counted all, or none of them is. -/
theorem always_countHits {sample : ExceptT (ModelError K) (StateM G) Bool}
    (h : Always sample hit) (k hits : ℕ) :
    Always (countHits sample k hits) (hits + hit.toNat * k) := by
  induction k generalizing hits with
  | zero => exact fun g => ⟨g, rfl⟩
  | succ k ih =>
    intro g
    obtain ⟨g₁, hsample⟩ := h g
    obtain ⟨g₂, hrest⟩ := ih (hits + hit.toNat) g₁
    refine ⟨g₂, ?_⟩
    rw [countHits, run_bind_of_ok hsample, ite_hit_eq_add, hrest, Nat.mul_succ, Nat.add_assoc,
      Nat.add_comm hit.toNat]

end Runs

/-! ### Verdicts on runs that agree -/

namespace Wald

variable {G ε : Type} {w : Wald ℝ} {hit : Bool}

/-- The loop on runs that agree is the loop on trials that do. -/
theorem always_run {sample : ExceptT ε (StateM G) Bool} (h : Always sample hit)
    (left draws hits : ℕ) (ratio : ℝ) : Always (w.run sample left draws hits ratio)
      (w.outcome left draws hits ratio (List.replicate left hit)) := by
  induction left generalizing draws hits ratio with
  | zero => exact fun g => ⟨g, rfl⟩
  | succ left ih =>
    intro g
    obtain ⟨g₁, hsample⟩ := h g
    rw [List.replicate_succ, outcome_cons]
    simp only [run, run_bind_of_ok hsample, ite_hit_eq_add]
    rcases w.judge (w.logRatio (draws + 1) (hits + hit.toNat)) with _ | verdict
    · exact ih _ _ _ g₁
    · exact ⟨g₁, rfl⟩

/-- **What the loop comes to on trials that agree**: all of its runs have hit, or none has, and a
verdict is what the ratio says about that many. -/
theorem outcome_replicate (left draws : ℕ) (ratio : ℝ) {o : TestOutcome ℝ}
    (ho : w.outcome left draws (hit.toNat * draws) ratio (List.replicate left hit) = o) :
    o.successes = hit.toNat * o.draws ∧
      (o.verdict = .undecided ∨
        w.judge (w.logRatio o.draws (hit.toNat * o.draws)) = some o.verdict) := by
  induction left generalizing draws ratio with
  | zero =>
    subst ho
    exact ⟨rfl, .inl rfl⟩
  | succ left ih =>
    rw [List.replicate_succ, outcome_cons, ← Nat.mul_succ] at ho
    split at ho
    next verdict hverdict =>
      subst ho
      exact ⟨rfl, .inr hverdict⟩
    next => exact ih (draws + 1) _ ho

/-- The verdict that runs which agree speak against. -/
def opposite (hit : Bool) : Verdict := if hit then .below else .above

/-- **The ratio of trials that agree never speaks against them**: it is on their side of zero, and
zero is inside the interval of the test. -/
theorem judge_ofPlan_ne_opposite {plan : TestPlan ℝ} (hplan : plan.Proper) (hit : Bool) (d : ℕ) :
    (ofPlan plan).judge ((ofPlan plan).logRatio d (hit.toNat * d)) ≠ some (opposite hit) := by
  have hα := hplan.alpha_pos
  have hβ := hplan.beta_pos
  have hrates := hplan.rates_lt_one
  cases hit with
  | true =>
    have hupper : 0 < (ofPlan plan).upper := Real.log_pos ((one_lt_div hα).mpr (by linarith))
    have hratio : (ofPlan plan).logRatio d (true.toNat * d) ≤ 0 := by
      rw [Bool.toNat_true, one_mul, logRatio_eq le_rfl, sub_self, zero_mul, add_zero]
      exact mul_nonpos_of_nonneg_of_nonpos (Nat.cast_nonneg d) (hit_ofPlan_nonpos hplan)
    rw [opposite, if_pos rfl, Ne, judge_eq_below_iff, not_le]
    exact hratio.trans_lt hupper
  | false =>
    have hlower : (ofPlan plan).lower < 0 :=
      Real.log_neg (div_pos hβ (by linarith)) ((div_lt_one (by linarith)).mpr (by linarith))
    have hratio : 0 ≤ (ofPlan plan).logRatio d (false.toNat * d) := by
      rw [Bool.toNat_false, zero_mul, logRatio_eq (Nat.zero_le d), Nat.cast_zero, zero_mul,
        sub_zero, zero_add]
      exact mul_nonneg (Nat.cast_nonneg d) (miss_ofPlan_nonneg hplan)
    rw [opposite, if_neg Bool.false_ne_true, Ne, judge_eq_above_iff]
    exact fun h => absurd (hratio.trans h.2) (not_le.mpr hlower)

end Wald

/-! ### The two engines -/

theorem ofModel_of_ok {K α : Type} {x : Except (ModelError K) α} {a : α} (h : x = .ok a) :
    ofModel x = .ok a := by
  rw [h]
  rfl

namespace Model

section Engines

variable {G : Type} [RandomSource G] {m : Model ℝ} {label : String} {target : m.State} {hit : Bool}

/-- A run that starts at the target has reached it; otherwise the graph settles it. -/
theorem always_pathHits (hm : m.Supported) (hchain : m.isChain = true) {k : ℕ}
    (hstart : m.initial = target → hit = true)
    (hsettled : m.initial ≠ target → m.Settled target hit k m.initial) :
    Always (pathHits (G := G) m target k) hit := by
  rw [pathHits]
  split_ifs with htarget
  · rw [hstart htarget]
    exact fun g => ⟨g, rfl⟩
  · exact (hsettled htarget).always_hitsFrom hm hchain

/-- The estimate makes the runs that its accuracy asks for, and counts all of them, or none. -/
theorem exists_estimate {plan : EstimatePlan ℝ} (hplan : plan.check = .ok ())
    (hfind : m.findState label = .ok target)
    (hruns : Always (pathHits (G := G) m target plan.horizon) hit) (g : G) :
    ∃ e g', m.estimate label plan g = (.ok e, g') ∧
      sampleCount plan.epsilon plan.delta = .ok e.samples ∧ e.hits = hit.toNat * e.samples := by
  have hsamples : sampleCount plan.epsilon plan.delta
      = .ok (runsNeeded plan.epsilon plan.delta) := by
    rw [sampleCount, show EstimatePlan.checkAccuracy plan.epsilon plan.delta = .ok () from hplan]
    rfl
  obtain ⟨g', hcount⟩ := always_countHits hruns (runsNeeded plan.epsilon plan.delta) 0 g
  have hadapt : ExceptT.adapt QueryError.model (countHits (pathHits m target plan.horizon)
      (runsNeeded plan.epsilon plan.delta) 0) g = _ := run_adapt _ _ g
  rw [hcount] at hadapt
  rw [estimate, run_bind_of_ok (run_checked hplan),
    run_bind_of_ok (run_checked (ofModel_of_ok hfind)), run_bind_of_ok (run_checked hsamples),
    run_bind_of_ok hadapt]
  exact ⟨_, g', rfl, hsamples, Nat.zero_add _⟩

/-- The sequential test does not speak against its runs. -/
theorem exists_sequentialTest {plan : TestPlan ℝ} (hplan : plan.check = .ok ())
    (hfind : m.findState label = .ok target)
    (hruns : Always (pathHits (G := G) m target plan.horizon) hit) (g : G) :
    ∃ o g', m.sequentialTest label plan g = (.ok o, g') ∧ o.successes = hit.toNat * o.draws ∧
      o.verdict ≠ Wald.opposite hit := by
  have hproper := TestPlan.check_iff_proper.mp hplan
  have hne : .undecided ≠ Wald.opposite hit := by cases hit <;> decide
  obtain ⟨g', hrun⟩ := Wald.always_run (w := .ofPlan plan) hruns plan.maxRuns 0 0 0 g
  rw [sequentialTest, run_bind_of_ok (run_checked hplan),
    run_bind_of_ok (run_checked (ofModel_of_ok hfind)), run_adapt, hrun]
  obtain ⟨hsuccesses, hverdict⟩ := Wald.outcome_replicate (w := .ofPlan plan) plan.maxRuns 0 0 rfl
  refine ⟨_, g', rfl, hsuccesses, ?_⟩
  rcases hverdict with hopen | hjudge
  · exact hopen ▸ hne
  · exact fun heq => Wald.judge_ofPlan_ne_opposite hproper hit _ (hjudge.trans (congrArg some heq))

end Engines

/-- A probability of one or zero makes all runs agree. -/
theorem Stochastic.always_pathHits {G : Type} [RandomSource G] {m : Model ℚ} (h : m.Stochastic)
    (hm : m.Supported) (hchain : m.isChain = true) {target : m.State} {hit : Bool} {k : ℕ}
    (hwithin : (h.chain hchain).within target k m.initial = if hit then 1 else 0) :
    Always (pathHits (G := G) m.toReal target k) hit := by
  refine Model.always_pathHits (m := m.toReal) hm.toReal hchain (fun hstart => ?_) fun hne =>
    (h.settled_of_within hchain hne hwithin).toReal
  have hinitial : m.initial = target := hstart
  rw [hinitial, Chain.within_goal] at hwithin
  cases hit with
  | true => rfl
  | false => exact absurd hwithin one_ne_zero

/-- **The exact query and the statistical engines agree on certainty**, for every source of
randomness. Where the probability of reaching a declared target within a number of steps is one,
both engines count every run, which for the estimate are as many as its accuracy asks for, and the
sequential test does not say *below*; where it is zero, they count none and the test does not say
*above*. -/
theorem reachability_decides_sampling {b : Builder ℚ} (hb : b.Reachable) {initial : Option String}
    {m : Model ℚ} (hm : b.build initial = .ok m) (hchain : m.isChain = true) {label : String}
    {target : m.State} (hfind : m.findState label = .ok target) {plan : EstimatePlan ℝ}
    (hplan : plan.check = .ok ()) {test : TestPlan ℝ} (htest : test.check = .ok ())
    (hhorizon : test.horizon = plan.horizon) {G : Type} [RandomSource G] (g g' : G) :
    ∃ v, m.reachability label (.steps plan.horizon) = .ok v ∧
      (v.get m.initial = 1 →
        (∃ e g₁, m.toReal.estimate label plan g = (.ok e, g₁) ∧
          sampleCount plan.epsilon plan.delta = .ok e.samples ∧ e.hits = e.samples) ∧
        ∃ o g₁, m.toReal.sequentialTest label test g' = (.ok o, g₁) ∧ o.successes = o.draws ∧
          o.verdict ≠ .below) ∧
      (v.get m.initial = 0 →
        (∃ e g₁, m.toReal.estimate label plan g = (.ok e, g₁) ∧
          sampleCount plan.epsilon plan.delta = .ok e.samples ∧ e.hits = 0) ∧
        ∃ o g₁, m.toReal.sequentialTest label test g' = (.ok o, g₁) ∧ o.successes = 0 ∧
          o.verdict ≠ .above) := by
  have h := hb.stochastic hm
  have hsupported := Builder.supported_of_build Scalar.keepsSigns_rational hm
  have hreal := findState_toReal hfind
  -- hits and misses at once
  have hengines : ∀ hit : Bool,
      (h.chain hchain).within target plan.horizon m.initial = (if hit then 1 else 0) →
        (∃ e g₁, m.toReal.estimate label plan g = (.ok e, g₁) ∧
          sampleCount plan.epsilon plan.delta = .ok e.samples ∧ e.hits = hit.toNat * e.samples) ∧
        ∃ o g₁, m.toReal.sequentialTest label test g' = (.ok o, g₁) ∧
          o.successes = hit.toNat * o.draws ∧ o.verdict ≠ Wald.opposite hit := by
    intro hit hwithin
    have hruns := h.always_pathHits (G := G) hsupported hchain hwithin
    exact ⟨exists_estimate hplan hreal hruns g,
      exists_sequentialTest htest hreal (hhorizon.symm ▸ hruns) g'⟩
  refine ⟨_, reachability_eq_ok.mpr ⟨hchain, target, hfind,
    Reachability.values_steps (h.entry_chainMatrix hchain) plan.horizon⟩, ?_⟩
  rw [get_ofFn]
  constructor
  · intro hone
    obtain ⟨⟨e, g₁, hestimate, hsamples, hhits⟩, o, g₂, htested, hsuccesses, hverdict⟩ :=
      hengines true hone
    exact ⟨⟨e, g₁, hestimate, hsamples, hhits.trans (one_mul _)⟩, o, g₂, htested,
      hsuccesses.trans (one_mul _), hverdict⟩
  · intro hzero
    obtain ⟨⟨e, g₁, hestimate, hsamples, hhits⟩, o, g₂, htested, hsuccesses, hverdict⟩ :=
      hengines false hzero
    exact ⟨⟨e, g₁, hestimate, hsamples, hhits.trans (zero_mul _)⟩, o, g₂, htested,
      hsuccesses.trans (zero_mul _), hverdict⟩

/-- A chain that branches and comes together again. -/
def rejoining : List Declaration :=
  [.state "start" none, .state "left" none, .state "right" none, .state "goal" none,
    .transition "start" none [⟨1, "left"⟩, ⟨1, "right"⟩],
    .transition "left" none [⟨1, "goal"⟩], .transition "right" none [⟨1, "goal"⟩]]

/-- Whichever way a run takes, it comes to the goal in two steps, so that all of the 93 runs of an
estimate are hits. -/
theorem reachability_decides_sampling_rejoining : ∃ b : Builder ℚ, ∃ m : Model ℚ,
    ∃ v : Vector ℚ m.size, Builder.ofDeclarations rejoining = .ok b ∧ b.build none = .ok m ∧
      m.reachability "goal" (.steps 2) = .ok v ∧ v.get m.initial = 1 ∧
      (∃ e g, m.toReal.estimate "goal" ⟨2, 0.1, 0.05⟩ (Mixer.mk 0) = (.ok e, g) ∧
        e.samples = 93 ∧ e.hits = 93) ∧
      ∃ o g, m.toReal.sequentialTest "goal" ⟨2, 0.01, 0.01, 0.01, 0.5, 100⟩ (Mixer.mk 1)
        = (.ok o, g) ∧ o.successes = o.draws ∧ o.verdict ≠ .below := by
  obtain ⟨b, m, hb, hm, htest⟩ := Builder.exists_of_any rejoining
    (fun m => m.isChain && (m.findState "goal").isOk &&
      (m.reachability "goal" (.steps 2)).toOption.any fun v => v.get m.initial == 1)
    (by decide +kernel)
  rw [Bool.and_eq_true_iff, Bool.and_eq_true_iff] at htest
  obtain ⟨⟨hchain, hfound⟩, hone⟩ := htest
  obtain ⟨v, hv, hinitial⟩ := (Option.any_eq_true _ _).mp hone
  obtain ⟨target, hfind⟩ : ∃ target, m.findState "goal" = .ok target := by
    cases hfind : m.findState "goal" with
    | error e =>
      rw [hfind] at hfound
      cases hfound
    | ok target => exact ⟨target, rfl⟩
  have hplan : (⟨2, 0.1, 0.05⟩ : EstimatePlan ℝ).check = .ok () :=
    EstimatePlan.checkAccuracy_eq_ok_iff.mpr (by norm_num)
  have hproper : (⟨2, 0.01, 0.01, 0.01, 0.5, 100⟩ : TestPlan ℝ).check = .ok () :=
    TestPlan.check_iff_proper.mpr (by constructor <;> norm_num)
  obtain ⟨v', hv', hsure, -⟩ := reachability_decides_sampling
    (Builder.reachable_of_ofDeclarations hb) hm hchain hfind hplan hproper rfl (Mixer.mk 0)
    (Mixer.mk 1)
  obtain rfl := Except.ok.inj (hv'.symm.trans (eq_ok_of_toOption hv))
  obtain ⟨⟨e, g, hestimate, hsamples, hhits⟩, htested⟩ := hsure (eq_of_beq hinitial)
  have hmany : e.samples = 93 :=
    Except.ok.inj (hsamples.symm.trans EstimatePlan.sampleCount_tenth.2)
  exact ⟨b, m, v', hb, hm, hv', eq_of_beq hinitial, ⟨e, g, hestimate, hmany, hhits.trans hmany⟩,
    htested⟩

end Model

end MarkovDecision
