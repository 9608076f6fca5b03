import MarkovDecision.Proofs.Numeric.Pivots
import MarkovDecision.Proofs.Query.Limit
import MarkovDecision.Query.Discount

/-!
# Which chain queries are answered

Both unbounded queries of a chain set up a linear system, and both systems have
exactly one solution: the one of a discounted reward because averages do not grow,
the one of a reachability query because no undecided state can be kept for ever. Yet
elimination refuses a pivot below `10⁻¹²`, and so a system may be refused although it
has its solution. How far that reaches is the subject of this module.

By `MarkovDecision.Proofs.Numeric.Pivots` it is enough to know by which factor a system
is steady. For a discount `γ` the factor is `1 / (1 - γ)`, so that every discount up
to `1 - 10⁻¹²` is safe. For reachability it is the time a run spends among the
undecided states, in expectation (`Chain.stay`): a function that exceeds its average
by at most `ε` there, and vanishes elsewhere, is at most `ε` times that time
(`Chain.le_of_stay_le`). So every target is safe that leaves no run undecided for more
than `10¹²` steps. Both bounds are sharp: a state that is left with a probability
below `10⁻¹²` is refused (`Model.fading`).
-/

namespace MarkovDecision

open Finset

/-! ### How long a run stays in a set -/

theorem Distribution.weight_le_one {S : Type} [Fintype S] (d : Distribution S) (t : S) :
    d.weight t ≤ 1 :=
  d.sum_weight ▸ single_le_sum (fun u _ => d.weight_nonneg u) (mem_univ t)

namespace Chain

variable {S : Type} [Fintype S] {c : Chain S} {inside : S → Prop} [DecidablePred inside]

/-- The expected number of steps before a run leaves a set, of its first `n` steps. -/
def stay (c : Chain S) (inside : S → Prop) [DecidablePred inside] : ℕ → S → ℚ
  | 0, _ => 0
  | n + 1, s => if inside s then 1 + (c s).mean (c.stay inside n) else 0

/-- The chance that a run has not left a set after `n` steps. -/
def remain (c : Chain S) (inside : S → Prop) [DecidablePred inside] : ℕ → S → ℚ
  | 0, _ => 1
  | n + 1, s => if inside s then (c s).mean (c.remain inside n) else 0

/-- A function that pays for every step from inside bounds the time inside. -/
theorem stay_le {f : S → ℚ} (hnonneg : ∀ s, 0 ≤ f s)
    (hinside : ∀ s, inside s → 1 + (c s).mean f ≤ f s) (n : ℕ) (s : S) :
    c.stay inside n s ≤ f s := by
  induction n generalizing s with
  | zero => exact hnonneg s
  | succ n ih =>
    rw [stay]
    split_ifs with hs
    · exact (add_le_add_right ((c s).mean_mono ih) 1).trans (hinside s hs)
    · exact hnonneg s

theorem remain_le_one (n : ℕ) (s : S) : c.remain inside n s ≤ 1 := by
  induction n generalizing s with
  | zero => exact le_rfl
  | succ n ih =>
    rw [remain]
    split_ifs
    · exact (c s).mean_le_one ih
    · exact zero_le_one

/-- **To remain for long takes long.** -/
theorem mul_remain_le_stay (n : ℕ) (s : S) : n * c.remain inside n s ≤ c.stay inside n s := by
  induction n generalizing s with
  | zero => rw [Nat.cast_zero, zero_mul, stay]
  | succ n ih =>
    rw [remain, stay]
    split_ifs
    · calc ((n + 1 : ℕ) : ℚ) * (c s).mean (c.remain inside n)
          = (c s).mean (c.remain inside n) + (c s).mean fun t => c.remain inside n t * n := by
            rw [Distribution.mean_mul_const, Nat.cast_succ]
            ring
        _ ≤ 1 + (c s).mean (c.stay inside n) := by
            refine add_le_add ((c s).mean_le_one (remain_le_one n)) ((c s).mean_mono fun t => ?_)
            rw [mul_comm]
            exact ih t
    · rw [mul_zero]

/-- A function that exceeds its averages by little, as far as `n` steps tell. -/
theorem le_stay_add_remain {f : S → ℚ} {ε M : ℚ} (hf : ∀ s, f s ≤ M)
    (hinside : ∀ s, inside s → f s ≤ ε + (c s).mean f) (houtside : ∀ s, ¬inside s → f s ≤ 0)
    (n : ℕ) (s : S) : f s ≤ ε * c.stay inside n s + M * c.remain inside n s := by
  induction n generalizing s with
  | zero =>
    rw [stay, remain, mul_zero, zero_add, mul_one]
    exact hf s
  | succ n ih =>
    rw [stay, remain]
    split_ifs with hs
    · calc f s ≤ ε + (c s).mean f := hinside s hs
        _ ≤ ε + (c s).mean fun t => c.stay inside n t * ε - -(c.remain inside n t * M) := by
            refine add_le_add_right ((c s).mean_mono fun t => ?_) ε
            rw [sub_neg_eq_add, mul_comm, mul_comm _ M]
            exact ih t
        _ = ε * (1 + (c s).mean (c.stay inside n)) + M * (c s).mean (c.remain inside n) := by
            have hneg : (fun t => -(c.remain inside n t * M))
                = fun t => c.remain inside n t * -M := by
              funext t
              ring
            rw [Distribution.mean_sub, hneg, Distribution.mean_mul_const,
              Distribution.mean_mul_const]
            ring
    · rw [mul_zero, mul_zero, add_zero]
      exact houtside s hs

/-- **A function that exceeds its averages by at most `ε` inside a set**, and is not positive
outside, is at most `ε` times the time spent inside. -/
theorem le_of_stay_le {f : S → ℚ} {ε T : ℚ} (hε : 0 ≤ ε)
    (hinside : ∀ s, inside s → f s ≤ ε + (c s).mean f) (houtside : ∀ s, ¬inside s → f s ≤ 0)
    (hstay : ∀ n s, c.stay inside n s ≤ T) (s : S) : f s ≤ T * ε := by
  have hT : 0 ≤ T := hstay 0 s
  obtain ⟨M, hM0, hM⟩ : ∃ M : ℚ, 0 ≤ M ∧ ∀ t, f t ≤ M := by
    obtain ⟨t, -, ht⟩ := exists_max_image univ (fun t => |f t|) ⟨s, mem_univ s⟩
    exact ⟨|f t|, abs_nonneg _, fun t' => (le_abs_self _).trans (ht t' (mem_univ t'))⟩
  by_contra hlt
  have hgap : 0 < f s - T * ε := sub_pos.mpr (not_le.mp hlt)
  -- what remains inside shrinks at least as fast as the number of steps grows
  obtain ⟨n, hn⟩ := exists_nat_gt (M * T / (f s - T * ε))
  rw [div_lt_iff₀ hgap] at hn
  have hstep := le_stay_add_remain hM hinside houtside n s
  have htime : ε * c.stay inside n s ≤ T * ε := by
    rw [mul_comm]
    exact mul_le_mul_of_nonneg_right (hstay n s) hε
  have hrest : n * (M * c.remain inside n s) ≤ M * T := by
    rw [mul_left_comm]
    exact mul_le_mul_of_nonneg_left ((mul_remain_le_stay n s).trans (hstay n s)) hM0
  have hscaled : n * (f s - T * ε) ≤ n * (M * c.remain inside n s) :=
    mul_le_mul_of_nonneg_left (by linarith) (Nat.cast_nonneg n)
  linarith

end Chain

/-! ### The system of the undecided states -/

namespace Reachability

variable {n : ℕ}

/-- The system that an unbounded query solves. -/
def undecidedSystem (p : Matrix ℚ n n) (target : Fin n) :
    LinearSystem ℚ (undecided (classify p target .unbounded)).length :=
  let fates := classify p target .unbounded
  .ofRows ((restrict p (undecided fates)).identityMinus 1) (intoCertain p fates (undecided fates))

/-- **An unbounded query is answered exactly if its system is solved.** -/
theorem values_unbounded (p : Matrix ℚ n n) (target : Fin n) :
    values p target .unbounded =
      match (undecidedSystem p target).solve with
      | some y => .ok (Vector.ofFn (valueAt (classify p target .unbounded) y))
      | none => .error (.singular (undecided (classify p target .unbounded)).length) := by
  rw [values]
  simp only [solveUndecided]
  rw [show LinearSystem.ofRows _ _ = undecidedSystem p target from rfl]
  rcases (undecidedSystem p target).solve with _ | y <;> rfl

/-- The magnitudes of the numbers of the undecided states, and zero elsewhere. -/
def spread (fates : Vector Fate n) (x : Vector ℚ (undecided fates).length) (s : Fin n) : ℚ :=
  ∑ i, if (undecided fates).get i = s then |x.get i| else 0

variable {fates : Vector Fate n} {x : Vector ℚ (undecided fates).length}

theorem spread_get (i : Fin (undecided fates).length) :
    spread fates x ((undecided fates).get i) = |x.get i| := by
  have hother : ∀ k, k ≠ i →
      (if (undecided fates).get k = (undecided fates).get i then |x.get k| else 0) = 0 :=
    fun k hk => if_neg fun h => hk ((nodup_undecided fates).injective_get h)
  rw [spread, Fintype.sum_eq_single i hother, if_pos rfl]

theorem spread_of_ne {s : Fin n} (hs : fates.get s ≠ .undecided) : spread fates x s = 0 := by
  refine sum_eq_zero fun i _ => if_neg ?_
  rintro rfl
  exact hs (get_fates i)

theorem spread_nonneg (s : Fin n) : 0 ≤ spread fates x s := by
  refine sum_nonneg fun i _ => ?_
  split_ifs
  · exact abs_nonneg _
  · exact le_rfl

variable {p : Matrix ℚ n n} {c : Chain (Fin n)} (hp : ∀ s t, p.entry s t = (c s).weight t)
  {target : Fin n}
include hp

theorem mean_spread (s : Fin n) :
    (c s).mean (spread fates x) = ∑ i, p.entry s ((undecided fates).get i) * |x.get i| := by
  have hout : ∀ t, t ∉ undecided fates → (c s).weight t * spread fates x t = 0 := by
    intro t ht
    rw [spread_of_ne fun h => ht (mem_undecided.mpr h), mul_zero]
  rw [Distribution.mean, sum_eq_sum_get (nodup_undecided fates) hout]
  simp only [spread_get, hp]

/-- **A number exceeds its average by its form at most**, in magnitude. -/
theorem spread_le (b : Vector ℚ (undecided fates).length) (i : Fin (undecided fates).length) :
    spread fates x ((undecided fates).get i)
      ≤ |((LinearSystem.ofRows ((restrict p (undecided fates)).identityMinus 1) b).get i).form x|
        + (c ((undecided fates).get i)).mean (spread fates x) := by
  have hsplit : x.get i
      = ((LinearSystem.ofRows ((restrict p (undecided fates)).identityMinus 1) b).get i).form x
        + ∑ j, p.entry ((undecided fates).get i) ((undecided fates).get j) * x.get j := by
    rw [LinearSystem.form_identityMinus, one_mul, get_apply]
    simp only [entry_restrict, sub_add_cancel]
  rw [spread_get, mean_spread hp]
  refine (congrArg abs hsplit).le.trans ((abs_add_le _ _).trans (add_le_add_right ?_ _))
  refine (abs_sum_le_sum_abs _ _).trans (sum_le_sum fun j _ => ?_)
  rw [abs_mul, hp, abs_of_nonneg ((c _).weight_nonneg _)]

/-- **The system is steady by the time a run stays undecided.** -/
theorem steady_undecidedSystem {T : ℚ}
    (hstay : ∀ k s, c.stay (fun s => (classify p target .unbounded).get s = .undecided) k s ≤ T) :
    (undecidedSystem p target).Steady T := by
  intro x ε hforms j
  rw [← spread_get]
  refine Chain.le_of_stay_le ((abs_nonneg _).trans (hforms j)) (fun s hs => ?_) (fun s hs => ?_)
    hstay _
  · obtain ⟨i, rfl⟩ := List.get_of_mem (mem_undecided.mpr hs)
    exact (spread_le hp _ i).trans (add_le_add_left (hforms i) _)
  · exact (spread_of_ne hs).le

/-- **The system has exactly one solution**: numbers without a form are below their averages, and
they vanish where the target is never reached. -/
theorem existsUnique_undecidedSystem : ∃! y, (undecidedSystem p target).Solves y := by
  refine LinearSystem.existsUnique_of_forms fun x hx j => ?_
  have htarget : spread _ x target ≤ 0 := by
    refine (spread_of_ne ?_).le
    rw [certain_iff.mpr certainSet_target]
    exact Fate.noConfusion
  have hle := Chain.le_of_never_le (c := c) (f := spread _ x) (g := fun _ => 0)
    htarget (fun s _ => ?_) (fun s _ => ((c s).mean_const 0).le) (fun s hs => ?_)
    ((undecided (classify p target .unbounded)).get j)
  · rw [spread_get] at hle
    exact abs_nonpos_iff.mp hle
  · by_cases hs : (classify p target .unbounded).get s = .undecided
    · obtain ⟨i, rfl⟩ := List.get_of_mem (mem_undecided.mpr hs)
      have hform := spread_le hp (x := x)
        (intoCertain p (classify p target .unbounded) (undecided _)) i
      rw [show |(Vector.get (LinearSystem.ofRows _ _) i).form x| = 0 from abs_eq_zero.mpr (hx i),
        zero_add] at hform
      exact hform
    · rw [spread_of_ne hs]
      exact (c s).mean_nonneg spread_nonneg
  · refine (spread_of_ne fun hund => ?_).le
    have hreach : (reachingSet p (certainSet p target)).get s = true := by
      by_contra hnot
      rw [never_iff.mpr hnot] at hund
      cases hund
    obtain ⟨k, hk⟩ := within_pos_of_reaching hp hreach
    exact hk.ne' (hs k)

theorem abs_entry_undecidedSystem_le (target : Fin n) (i j : Fin _) :
    |(undecidedSystem p target).entry i j| ≤ 1 := by
  refine LinearSystem.abs_entry_identityMinus_le (fun i j => ?_) _ zero_le_one le_rfl i j
  rw [entry_restrict, hp]
  exact ⟨(c _).weight_nonneg _, (c _).weight_le_one _⟩

end Reachability

/-! ### The system of a discounted reward -/

section Discount

variable {n : ℕ} {p : Matrix ℚ n n} {c : Chain (Fin n)} (hp : ∀ s t, p.entry s t = (c s).weight t)
  (b : Vector ℚ n) {γ : ℚ}
include hp

/-- **The system of a discount is steady**, by the sum of its powers. -/
theorem steady_identityMinus (h0 : 0 ≤ γ) (h1 : γ < 1) :
    (LinearSystem.ofRows (p.identityMinus γ) b).Steady (1 / (1 - γ)) := by
  intro x ε hforms j
  obtain ⟨top, -, htop⟩ := exists_max_image univ (fun s => |x.get s|) ⟨j, mem_univ j⟩
  have hmean : |(p.apply x).get top| ≤ |x.get top| := by
    rw [get_apply]
    calc |∑ t, p.entry top t * x.get t| ≤ ∑ t, |p.entry top t * x.get t| :=
          abs_sum_le_sum_abs _ _
      _ = (c top).mean fun t => |x.get t| := by
          refine sum_congr rfl fun t _ => ?_
          rw [abs_mul, hp, abs_of_nonneg ((c top).weight_nonneg t)]
      _ ≤ (c top).mean fun _ => |x.get top| :=
          (c top).mean_mono fun t => htop t (mem_univ t)
      _ = |x.get top| := (c top).mean_const _
  -- the largest coordinate exceeds its part of the average by its form only
  have hself : |x.get top| ≤ ε + γ * |x.get top| := by
    have hform := hforms top
    rw [LinearSystem.form_identityMinus] at hform
    calc |x.get top|
        = |x.get top - γ * (p.apply x).get top + γ * (p.apply x).get top| := by
          rw [sub_add_cancel]
      _ ≤ |x.get top - γ * (p.apply x).get top| + |γ * (p.apply x).get top| := abs_add_le _ _
      _ ≤ ε + γ * |x.get top| := by
          rw [abs_mul, abs_of_nonneg h0]
          exact add_le_add hform (mul_le_mul_of_nonneg_left hmean h0)
  refine (htop j (mem_univ j)).trans ?_
  rw [one_div_mul_eq_div, le_div_iff₀ (sub_pos.mpr h1)]
  linarith

theorem abs_entry_discount_le (h0 : 0 ≤ γ) (h1 : γ ≤ 1) (i j : Fin n) :
    |(LinearSystem.ofRows (p.identityMinus γ) b).entry i j| ≤ 1 := by
  refine LinearSystem.abs_entry_identityMinus_le (fun i j => ?_) b h0 h1 i j
  rw [hp]
  exact ⟨(c i).weight_nonneg j, (c i).weight_le_one j⟩

end Discount

/-! ### The queries -/

namespace Model

variable {m : Model ℚ} {label : String}

/-- A query about a declared state of a chain is one about its matrix. -/
theorem reachability_eq_values (hchain : m.isChain = true) {target : m.State}
    (hfind : m.findState label = .ok target) (horizon : Horizon) :
    m.reachability label horizon = Reachability.values m.chainMatrix target horizon := by
  rw [reachability, hfind, hchain]
  rfl

/-- The system of the unbounded discounted reward. -/
def discountSystem (m : Model ℚ) (γ : ℚ) : LinearSystem ℚ m.size :=
  .ofRows (m.chainMatrix.identityMinus γ) m.rewards

/-- **The unbounded discounted reward is answered exactly if its system is solved.** -/
theorem discountedReward_unbounded (hchain : m.isChain = true) {γ : ℚ} (h0 : 0 ≤ γ) (h1 : γ ≤ 1) :
    m.discountedReward .unbounded γ =
      match (m.discountSystem γ).solve with
      | some y => .ok y
      | none => .error (.diverged γ) := by
  have hunit : Scalar.inUnit γ = true := by
    rw [Scalar.inUnit, decide_eq_true h0, decide_eq_true h1]
    rfl
  rw [discountedReward, Parameter.discount, if_pos hunit, hchain]
  simp only [discountSystem]
  rcases (LinearSystem.ofRows (m.chainMatrix.identityMinus γ) m.rewards).solve with _ | y <;> rfl

/-- **Which unbounded queries of a chain are answered.** The system of the undecided states and
that of a discount below one have exactly one solution each. An answer is given exactly if no
pivot that elimination meets is below `10⁻¹²`, and else the query says that the system is singular,
or that the rewards diverge. So every target is answered that leaves a run undecided for at most
`10¹²` steps in expectation, and every discount up to `1 - 10⁻¹²`. -/
theorem chain_queries_answered {b : Builder ℚ} (hb : b.Reachable) {initial : Option String}
    (hm : b.build initial = .ok m) (hchain : m.isChain = true) :
    (∀ label target, m.findState label = .ok target →
      (∃! y, (Reachability.undecidedSystem m.chainMatrix target).Solves y) ∧
      ((∃ v, m.reachability label .unbounded = .ok v) ↔ ∀ col entry,
        (Reachability.undecidedSystem m.chainMatrix target).Meets col entry → 1e-12 ≤ entry) ∧
      (∀ e, m.reachability label .unbounded = .error e → ∃ k, e = .singular k) ∧
      ((∀ k s, ((hb.stochastic hm).chain hchain).stay
          (fun s => (Reachability.classify m.chainMatrix target .unbounded).get s = .undecided) k s
            ≤ 1e12) →
        ∃ v, m.reachability label .unbounded = .ok v)) ∧
    ∀ γ : ℚ, 0 ≤ γ → γ < 1 →
      (∃! y, (m.discountSystem γ).Solves y) ∧
      ((∃ v, m.discountedReward .unbounded γ = .ok v) ↔ ∀ col entry,
        (m.discountSystem γ).Meets col entry → 1e-12 ≤ entry) ∧
      (∀ e, m.discountedReward .unbounded γ = .error e → e = .diverged γ) ∧
      (γ ≤ 1 - 1e-12 → ∃ v, m.discountedReward .unbounded γ = .ok v) := by
  have hp := (hb.stochastic hm).entry_chainMatrix hchain
  refine ⟨fun label target hfind => ?_, fun γ h0 h1 => ?_⟩
  · have heq := (reachability_eq_values hchain hfind .unbounded).trans
      (Reachability.values_unbounded m.chainMatrix target)
    have hiff : (∃ v, m.reachability label .unbounded = .ok v) ↔
        ∃ y, (Reachability.undecidedSystem m.chainMatrix target).solve = some y := by
      rw [heq]
      rcases (Reachability.undecidedSystem m.chainMatrix target).solve with _ | y <;> simp
    have hmeets := LinearSystem.exists_solve_iff
      (Reachability.abs_entry_undecidedSystem_le hp target)
    refine ⟨Reachability.existsUnique_undecidedSystem hp, hiff.trans hmeets, fun e he => ?_,
      fun hstay => ?_⟩
    · rw [heq] at he
      rcases hsolve : (Reachability.undecidedSystem m.chainMatrix target).solve with _ | y
      · rw [hsolve] at he
        exact ⟨_, (Except.error.inj he).symm⟩
      · rw [hsolve] at he
        cases he
    · have hsteady := Reachability.steady_undecidedSystem hp hstay
      exact hiff.mpr (hmeets.mpr fun col entry => hsteady.le_of_meets le_rfl)
  · have heq := discountedReward_unbounded hchain h0 h1.le
    have hiff : (∃ v, m.discountedReward .unbounded γ = .ok v) ↔
        ∃ y, (m.discountSystem γ).solve = some y := by
      rw [heq]
      rcases (m.discountSystem γ).solve with _ | y <;> simp
    have hmeets := LinearSystem.exists_solve_iff (abs_entry_discount_le hp m.rewards h0 h1.le)
    have hsteady := steady_identityMinus hp m.rewards h0 h1
    refine ⟨hsteady.existsUnique, hiff.trans hmeets, fun e he => ?_, fun hγ => ?_⟩
    · rw [heq] at he
      rcases hsolve : (m.discountSystem γ).solve with _ | y
      · rw [hsolve] at he
        exact (Except.error.inj he).symm
      · rw [hsolve] at he
        cases he
    · refine hiff.mpr (hmeets.mpr fun col entry => hsteady.le_of_meets ?_)
      rw [div_le_iff₀ (sub_pos.mpr h1)]
      linarith

/-- The wandering chain is undecided for two steps in expectation, so its goal is answered; and so
is a discount of one half. -/
theorem chain_queries_answered_wandering : ∃ b : Builder ℚ, ∃ m : Model ℚ,
    Builder.ofDeclarations wandering = .ok b ∧ b.build none = .ok m ∧ m.isChain = true ∧
      (∃ v, m.reachability "goal" .unbounded = .ok v) ∧
      ∃ v, m.discountedReward .unbounded (1 / 2) = .ok v := by
  obtain ⟨b, m, hb, hm, htest⟩ := Builder.exists_of_any wandering
    (fun m => m.isChain && (m.findState "goal").toOption.any fun target : m.State =>
      decide (∀ s, (Reachability.classify m.chainMatrix target .unbounded).get s = .undecided →
        1 + ∑ t, m.chainMatrix.entry s t *
          (if (Reachability.classify m.chainMatrix target .unbounded).get t = .undecided
            then 2 else 0) ≤ (2 : ℚ)))
    (by decide +kernel)
  simp only [Bool.and_eq_true, Option.any_eq_true, decide_eq_true_eq] at htest
  obtain ⟨hchain, target, htarget, hpays⟩ := htest
  have hb' := Builder.reachable_of_ofDeclarations hb
  obtain ⟨hreach, hdiscount⟩ := chain_queries_answered hb' hm hchain
  refine ⟨b, m, hb, hm, hchain, ?_, (hdiscount (1 / 2) (by norm_num) (by norm_num)).2.2.2
    (by norm_num)⟩
  refine (hreach "goal" target (eq_ok_of_toOption htarget)).2.2.2 fun k s => ?_
  refine (Chain.stay_le (f := fun t =>
    if (Reachability.classify m.chainMatrix target .unbounded).get t = .undecided then 2 else 0)
    (fun t => ?_) (fun t ht => ?_) k s).trans ?_
  · split_ifs <;> norm_num
  · rw [if_pos ht, Distribution.mean]
    simp only [← (hb'.stochastic hm).entry_chainMatrix hchain]
    exact hpays t ht
  · split_ifs <;> norm_num

/-- A state that is left with probability `2⁻⁴¹`, for a goal that is kept. -/
def fading : List Declaration :=
  [.state "start" none, .state "goal" none,
    .transition "start" none [⟨2199023255551, "start"⟩, ⟨1, "goal"⟩]]

/-- **A chain query can be refused although its system has one solution.** The fading chain has one
undecided state, and its pivot is `2⁻⁴¹`; a discount as close to one is refused as well. -/
theorem chain_query_refused : ∃ b : Builder ℚ, ∃ m : Model ℚ, ∃ target : m.State,
    Builder.ofDeclarations fading = .ok b ∧ b.build none = .ok m ∧ m.isChain = true ∧
      m.findState "goal" = .ok target ∧
      m.reachability "goal" .unbounded = .error (.singular 1) ∧
      (0 : ℚ) ≤ 1 - 1 / 2199023255552 ∧ (1 : ℚ) - 1 / 2199023255552 < 1 ∧
      m.discountedReward .unbounded (1 - 1 / 2199023255552)
        = .error (.diverged (1 - 1 / 2199023255552)) := by
  obtain ⟨b, m, hb, hm, htest⟩ := Builder.exists_of_any fading
    (fun m => m.isChain && (m.findState "goal").toOption.any fun target : m.State =>
      (match m.reachability "goal" .unbounded with
        | .error (.singular 1) => true
        | _ => false) &&
      (m.discountSystem (1 - 1 / 2199023255552)).solve.isNone)
    (by decide +kernel)
  simp only [Bool.and_eq_true, Option.any_eq_true] at htest
  obtain ⟨hchain, target, htarget, hsingular, hdiverged⟩ := htest
  refine ⟨b, m, target, hb, hm, hchain, eq_ok_of_toOption htarget, ?_, by norm_num, by norm_num,
    ?_⟩
  · split at hsingular
    · assumption
    · cases hsingular
  · rw [discountedReward_unbounded hchain (by norm_num) (by norm_num),
      Option.isNone_iff_eq_none.mp hdiverged]

end Model

end MarkovDecision
