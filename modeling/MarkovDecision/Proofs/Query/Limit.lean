import MarkovDecision.Proofs.Model.Process
import MarkovDecision.Proofs.Numeric.LinearSystem
import MarkovDecision.Proofs.Query.Closure
import MarkovDecision.Query.Reachability

/-!
# The unbounded query is the limit of the bounded ones

The two horizons of `Reachability.values` have little text in common. With a number
of steps only the target is classified and an affine map is iterated from zero;
without one the graph is consulted twice and a system of equations is solved. What
they share is how the numbers of the undecided states are put together with those
of the others (`Reachability.filled`), and that one application of the affine map is
one averaging step of what is put together (`Reachability.mean_filled`). So

* iterating it gives the chances within a number of steps
  (`Reachability.filled_unroll`);
* a solution is a function that equals its averages away from the target and
  vanishes where the target is never reached, and there is only one such function,
  the limit of those chances (`Reachability.filled_eq_value`). That the classes read
  off the graph are right – the certain states step to certain ones only, the other
  reaching ones to the target with a positive chance, the rest among themselves – is
  where the two closures enter.

Both functions have their values in the unit interval, so the clamp at the end of a
query is never felt (`Reachability.clampUnit_of_solveUndecided`).
-/

namespace MarkovDecision

open Finset

namespace Reachability

variable {n : ℕ} {fates : Vector Fate n}

/-! ### Putting the numbers together -/

/-- The value of a state before it is brought into the unit interval. -/
def filled (fates : Vector Fate n) (y : Vector ℚ (undecided fates).length) (s : Fin n) : ℚ :=
  match fates.get s with
  | .certain => 1
  | .never => 0
  | .undecided =>
    match (List.finRange (undecided fates).length).find? fun i => (undecided fates).get i = s with
    | some i => y.get i
    | none => 0

theorem mem_undecided {s : Fin n} : s ∈ undecided fates ↔ fates.get s = .undecided := by
  simp [undecided]

theorem nodup_undecided (fates : Vector Fate n) : (undecided fates).Nodup :=
  (List.nodup_finRange n).filter _

theorem get_fates (i : Fin (undecided fates).length) :
    fates.get ((undecided fates).get i) = .undecided :=
  mem_undecided.mp (List.get_mem (undecided fates) i)

section Filled

variable {y : Vector ℚ (undecided fates).length}

theorem filled_certain {s : Fin n} (hs : fates.get s = .certain) : filled fates y s = 1 := by
  rw [filled, hs]

theorem filled_never {s : Fin n} (hs : fates.get s = .never) : filled fates y s = 0 := by
  rw [filled, hs]

theorem filled_get (i : Fin (undecided fates).length) :
    filled fates y ((undecided fates).get i) = y.get i := by
  rw [filled, get_fates i]
  dsimp only
  rw [find?_get (nodup_undecided fates) i]

/-- **The clamp is not felt** where what is put together lies in the unit interval. -/
theorem valueAt_eq_filled {s : Fin n} (h0 : 0 ≤ filled fates y s) (h1 : filled fates y s ≤ 1) :
    valueAt fates y s = filled fates y s := by
  rcases hs : fates.get s with _ | _ | _
  · rw [filled_never hs, valueAt, hs]
  · rw [filled_certain hs, valueAt, hs]
  · obtain ⟨i, rfl⟩ := List.get_of_mem (mem_undecided.mpr hs)
    rw [filled_get] at h0 h1 ⊢
    rw [valueAt, hs]
    dsimp only
    rw [find?_get (nodup_undecided fates) i]
    exact clampUnit_of_mem h0 h1

/-- A weighted sum over all states, sorted by what is known about them. -/
theorem sum_filled (w : Fin n → ℚ) :
    ∑ t, w t * filled fates y t
      = ∑ i, w ((undecided fates).get i) * y.get i + ∑ t with fates.get t = .certain, w t := by
  -- a state is undecided, or certain, or contributes nothing
  have hsort : ∀ t, w t * filled fates y t
      = (if fates.get t = .undecided then w t * filled fates y t else 0)
        + if fates.get t = .certain then w t else 0 := by
    intro t
    rcases ht : fates.get t with _ | _ | _
    · simp [filled_never ht]
    · simp [filled_certain ht]
    · simp
  have hout : ∀ t, t ∉ undecided fates →
      (if fates.get t = .undecided then w t * filled fates y t else 0) = 0 :=
    fun t ht => if_neg fun h => ht (mem_undecided.mpr h)
  rw [sum_congr rfl fun t _ => hsort t, sum_add_distrib, sum_filter,
    sum_eq_sum_get (nodup_undecided fates) hout]
  refine congrArg (· + _) (sum_congr rfl fun i _ => ?_)
  rw [if_pos (get_fates i), filled_get]

end Filled

/-! ### One step -/

theorem get_intoCertain (p : Matrix ℚ n n) (fates : Vector Fate n) (states : List (Fin n))
    (i : Fin states.length) :
    (intoCertain p fates states).get i
      = ∑ t with fates.get t = .certain, p.entry (states.get i) t := by
  have hnodup : ((List.finRange n).filter fun t => fates.get t = .certain).Nodup :=
    (List.nodup_finRange n).filter _
  have hset : ((List.finRange n).filter fun t => fates.get t = .certain).toFinset
      = univ.filter fun t => fates.get t = .certain := by
    ext t
    simp
  rw [intoCertain, get_ofFn, ← List.foldl_map (g := (· + ·)), foldl_add_eq, ← hset,
    List.sum_toFinset _ hnodup, neg_zero, zero_add]

theorem entry_restrict (p : Matrix ℚ n n) (states : List (Fin n)) (i j : Fin states.length) :
    (restrict p states).entry i j = p.entry (states.get i) (states.get j) := by
  rw [restrict, Matrix.entry, get_ofFn, get_ofFn]

variable {p : Matrix ℚ n n} {c : Chain (Fin n)} (hp : ∀ s t, p.entry s t = (c s).weight t)
  {target : Fin n}

include hp in
/-- **One application of the affine map is one averaging step** of what is put together. -/
theorem mean_filled (y : Vector ℚ (undecided fates).length) (i : Fin (undecided fates).length) :
    ((restrict p (undecided fates)).apply y).get i
        + (intoCertain p fates (undecided fates)).get i
      = (c ((undecided fates).get i)).mean (filled fates y) := by
  rw [get_apply, get_intoCertain, Distribution.mean, sum_filled]
  simp only [entry_restrict, hp]

/-! ### A number of steps -/

theorem get_classify_steps (p : Matrix ℚ n n) (target : Fin n) (k : ℕ) (s : Fin n) :
    (classify p target (.steps k)).get s = if s = target then .certain else .undecided := by
  rw [classify, get_ofFn]

section Steps

variable (hfates : ∀ s, fates.get s = if s = target then .certain else .undecided)
include hfates

/-- Where only the target is classified, a function is determined by its value at the target and
at the states with a number. -/
theorem filled_eq_of_get {y : Vector ℚ (undecided fates).length} {f : Fin n → ℚ}
    (htarget : f target = 1) (hf : ∀ i, y.get i = f ((undecided fates).get i)) :
    filled fates y = f := by
  funext s
  rcases eq_or_ne s target with rfl | hs
  · rw [filled_certain (by rw [hfates, if_pos rfl]), htarget]
  · obtain ⟨i, rfl⟩ := List.get_of_mem (mem_undecided.mpr (by rw [hfates, if_neg hs]))
    rw [filled_get, hf]

theorem get_undecided_ne (i : Fin (undecided fates).length) : (undecided fates).get i ≠ target := by
  intro heq
  have hfate := get_fates i
  rw [heq, hfates, if_pos rfl] at hfate
  cases hfate

include hp in
/-- **Iterating the affine map from the chances within `j` steps** gives those within as many
steps more. -/
theorem filled_unroll (steps j : ℕ) {y : Vector ℚ (undecided fates).length}
    (hy : filled fates y = c.within target j) :
    filled fates (unroll (restrict p (undecided fates)) (intoCertain p fates (undecided fates))
        steps y)
      = c.within target (j + steps) := by
  induction steps generalizing j y with
  | zero => exact hy
  | succ steps ih =>
    rw [unroll, show j + (steps + 1) = j + 1 + steps by omega]
    refine ih (j + 1) (filled_eq_of_get hfates (Chain.within_goal _) fun i => ?_)
    rw [get_zipWith, mean_filled hp, hy]
    simp only [Chain.within, get_undecided_ne hfates i, if_false]

/-- Zero stands for the chances within no step. -/
theorem filled_zero : filled fates (Vector.replicate _ 0) = c.within target 0 := by
  refine filled_eq_of_get hfates (Chain.within_goal _) fun i => ?_
  rw [get_replicate]
  simp only [Chain.within, get_undecided_ne hfates i, if_false]

end Steps

include hp in
/-- **What a number of steps computes** are the chances within it. -/
theorem filled_of_steps {k : ℕ} {y : Vector ℚ (undecided (classify p target (.steps k))).length}
    (hy : solveUndecided p (classify p target (.steps k)) (.steps k) = .ok y) :
    filled _ y = c.within target k := by
  obtain rfl := Except.ok.inj hy
  have hfates := get_classify_steps p target k
  rw [filled_unroll hp hfates k 0 (filled_zero hfates), zero_add]

/-! ### No bound -/

section Unbounded

/-- A chance handed on by a step. -/
theorem exists_within_pos {s t : Fin n} (hst : 0 < (c s).weight t)
    (ht : ∃ k, 0 < c.within target k t) : ∃ k, 0 < c.within target k s := by
  by_contra hs
  have hzero : ∀ k, c.within target k s = 0 := fun k =>
    le_antisymm (not_lt.mp fun hpos => hs ⟨k, hpos⟩) (Chain.within_nonneg k s)
  obtain ⟨k, hk⟩ := ht
  exact hk.ne' ((Chain.trap_never c target).closed s hzero t hst k)

/-- The target is certain. -/
theorem certainSet_target : (certainSet p target).get target = true :=
  Marks.get_grow (by simp)

theorem reachingSet_of_certain {s : Fin n} (hs : (certainSet p target).get s = true) :
    (reachingSet p (certainSet p target)).get s = true :=
  Marks.get_grow hs

theorem get_classify_unbounded (s : Fin n) :
    (classify p target .unbounded).get s =
      if !(reachingSet p (certainSet p target)).get s then .never
      else if (certainSet p target).get s then .certain else .undecided := by
  rw [classify, get_ofFn]

theorem certain_iff {s : Fin n} :
    (classify p target .unbounded).get s = .certain ↔ (certainSet p target).get s = true := by
  rw [get_classify_unbounded]
  cases hr : (reachingSet p (certainSet p target)).get s <;>
    cases hc : (certainSet p target).get s <;> simp
  exact absurd (reachingSet_of_certain hc) (by rw [hr]; exact Bool.false_ne_true)

theorem never_iff {s : Fin n} :
    (classify p target .unbounded).get s = .never ↔
      (reachingSet p (certainSet p target)).get s ≠ true := by
  rw [get_classify_unbounded]
  cases (reachingSet p (certainSet p target)).get s <;>
    cases (certainSet p target).get s <;> simp

include hp

/-- **From a certain state every step leads to a certain state**, unless it is the target. -/
theorem certain_of_weight {s t : Fin n} (hs : (certainSet p target).get s = true)
    (hne : s ≠ target) (ht : 0 < (c s).weight t) : (certainSet p target).get t = true := by
  refine Marks.grow_induction
    (P := fun s => s ≠ target → ∀ t, 0 < (c s).weight t → (certainSet p target).get t = true)
    (fun u hu hne => ?_) (fun marks hmarks u hu _ t ht => ?_) s hs hne t ht
  · rw [Marks.get_single, decide_eq_true_eq] at hu
    exact absurd hu hne
  · have hrule := List.all_eq_true.mp hu t (List.mem_finRange t)
    rw [Bool.or_eq_true, beq_iff_eq, hp] at hrule
    exact (hmarks t (hrule.resolve_right ht.ne')).1

/-- What a state has from any state that it steps to, if the target has it, all certain states
have: some step has a positive probability, and it leads to a certain state. -/
theorem certain_induction {P : Fin n → Prop} (htarget : P target)
    (hstep : ∀ s t, 0 < (c s).weight t → P t → P s) {s : Fin n}
    (hs : (certainSet p target).get s = true) : P s := by
  refine Marks.grow_induction (P := P) (fun t ht => ?_) (fun marks hmarks t ht => ?_) s hs
  · rw [Marks.get_single, decide_eq_true_eq] at ht
    exact ht ▸ htarget
  · obtain ⟨r, hr⟩ := (c t).exists_weight_pos
    have hrule := List.all_eq_true.mp ht r (List.mem_finRange r)
    rw [Bool.or_eq_true, beq_iff_eq, hp] at hrule
    exact hstep t r hr (hmarks r (hrule.resolve_right hr.ne')).2

/-- What a state has from any reaching state that it steps to, if the certain states have it, all
reaching states have. -/
theorem reaching_induction {P : Fin n → Prop}
    (hcertain : ∀ s, (certainSet p target).get s = true → P s)
    (hstep : ∀ s t, 0 < (c s).weight t →
      (reachingSet p (certainSet p target)).get t = true → P t → P s) {s : Fin n}
    (hs : (reachingSet p (certainSet p target)).get s = true) : P s := by
  refine Marks.grow_induction (P := P) hcertain (fun marks hmarks u hu => ?_) s hs
  obtain ⟨t, -, ht⟩ := List.any_eq_true.mp hu
  rw [Bool.and_eq_true, decide_eq_true_eq, hp] at ht
  obtain ⟨hreach, hP⟩ := hmarks t ht.1
  exact hstep u t ht.2 hreach hP

/-- **From a reaching state the target is hit with a positive chance.** -/
theorem within_pos_of_reaching {s : Fin n}
    (hs : (reachingSet p (certainSet p target)).get s = true) :
    ∃ k, 0 < c.within target k s := by
  refine reaching_induction hp (fun t ht => ?_) (fun _ _ hst _ => exists_within_pos hst) hs
  refine certain_induction hp ⟨0, ?_⟩ (fun _ _ => exists_within_pos) ht
  rw [Chain.within_goal]
  exact one_pos

/-- **From a state that is not reaching no step leads to a reaching one.** -/
theorem not_reaching_of_weight {s t : Fin n}
    (hs : (reachingSet p (certainSet p target)).get s ≠ true) (ht : 0 < (c s).weight t) :
    (reachingSet p (certainSet p target)).get t ≠ true := by
  intro hreach
  refine Marks.rule_grow hs (List.any_eq_true.mpr ⟨t, List.mem_finRange t, ?_⟩)
  rw [Bool.and_eq_true, decide_eq_true_eq, hp]
  exact ⟨hreach, ht⟩

/-- **Numbers that are averages are the limit**: what is put together of them equals its averages
away from the target, and vanishes where the target is never reached. -/
theorem filled_eq_value {y : Vector ℚ (undecided (classify p target .unbounded)).length}
    (hfixed : ∀ i, y.get i
      = (c ((undecided (classify p target .unbounded)).get i)).mean (filled _ y)) :
    filled _ y = c.value target := by
  refine Chain.eq_value (filled_certain (certain_iff.mpr certainSet_target)) (fun s hs => ?_)
    (fun s hs => ?_)
  · rcases hfate : (classify p target .unbounded).get s with _ | _ | _
    · rw [filled_never hfate]
      refine ((c s).mean_eq_of_support fun t ht => filled_never (never_iff.mpr ?_)).symm
      exact not_reaching_of_weight hp (never_iff.mp hfate) ht
    · rw [filled_certain hfate]
      refine ((c s).mean_eq_of_support fun t ht => filled_certain (certain_iff.mpr ?_)).symm
      exact certain_of_weight hp (certain_iff.mp hfate) hs ht
    · obtain ⟨i, rfl⟩ := List.get_of_mem (mem_undecided.mpr hfate)
      rw [filled_get]
      exact hfixed i
  · refine filled_never (never_iff.mpr fun hreach => ?_)
    obtain ⟨k, hk⟩ := within_pos_of_reaching hp hreach
    exact hk.ne' (hs k)

/-- A solution of the system consists of averages. -/
theorem eq_mean_of_solves {y : Vector ℚ (undecided fates).length}
    (hy : (LinearSystem.ofRows ((restrict p (undecided fates)).identityMinus 1)
      (intoCertain p fates (undecided fates))).Solves y) (i : Fin (undecided fates).length) :
    y.get i = (c ((undecided fates).get i)).mean (filled fates y) := by
  rw [LinearSystem.solves_identityMinus_iff] at hy
  rw [hy i, one_mul, mean_filled hp]

/-- **What is computed without a bound is the limit.** -/
theorem filled_of_unbounded {y : Vector ℚ (undecided (classify p target .unbounded)).length}
    (hy : solveUndecided p (classify p target .unbounded) .unbounded = .ok y) :
    filled _ y = c.value target := by
  simp only [solveUndecided] at hy
  split at hy
  case h_2 => cases hy
  case h_1 y' hsolve =>
    obtain rfl := Except.ok.inj hy
    exact filled_eq_value hp (eq_mean_of_solves hp (LinearSystem.solves_of_solve hsolve))

end Unbounded

/-! ### The queries -/

include hp

/-- What is computed lies in the unit interval, whatever the horizon. -/
theorem filled_mem_unit {horizon : Horizon}
    {y : Vector ℚ (undecided (classify p target horizon)).length}
    (hy : solveUndecided p (classify p target horizon) horizon = .ok y) (s : Fin n) :
    0 ≤ filled _ y s ∧ filled _ y s ≤ 1 := by
  have hle : ∀ k t, c.within target k t ≤ 1 :=
    Chain.within_le le_rfl (fun _ => zero_le_one) fun t _ => ((c t).mean_const 1).le
  cases horizon with
  | steps k =>
    rw [filled_of_steps hp hy]
    exact ⟨Chain.within_nonneg k s, hle k s⟩
  | unbounded =>
    rw [filled_of_unbounded hp hy]
    refine ⟨Chain.value_nonneg s, (Chain.isLUB_value c target s).2 ?_⟩
    rintro _ ⟨k, rfl⟩
    exact hle k s

/-- **The clamp changes nothing**: the numbers of the undecided states are in the unit interval
before it. -/
theorem clampUnit_of_solveUndecided {horizon : Horizon}
    {y : Vector ℚ (undecided (classify p target horizon)).length}
    (hy : solveUndecided p (classify p target horizon) horizon = .ok y)
    (i : Fin (undecided (classify p target horizon)).length) :
    Scalar.clampUnit (y.get i) = y.get i := by
  obtain ⟨h0, h1⟩ := filled_mem_unit hp hy ((undecided _).get i)
  rw [filled_get] at h0 h1
  exact clampUnit_of_mem h0 h1

/-- The values of a query are what is computed. -/
theorem exists_of_values {horizon : Horizon} {v : Vector ℚ n}
    (hv : values p target horizon = .ok v) :
    ∃ y, solveUndecided p (classify p target horizon) horizon = .ok y ∧
      ∀ s, v.get s = filled _ y s := by
  rw [values] at hv
  rcases hy : solveUndecided p (classify p target horizon) horizon with e | y
  · rw [hy] at hv
    cases hv
  · rw [hy] at hv
    obtain rfl := Except.ok.inj hv
    refine ⟨y, rfl, fun s => ?_⟩
    obtain ⟨h0, h1⟩ := filled_mem_unit hp hy s
    rw [get_ofFn, valueAt_eq_filled h0 h1]

/-- **The bounded values**: always there, and the chances within the number of steps. -/
theorem values_steps (k : ℕ) :
    values p target (.steps k) = .ok (Vector.ofFn (c.within target k)) := by
  obtain ⟨y, hy⟩ : ∃ y, solveUndecided p (classify p target (.steps k)) (.steps k) = .ok y :=
    ⟨_, rfl⟩
  have hv : values p target (.steps k) = .ok (Vector.ofFn (valueAt _ y)) := by
    rw [values, hy]
    rfl
  obtain ⟨y', hy', hget⟩ := exists_of_values hp hv
  rw [hv]
  refine congrArg Except.ok (ext_get fun s => ?_)
  rw [hget, filled_of_steps hp hy', get_ofFn]

/-- **The unbounded values**, where there are any, are the limits. -/
theorem get_of_values {v : Vector ℚ n} (hv : values p target .unbounded = .ok v) (s : Fin n) :
    v.get s = c.value target s := by
  obtain ⟨y, hy, hget⟩ := exists_of_values hp hv
  rw [hget, filled_of_unbounded hp hy]

end Reachability

namespace Model

variable {m : Model ℚ} {label : String}

/-- The matrix of a chain holds the probabilities of its only action. -/
theorem Stochastic.entry_chainMatrix (h : m.Stochastic) (hm : m.isChain = true) (s t : m.State) :
    m.chainMatrix.entry s t = (h.chain hm s).weight t := by
  rw [chainMatrix, Matrix.entry, get_map]
  rfl

/-- **What it takes for a chain query to have an answer.** -/
theorem reachability_eq_ok {horizon : Horizon} {v : Vector ℚ m.size} :
    m.reachability label horizon = .ok v ↔
      m.isChain = true ∧ ∃ target, m.findState label = .ok target ∧
        Reachability.values m.chainMatrix target horizon = .ok v := by
  rw [reachability]
  cases hm : m.isChain with
  | false => simp [throw, throwThe, MonadExceptOf.throw, bind, Except.bind]
  | true =>
    rcases hf : m.findState label with e | target
    · simp [ofModel, bind, Except.bind]
    · simp [ofModel, bind, Except.bind]

/-- **The unbounded query is the limit of the bounded ones.** Where it has an answer, so has the
query for every number of steps; the answers increase with the number of steps, the unbounded one
is their least upper bound, and in neither does the clamp to the unit interval change anything. -/
theorem reachability_isLUB {b : Builder ℚ} (hb : b.Reachable) {initial : Option String}
    (hm : b.build initial = .ok m) {v : Vector ℚ m.size}
    (hv : m.reachability label .unbounded = .ok v) :
    ∃ w : ℕ → Vector ℚ m.size, (∀ n, m.reachability label (.steps n) = .ok (w n)) ∧
      (∀ s, Monotone (fun n => (w n).get s) ∧ (∀ n, (w n).get s ≤ v.get s) ∧
        IsLUB (Set.range fun n => (w n).get s) (v.get s)) ∧
      ∃ target, m.findState label = .ok target ∧
        ∀ horizon, ∀ y, Reachability.solveUndecided m.chainMatrix
            (Reachability.classify m.chainMatrix target horizon) horizon = .ok y →
          ∀ i, Scalar.clampUnit (y.get i) = y.get i := by
  have h := hb.stochastic hm
  obtain ⟨hchain, target, hfind, hvalues⟩ := reachability_eq_ok.mp hv
  have hp := h.entry_chainMatrix hchain
  have hlub : ∀ s, IsLUB (Set.range fun n => (h.chain hchain).within target n s) (v.get s) := by
    intro s
    rw [Reachability.get_of_values hp hvalues]
    exact Chain.isLUB_value _ target s
  refine ⟨fun n => Vector.ofFn ((h.chain hchain).within target n), fun n => ?_, fun s => ?_,
    target, hfind, fun horizon y hy => Reachability.clampUnit_of_solveUndecided hp hy⟩
  · exact reachability_eq_ok.mpr ⟨hchain, target, hfind, Reachability.values_steps hp n⟩
  · simp only [get_ofFn]
    exact ⟨Chain.within_mono _ target s, fun n => (hlub s).1 ⟨n, rfl⟩, hlub s⟩

/-- A state that stays where it is half of the time and else comes to a goal or a sink. -/
def wandering : List Declaration :=
  [.state "start" none, .state "goal" none, .state "sink" none,
    .transition "start" none [⟨2, "start"⟩, ⟨1, "goal"⟩, ⟨1, "sink"⟩]]

/-- The values of the wandering chain are the limits of those within a number of steps. -/
theorem reachability_isLUB_wandering : ∃ b : Builder ℚ, ∃ m : Model ℚ,
    ∃ v : Vector ℚ m.size, ∃ w : ℕ → Vector ℚ m.size,
      Builder.ofDeclarations wandering = .ok b ∧ b.build none = .ok m ∧
      m.reachability "goal" .unbounded = .ok v ∧ v.toList = [1 / 2, 1, 0] ∧
      (∀ n, m.reachability "goal" (.steps n) = .ok (w n)) ∧
      ∀ s, IsLUB (Set.range fun n => (w n).get s) (v.get s) := by
  obtain ⟨b, m, hb, hm, htest⟩ := Builder.exists_of_any wandering
    (fun m => (m.reachability "goal" .unbounded).toOption.any
      fun v : Vector ℚ m.size => decide (v.toList = [1 / 2, 1, 0])) (by decide +kernel)
  obtain ⟨v, hsome, hvalues⟩ := (Option.any_eq_true _ _).mp htest
  have hv := eq_ok_of_toOption hsome
  obtain ⟨w, hw, hlub, -⟩ := reachability_isLUB (Builder.reachable_of_ofDeclarations hb) hm hv
  exact ⟨b, m, v, w, hb, hm, hv, of_decide_eq_true hvalues, hw, fun s => (hlub s).2.2⟩

end Model

end MarkovDecision
