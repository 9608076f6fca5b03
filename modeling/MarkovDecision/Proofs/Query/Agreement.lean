import MarkovDecision.Proofs.LinearProgram.Exact
import MarkovDecision.Proofs.Query.Limit
import MarkovDecision.Proofs.Query.Programs

/-!
# Three engines for one chance

A chain has three ways of being asked for the chance of reaching a target: the
elimination of `Model.reachability`, and the two linear programs, whose largest and
smallest value coincide where nothing can be chosen. The first is exact wherever it
answers, and so are the two others **as programs**. The search that solves them is
not: it takes reduced costs and pivots for zero that are small in absolute terms,
and a residue of the first phase for none. Then a point may be returned that
violates its constraints, and nothing ties its coordinates to the chances. A chain
that leaves a state with a small enough probability is a case (`Model.lingering`).

The tolerances are all that is wrong. Set to zero they make the search exact, and the
engines agree (`Model.answers_agree`). At the working tolerance a point that does
satisfy its constraints is on the right side of the chance in every coordinate, and
its cost is off by the tolerance times the number of states at most
(`Bounds.size_pointOf`), so every coordinate is (`LinearProgram.abs_sub_le_cost_sub`).
Hence the engines agree wherever the two points satisfy the constraints.
-/

namespace MarkovDecision

open Finset

/-- **A point that costs more in every coordinate is as near as its cost**, for unit costs. -/
theorem LinearProgram.abs_sub_le_cost_sub {n m : ℕ} (lp : LinearProgram ℚ n m) {x y : Vector ℚ n}
    (hunit : ∀ j, |lp.objective.get j| = 1)
    (hle : ∀ j, lp.objective.get j * y.get j ≤ lp.objective.get j * x.get j) (j : Fin n) :
    |x.get j - y.get j| ≤ lp.cost x - lp.cost y := by
  have hterm : ∀ k, 0 ≤ lp.objective.get k * x.get k - lp.objective.get k * y.get k :=
    fun k => sub_nonneg.mpr (hle k)
  calc |x.get j - y.get j|
      = |lp.objective.get j * x.get j - lp.objective.get j * y.get j| := by
        rw [← mul_sub, abs_mul, hunit, one_mul]
    _ = lp.objective.get j * x.get j - lp.objective.get j * y.get j := abs_of_nonneg (hterm j)
    _ ≤ ∑ k, (lp.objective.get k * x.get k - lp.objective.get k * y.get k) :=
        single_le_sum (fun k _ => hterm k) (mem_univ j)
    _ = lp.cost x - lp.cost y := sum_sub_distrib _ _

namespace Bounds

variable {m : Model ℚ} {target : m.State} {states : List m.State}

/-! ### What is left of the constraints -/

/-- Values put together from points that are near are near. -/
theorem abs_assemble_sub_le (hnodup : states.Nodup) (hout : target ∉ states)
    {x y : Vector ℚ states.length} (hx : ∀ k, 0 ≤ x.get k ∧ x.get k ≤ 1)
    (hy : ∀ k, 0 ≤ y.get k ∧ y.get k ≤ 1) {δ : ℚ} (hδ : 0 ≤ δ)
    (hxy : ∀ k, |x.get k - y.get k| ≤ δ) (s : m.State) :
    |(assemble m target states x).get s - (assemble m target states y).get s| ≤ δ := by
  rcases eq_or_ne s target with rfl | hs
  · rwa [get_assemble_target, get_assemble_target, sub_self, abs_zero]
  by_cases hmem : s ∈ states
  · obtain ⟨k, rfl⟩ := List.get_of_mem hmem
    rw [get_assemble_get hnodup hout (hx k).1 (hx k).2,
      get_assemble_get hnodup hout (hy k).1 (hy k).2]
    exact hxy k
  · rwa [get_assemble_of_notMem hs hmem, get_assemble_of_notMem hs hmem, sub_self, abs_zero]

section Harmonic

variable (hnodup : states.Nodup) (hout : target ∉ states) {f : m.State → ℚ}
  (htarget : f target = 1) (hf : ∀ s, 0 ≤ f s ∧ f s ≤ 1)
  (hzero : ∀ s, s ≠ target → s ∉ states → f s = 0)
  (hmean : ∀ k, ∀ a ∈ m.enabled.get (states.get k),
    ∑ t, m.prob (states.get k) a t * f t = f (states.get k))
include hnodup hout htarget hf hzero hmean

/-- A function that equals its averages leaves nothing of the constraint of a choice. -/
theorem gap_choiceRow (sense : Sense) (k : Fin states.length) {a : m.Action}
    (ha : a ∈ m.enabled.get (states.get k)) :
    (choiceRow m target states sense k a).gap (pointOf states f) = 0 := by
  have hunit : ∀ k, 0 ≤ (pointOf states f).get k ∧ (pointOf states f).get k ≤ 1 := by
    intro k
    rw [get_pointOf]
    exact hf _
  have hsum := sum_assemble hnodup hout hunit (m.prob (states.get k) a)
  simp only [assemble_pointOf hnodup hout htarget hf hzero] at hsum
  rw [hmean k a ha] at hsum
  rw [Constraint.gap, form_choiceRow, get_pointOf, hsum, add_sub_cancel_right]
  exact abs_eq_zero.mpr (sub_self _)

/-- **What it leaves of all constraints** is what keeps it below one. -/
theorem sum_gap (objective : Vector ℚ states.length) (sense : Sense) :
    ∑ i, ((LinearProgram.subjectTo objective
        (constraints m target states sense)).constraints.get i).gap (pointOf states f)
      = ∑ k, (1 - f (states.get k)) := by
  have hcap : ∀ k, (capRow states k).gap (pointOf states f) = 1 - f (states.get k) := by
    intro k
    rw [Constraint.gap, form_capRow, get_pointOf, abs_sub_comm]
    exact abs_of_nonneg (sub_nonneg.mpr (hf _).2)
  have hchoices : ∀ k, ((m.enabled.get (states.get k)).map fun a =>
      (choiceRow m target states sense k a).gap (pointOf states f)).sum = 0 := by
    intro k
    refine List.sum_eq_zero fun q hq => ?_
    obtain ⟨a, ha, rfl⟩ := List.mem_map.mp hq
    exact gap_choiceRow hnodup hout htarget hf hzero hmean sense k ha
  -- the constraints of one state after those of the other
  refine (Fin.sum_univ_fun_getElem (constraints m target states sense)
    (fun c => c.gap (pointOf states f))).trans ?_
  rw [constraints_eq, List.map_flatMap, List.flatMap_def, List.sum_flatten, List.map_map,
    ← Fin.sum_univ_def]
  refine sum_congr rfl fun k _ => ?_
  rw [Function.comp_apply, List.map_append, List.map_map, List.sum_append]
  simp only [Function.comp_def, hchoices, List.map_cons, List.map_nil, List.sum_cons, List.sum_nil,
    hcap, zero_add, add_zero]

/-- **The size of the point and of what it leaves** is the number of states with a variable. -/
theorem size_pointOf (objective : Vector ℚ states.length) (sense : Sense) :
    ∑ k, (pointOf states f).get k
      + ∑ i, ((LinearProgram.subjectTo objective
          (constraints m target states sense)).constraints.get i).gap (pointOf states f)
      = states.length := by
  rw [sum_gap hnodup hout htarget hf hzero hmean, ← sum_add_distrib]
  simp

/-- **A feasible point that is returned is near the function**, if it costs more in every
coordinate. -/
theorem abs_assemble_sub_le_of_solve {objective : Vector ℚ states.length} {sense : Sense}
    (hunit : ∀ j, |objective.get j| = 1) {x : Vector ℚ states.length}
    (hsolve : (LinearProgram.subjectTo objective (constraints m target states sense)).solve = .ok x)
    (hx : (LinearProgram.subjectTo objective (constraints m target states sense)).Feasible x)
    (hpoint : (LinearProgram.subjectTo objective
      (constraints m target states sense)).Feasible (pointOf states f))
    (hle : ∀ j, objective.get j * (pointOf states f).get j ≤ objective.get j * x.get j)
    (s : m.State) :
    |(assemble m target states x).get s - f s| ≤ 1e-9 * states.length := by
  have hcost := LinearProgram.cost_le_of_solveWithin (by norm_num [Tolerance.working]) hsolve hpoint
  rw [size_pointOf hnodup hout htarget hf hzero hmean] at hcost
  have hnear : ∀ k, |x.get k - (pointOf states f).get k| ≤ 1e-9 * states.length := by
    intro k
    have hdist := LinearProgram.abs_sub_le_cost_sub
      (LinearProgram.subjectTo objective (constraints m target states sense)) hunit hle k
    exact hdist.trans (sub_le_iff_le_add'.mpr hcost)
  have hx' := ((feasible_iff hnodup hout sense objective).mp hx).1
  have hpoint' := ((feasible_iff hnodup hout sense objective).mp hpoint).1
  rw [← assemble_pointOf hnodup hout htarget hf hzero s]
  exact abs_assemble_sub_le hnodup hout hx' hpoint' (by positivity) hnear s

end Harmonic

/-! ### Chains -/

section Chains

variable (h : m.Stochastic) (hm : m.isChain = true)

/-- **Where nothing can be chosen, the largest chance is the chance.** -/
theorem highest_of_isChain (s : m.State) :
    h.process.highest target s = (h.chain hm).value target s := by
  have hlub := h.process.isLUB_highest target s
  simp only [h.process_of_isChain hm, Chain.best_process] at hlub ⊢
  exact hlub.unique (Chain.isLUB_value (h.chain hm) target s)

/-- **Where nothing can be chosen, the smallest chance is the chance.** -/
theorem lowest_of_isChain (s : m.State) :
    h.process.lowest target s = (h.chain hm).value target s := by
  have hlub := h.process.isLUB_lowest target s
  simp only [h.process_of_isChain hm, Chain.worst_process] at hlub ⊢
  exact hlub.unique (Chain.isLUB_value (h.chain hm) target s)

/-- The chance equals its average under the only action. -/
theorem sum_prob_value {s : m.State} (hs : s ≠ target) {a : m.Action}
    (ha : a ∈ m.enabled.get s) :
    ∑ t, m.prob s a t * (h.chain hm).value target t = (h.chain hm).value target s := by
  obtain rfl : a = m.unnamed := List.mem_singleton.mp (Model.enabled_of_isChain hm s ▸ ha)
  exact (Chain.value_eq_mean (c := h.chain hm) hs).symm

theorem length_filter_states_le (p : m.State → Bool) :
    ((m.states.filter p).length : ℚ) ≤ m.size := by
  have hle := List.length_filter_le p m.states
  rw [Model.states, List.length_finRange] at hle
  exact_mod_cast hle

include hm

/-- **The largest value of a chain, where the point returned is feasible**, is off by the
tolerance times the number of states at most. -/
theorem abs_maximal_sub_le {x : Vector ℚ (others m target).length}
    (hsolve : (maximal m target).solve = .ok x) (hx : (maximal m target).Feasible x)
    (s : m.State) :
    |(assemble m target (others m target) x).get s - h.process.highest target s|
      ≤ 1e-9 * m.size := by
  have hmean : ∀ k, ∀ a ∈ m.enabled.get ((others m target).get k),
      ∑ t, m.prob ((others m target).get k) a t * h.process.highest target t
        = h.process.highest target ((others m target).get k) := by
    intro k a ha
    simp only [highest_of_isChain h hm]
    exact sum_prob_value h hm (mem_others.mp (List.get_mem _ k)) ha
  refine (abs_assemble_sub_le_of_solve nodup_others target_notMem_others
    (h.process.highest_goal target)
    (fun _ => ⟨Process.highest_nonneg _, Process.highest_le_one _⟩)
    (fun _ hs hmem => absurd (mem_others.mpr hs) hmem) hmean (fun j => ?_) hsolve hx
    (feasible_highest h) (maximal_cost_le h hx) s).trans ?_
  · rw [get_replicate, abs_one]
  · exact mul_le_mul_of_nonneg_left (length_filter_states_le _) (by norm_num)

/-- **The smallest value of a chain, where the point returned is feasible**, is off by the
tolerance times the number of states at most. -/
theorem abs_minimal_sub_le {x : Vector ℚ (forcedOthers m target).length}
    (hsolve : (minimal m target).solve = .ok x) (hx : (minimal m target).Feasible x)
    (s : m.State) :
    |(assemble m target (forcedOthers m target) x).get s - h.process.lowest target s|
      ≤ 1e-9 * m.size := by
  have hmean : ∀ k, ∀ a ∈ m.enabled.get ((forcedOthers m target).get k),
      ∑ t, m.prob ((forcedOthers m target).get k) a t * h.process.lowest target t
        = h.process.lowest target ((forcedOthers m target).get k) := by
    intro k a ha
    simp only [lowest_of_isChain h hm]
    exact sum_prob_value h hm (mem_forcedOthers.mp (List.get_mem _ k)).1 ha
  refine (abs_assemble_sub_le_of_solve nodup_forcedOthers target_notMem_forcedOthers
    (h.process.lowest_goal target)
    (fun _ => ⟨Process.lowest_nonneg _, Process.lowest_le_one _⟩)
    (fun _ hs hmem => Process.lowest_eq_zero_iff.mpr (worst_eq_zero_of_notMem h hs hmem)) hmean
    (fun j => ?_) hsolve hx (feasible_lowest h) (minimal_cost_le h hx) s).trans ?_
  · rw [get_replicate, abs_neg, abs_one]
  · exact mul_le_mul_of_nonneg_left (length_filter_states_le _) (by norm_num)

end Chains

end Bounds

namespace Model

variable {m : Model ℚ} {label : String}

/-! ### The queries -/

/-- An answer about the largest chance is put together from a point that was returned. -/
theorem exists_of_maxReachability {hi : Vector ℚ m.size}
    (hhi : m.maxReachability label = .ok hi) :
    ∃ target x, m.findState label = .ok target ∧ (Bounds.maximal m target).solve = .ok x ∧
      hi = Bounds.assemble m target (Bounds.others m target) x := by
  rw [maxReachability] at hhi
  rcases hfind : m.findState label with e | target
  · rw [hfind] at hhi
    cases hhi
  rcases hsolve : (Bounds.maximal m target).solve with e | x
  · simp only [hfind, ofModel, bind, Except.bind, hsolve, Bounds.ofProgram] at hhi
    cases hhi
  · simp only [hfind, ofModel, bind, Except.bind, hsolve, Bounds.ofProgram] at hhi
    exact ⟨target, x, rfl, hsolve, (Except.ok.inj hhi).symm⟩

/-- An answer about the smallest chance is put together from a point that was returned. -/
theorem exists_of_minReachability {lo : Vector ℚ m.size}
    (hlo : m.minReachability label = .ok lo) :
    ∃ target y, m.findState label = .ok target ∧ (Bounds.minimal m target).solve = .ok y ∧
      lo = Bounds.assemble m target (Bounds.forcedOthers m target) y := by
  rw [minReachability] at hlo
  rcases hfind : m.findState label with e | target
  · rw [hfind] at hlo
    cases hlo
  rcases hsolve : (Bounds.minimal m target).solve with e | y
  · simp only [hfind, ofModel, bind, Except.bind, hsolve, Bounds.ofProgram] at hlo
    cases hlo
  · simp only [hfind, ofModel, bind, Except.bind, hsolve, Bounds.ofProgram] at hlo
    exact ⟨target, y, rfl, hsolve, (Except.ok.inj hlo).symm⟩

/-- What elimination returns for a chain is its chance, which is the largest and the smallest. -/
theorem get_of_reachability (h : m.Stochastic) {v : Vector ℚ m.size} {target : m.State}
    (hfind : m.findState label = .ok target) (hv : m.reachability label .unbounded = .ok v)
    (s : m.State) :
    v.get s = h.process.highest target s ∧ v.get s = h.process.lowest target s := by
  obtain ⟨hchain, target', hfind', hvalues⟩ := reachability_eq_ok.mp hv
  obtain rfl : target = target' := Except.ok.inj (hfind.symm.trans hfind')
  rw [Reachability.get_of_values (h.entry_chainMatrix hchain) hvalues,
    Bounds.highest_of_isChain h hchain, Bounds.lowest_of_isChain h hchain]
  exact ⟨rfl, rfl⟩

/-- True answers of the two programs are on the right side of each other, and on a chain they are
what elimination answers. -/
theorem answers_agree (h : m.Stochastic) {target : m.State} (hfind : m.findState label = .ok target)
    {x : Vector ℚ (Bounds.others m target).length}
    {y : Vector ℚ (Bounds.forcedOthers m target).length}
    (hx : (Bounds.maximal m target).Optimal x) (hy : (Bounds.minimal m target).Optimal y)
    (s : m.State) :
    (Bounds.assemble m target _ y).get s ≤ (Bounds.assemble m target _ x).get s ∧
      ∀ v, m.reachability label .unbounded = .ok v →
        (Bounds.assemble m target _ x).get s = v.get s ∧
          (Bounds.assemble m target _ y).get s = v.get s := by
  obtain rfl := (Bounds.maximal_optimal_iff h x).mp hx
  obtain rfl := (Bounds.minimal_optimal_iff h y).mp hy
  rw [Bounds.assemble_highest h, Bounds.assemble_lowest h]
  refine ⟨h.process.lowest_le_highest s, fun v hv => ?_⟩
  obtain ⟨hhighest, hlowest⟩ := get_of_reachability h hfind hv s
  exact ⟨hhighest.symm, hlowest.symm⟩

/-- **When the three engines agree.** Answers about the largest and the smallest chance come from
points that the search returned for the two programs.

* A search that tolerates nothing returns points that agree exactly: the smallest value is nowhere
  above the largest, and on a chain both are what elimination answers.
* If the points returned at the working tolerance satisfy the constraints of their programs, the
  smallest value is nowhere above the largest; and on a chain of at most a thousand states both
  are within `10⁻⁶` of what elimination answers.
* On a chain, the two are within `10⁻⁶` of what elimination answers exactly if they are within
  `10⁻⁶` of the true answers of their programs. -/
theorem engines_agree {b : Builder ℚ} (hb : b.Reachable) {initial : Option String}
    (hm : b.build initial = .ok m) {hi lo : Vector ℚ m.size}
    (hhi : m.maxReachability label = .ok hi) (hlo : m.minReachability label = .ok lo) :
    ∃ target x y, m.findState label = .ok target ∧
      (Bounds.maximal m target).solve = .ok x ∧ (Bounds.minimal m target).solve = .ok y ∧
      (∀ most x₀ y₀, (Bounds.maximal m target).solveWithin ⟨0, 0⟩ most = .ok x₀ →
        (Bounds.minimal m target).solveWithin ⟨0, 0⟩ most = .ok y₀ → ∀ s,
          (Bounds.assemble m target _ y₀).get s ≤ (Bounds.assemble m target _ x₀).get s ∧
          ∀ v, m.reachability label .unbounded = .ok v →
            (Bounds.assemble m target _ x₀).get s = v.get s ∧
              (Bounds.assemble m target _ y₀).get s = v.get s) ∧
      ((Bounds.maximal m target).Feasible x → (Bounds.minimal m target).Feasible y → ∀ s,
        lo.get s ≤ hi.get s ∧
        ∀ v, m.reachability label .unbounded = .ok v → m.size ≤ 1000 →
          |hi.get s - v.get s| ≤ 1e-6 ∧ |lo.get s - v.get s| ≤ 1e-6) ∧
      ∀ v, m.reachability label .unbounded = .ok v →
        ∀ x₀ y₀, (Bounds.maximal m target).Optimal x₀ → (Bounds.minimal m target).Optimal y₀ →
          ∀ s, (|hi.get s - v.get s| ≤ 1e-6 ∧ |lo.get s - v.get s| ≤ 1e-6) ↔
            |hi.get s - (Bounds.assemble m target _ x₀).get s| ≤ 1e-6 ∧
              |lo.get s - (Bounds.assemble m target _ y₀).get s| ≤ 1e-6 := by
  have h := hb.stochastic hm
  obtain ⟨target, x, hfind, hx, rfl⟩ := exists_of_maxReachability hhi
  obtain ⟨target', y, hfind', hy, rfl⟩ := exists_of_minReachability hlo
  obtain rfl : target = target' := Except.ok.inj (hfind.symm.trans hfind')
  refine ⟨target, x, y, hfind, hx, hy, fun most x₀ y₀ hx₀ hy₀ => ?_,
    fun hfx hfy s => ⟨?_, fun v hv hsize => ?_⟩, fun v hv x₀ y₀ hx₀ hy₀ s => ?_⟩
  · exact answers_agree h hfind (LinearProgram.optimal_of_solveWithin hx₀)
      (LinearProgram.optimal_of_solveWithin hy₀)
  · -- the two points are on either side of the smallest and the largest chance
    exact ((Bounds.le_lowest_of_feasible h hfy s).trans (h.process.lowest_le_highest s)).trans
      (Bounds.highest_le_of_feasible h hfx s)
  · have hchain := (reachability_eq_ok.mp hv).1
    obtain ⟨hhighest, hlowest⟩ := get_of_reachability h hfind hv s
    have hbound : (1e-9 : ℚ) * m.size ≤ 1e-6 := by
      have hcast : (m.size : ℚ) ≤ 1000 := by exact_mod_cast hsize
      linarith
    constructor
    · rw [hhighest]
      exact (Bounds.abs_maximal_sub_le h hchain hx hfx s).trans hbound
    · rw [hlowest]
      exact (Bounds.abs_minimal_sub_le h hchain hy hfy s).trans hbound
  · obtain ⟨heqx, heqy⟩ := (answers_agree h hfind hx₀ hy₀ s).2 v hv
    rw [heqx, heqy]

/-- On the wandering chain both points are feasible, and the engines agree. -/
theorem engines_agree_wandering : ∃ b : Builder ℚ, ∃ m : Model ℚ, ∃ hi lo v : Vector ℚ m.size,
    Builder.ofDeclarations wandering = .ok b ∧ b.build none = .ok m ∧
      m.maxReachability "goal" = .ok hi ∧ m.minReachability "goal" = .ok lo ∧
      m.reachability "goal" .unbounded = .ok v ∧
      ∀ s, lo.get s ≤ hi.get s ∧ |hi.get s - v.get s| ≤ 1e-6 ∧ |lo.get s - v.get s| ≤ 1e-6 := by
  obtain ⟨b, m, hb, hm, htest⟩ := Builder.exists_of_any wandering
    (fun m => (m.maxReachability "goal").toOption.isSome &&
      (m.minReachability "goal").toOption.isSome &&
      (m.reachability "goal" .unbounded).toOption.isSome && decide (m.size ≤ 1000) &&
      (m.findState "goal").toOption.all fun target =>
        (Bounds.maximal m target).solve.toOption.all
            (fun x => decide ((Bounds.maximal m target).Feasible x)) &&
          (Bounds.minimal m target).solve.toOption.all
            fun y => decide ((Bounds.minimal m target).Feasible y))
    (by decide +kernel)
  simp only [Bool.and_eq_true, Option.isSome_iff_exists, decide_eq_true_eq] at htest
  obtain ⟨⟨⟨⟨⟨hi, hmax⟩, lo, hmin⟩, v, hreach⟩, hsize⟩, hpoints⟩ := htest
  have hhi := eq_ok_of_toOption hmax
  have hlo := eq_ok_of_toOption hmin
  have hv := eq_ok_of_toOption hreach
  obtain ⟨target, x, y, hfind, hx, hy, -, hagree, -⟩ :=
    engines_agree (Builder.reachable_of_ofDeclarations hb) hm hhi hlo
  simp only [hfind, hx, hy, Except.toOption, Option.all_some, Bool.and_eq_true,
    decide_eq_true_eq] at hpoints
  refine ⟨b, m, hi, lo, v, hb, hm, hhi, hlo, hv, fun s => ?_⟩
  obtain ⟨hle, hnear⟩ := hagree hpoints.1 hpoints.2 s
  exact ⟨hle, hnear v hv hsize⟩

/-- A state that is left with probability `2⁻³⁴`, for a goal that is kept. -/
def lingering : List Declaration :=
  [.state "start" none, .state "goal" none,
    .transition "start" none [⟨17179869183, "start"⟩, ⟨1, "goal"⟩]]

/-- **The engines can disagree.** The goal of the lingering chain is reached with certainty, as
elimination and the program of the smallest value find; but the program of the largest value is
given an answer of zero, its one pivot being smaller than the tolerance. -/
theorem engines_disagree : ∃ b : Builder ℚ, ∃ m : Model ℚ, ∃ hi lo v : Vector ℚ m.size,
    Builder.ofDeclarations lingering = .ok b ∧ b.build none = .ok m ∧ m.isChain = true ∧
      m.maxReachability "goal" = .ok hi ∧ m.minReachability "goal" = .ok lo ∧
      m.reachability "goal" .unbounded = .ok v ∧
      hi.toList = [0, 1] ∧ lo.toList = [1, 1] ∧ v.toList = [1, 1] ∧
      ∃ s, ¬lo.get s ≤ hi.get s + 1e-6 ∧ ¬|hi.get s - v.get s| ≤ 1e-6 := by
  obtain ⟨b, m, hb, hm, htest⟩ := Builder.exists_of_any lingering
    (fun m => m.isChain &&
      (m.maxReachability "goal").toOption.any fun hi : Vector ℚ m.size =>
        (m.minReachability "goal").toOption.any fun lo : Vector ℚ m.size =>
          (m.reachability "goal" .unbounded).toOption.any fun v : Vector ℚ m.size =>
            decide (hi.toList = [0, 1] ∧ lo.toList = [1, 1] ∧ v.toList = [1, 1] ∧
              ∃ s, ¬lo.get s ≤ hi.get s + 1e-6 ∧ ¬|hi.get s - v.get s| ≤ 1e-6))
    (by decide +kernel)
  simp only [Bool.and_eq_true, Option.any_eq_true, decide_eq_true_eq] at htest
  obtain ⟨hchain, hi, hhi, lo, hlo, v, hv, hvalues⟩ := htest
  exact ⟨b, m, hi, lo, v, hb, hm, hchain, eq_ok_of_toOption hhi, eq_ok_of_toOption hlo,
    eq_ok_of_toOption hv, hvalues⟩

end Model

end MarkovDecision
