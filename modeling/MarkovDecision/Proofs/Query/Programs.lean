import MarkovDecision.Proofs.LinearProgram.Basic
import MarkovDecision.Proofs.Model.Process
import MarkovDecision.Proofs.Query.Closure
import MarkovDecision.Query.Bounds

/-!
# The two programs answer the question

The largest and the smallest chance of reaching a target are the answers of linear
programs, and each program has one answer only. What has to be seen is that a
feasible point of a program *is* a function on the states – one at the target, zero
at the states without a variable – that lies on the right side of its averages
under every enabled action (`Bounds.feasible_iff`). From there the theory of
processes takes over:

* every function above its averages is above the largest chance
  (`Bounds.highest_le_of_feasible`), which is itself such a function, so the sum is
  smallest there and nowhere else (`Bounds.maximal_optimal_iff`);
* every function below its averages is below the smallest chance, **if it vanishes
  where the target can be avoided** (`Bounds.le_lowest_of_feasible`). That is what the
  forced states are for: the program has variables for them only, and they are
  exactly the states whose smallest chance is positive (`Bounds.forced_iff`).
-/

namespace MarkovDecision

open Finset

namespace Bounds

variable {m : Model ℚ} {target : m.State}

/-! ### Points as functions on the states -/

section Points

variable {states : List m.State} (hnodup : states.Nodup) (hout : target ∉ states)
  {x : Vector ℚ states.length}

theorem get_assemble_target : (assemble m target states x).get target = 1 := by
  rw [assemble, get_ofFn, if_pos rfl]

theorem get_assemble_of_notMem {s : m.State} (hs : s ≠ target) (hmem : s ∉ states) :
    (assemble m target states x).get s = 0 := by
  rw [assemble, get_ofFn, if_neg hs, find?_get_eq_none hmem]

include hnodup hout in
/-- A state with a variable has the value of that variable. -/
theorem get_assemble_get {k : Fin states.length} (h0 : 0 ≤ x.get k) (h1 : x.get k ≤ 1) :
    (assemble m target states x).get (states.get k) = x.get k := by
  have hne : states.get k ≠ target := fun h => hout (h ▸ List.get_mem states k)
  rw [assemble, get_ofFn, if_neg hne, find?_get hnodup]
  exact clampUnit_of_mem h0 h1

include hnodup hout in
/-- **An average over all states is one over the variables**, with the target set apart. -/
theorem sum_assemble (hx : ∀ k, 0 ≤ x.get k ∧ x.get k ≤ 1) (p : m.State → ℚ) :
    ∑ t, p t * (assemble m target states x).get t
      = p target + ∑ c, p (states.get c) * x.get c := by
  have hcons : (target :: states).Nodup := List.nodup_cons.mpr ⟨hout, hnodup⟩
  have hzero : ∀ t, t ∉ target :: states → p t * (assemble m target states x).get t = 0 := by
    intro t ht
    rw [List.mem_cons, not_or] at ht
    rw [get_assemble_of_notMem ht.1 ht.2, mul_zero]
  rw [sum_eq_sum_get hcons hzero]
  refine (Fin.sum_univ_succ (n := states.length) _).trans ?_
  refine congrArg₂ (· + ·) ?_ (sum_congr rfl fun c _ => ?_)
  · exact (congrArg _ get_assemble_target).trans (mul_one _)
  · exact congrArg _ (get_assemble_get hnodup hout (hx c).1 (hx c).2)

/-- The constraint of an action that a state enables. -/
def choiceRow (m : Model ℚ) (target : m.State) (states : List m.State) (sense : Sense)
    (k : Fin states.length) (a : m.Action) : Constraint ℚ states.length where
  coeffs := Vector.ofFn fun c => (if c = k then 1 else 0) - m.prob (states.get k) a (states.get c)
  sense := sense
  rhs := m.prob (states.get k) a target

/-- The constraint that keeps the value of a state below one. -/
def capRow (states : List m.State) (k : Fin states.length) : Constraint ℚ states.length where
  coeffs := Vector.ofFn fun c => if c = k then 1 else 0
  sense := .le
  rhs := 1

/-- **The constraints, state by state.** -/
theorem constraints_eq (states : List m.State) (sense : Sense) :
    constraints m target states sense = (List.finRange states.length).flatMap fun k =>
      (m.enabled.get (states.get k)).map (choiceRow m target states sense k)
        ++ [capRow states k] :=
  rfl

theorem mem_constraints {sense : Sense} {c : Constraint ℚ states.length} :
    c ∈ constraints m target states sense ↔
      ∃ k, (∃ a ∈ m.enabled.get (states.get k), choiceRow m target states sense k a = c) ∨
        c = capRow states k := by
  rw [constraints_eq]
  simp only [List.mem_flatMap, List.mem_finRange, true_and, List.mem_append, List.mem_map,
    List.mem_singleton]

/-- The form of a choice: the value of a state less its average over the variables. -/
theorem form_choiceRow (sense : Sense) (k : Fin states.length) (a : m.Action) :
    (choiceRow m target states sense k a).form x
      = x.get k - ∑ c, m.prob (states.get k) a (states.get c) * x.get c := by
  simp only [Constraint.form, choiceRow, get_ofFn, sub_mul, sum_sub_distrib, ite_mul, one_mul,
    zero_mul, sum_ite_eq', mem_univ, if_true]

theorem form_capRow (k : Fin states.length) : (capRow states k).form x = x.get k := by
  simp only [Constraint.form, capRow, get_ofFn, ite_mul, one_mul, zero_mul, sum_ite_eq', mem_univ,
    if_true]

theorem capRow_holds_iff (k : Fin states.length) : (capRow states k).Holds x ↔ x.get k ≤ 1 := by
  rw [Constraint.Holds, form_capRow]
  rfl

include hnodup hout in
/-- **The constraint of a choice says that the point is on the right side of its average.** -/
theorem choiceRow_holds_iff (sense : Sense) (hx : ∀ k, 0 ≤ x.get k ∧ x.get k ≤ 1)
    (k : Fin states.length) (a : m.Action) :
    (choiceRow m target states sense k a).Holds x ↔ sense.Rel (x.get k)
      (∑ t, m.prob (states.get k) a t * (assemble m target states x).get t) := by
  rw [Constraint.Holds, form_choiceRow, sum_assemble hnodup hout hx]
  exact sense.rel_sub_iff

include hnodup hout in
/-- **A feasible point is a function on the right side of its averages**, with values in the unit
interval. -/
theorem feasible_iff (sense : Sense) (objective : Vector ℚ states.length) :
    (LinearProgram.subjectTo objective (constraints m target states sense)).Feasible x ↔
      (∀ k, 0 ≤ x.get k ∧ x.get k ≤ 1) ∧
      ∀ k, ∀ a ∈ m.enabled.get (states.get k), sense.Rel (x.get k)
        (∑ t, m.prob (states.get k) a t * (assemble m target states x).get t) := by
  constructor
  · intro h
    have hholds := LinearProgram.subjectTo_holds_iff.mp h.holds
    have hx : ∀ k, 0 ≤ x.get k ∧ x.get k ≤ 1 := fun k =>
      ⟨h.nonneg k, (capRow_holds_iff k).mp (hholds _ (mem_constraints.mpr ⟨k, Or.inr rfl⟩))⟩
    refine ⟨hx, fun k a ha => (choiceRow_holds_iff hnodup hout sense hx k a).mp ?_⟩
    exact hholds _ (mem_constraints.mpr ⟨k, Or.inl ⟨a, ha, rfl⟩⟩)
  · rintro ⟨hx, h⟩
    refine ⟨fun k => (hx k).1, LinearProgram.subjectTo_holds_iff.mpr fun c hc => ?_⟩
    obtain ⟨k, ⟨a, ha, rfl⟩ | rfl⟩ := mem_constraints.mp hc
    · exact (choiceRow_holds_iff hnodup hout sense hx k a).mpr (h k a ha)
    · exact (capRow_holds_iff k).mpr (hx k).2

/-- The point of a function on the states. -/
def pointOf (states : List m.State) (f : m.State → ℚ) : Vector ℚ states.length :=
  Vector.ofFn fun k => f (states.get k)

@[simp] theorem get_pointOf (f : m.State → ℚ) (k : Fin states.length) :
    (pointOf states f).get k = f (states.get k) :=
  get_ofFn _ k

include hnodup hout in
/-- A function in the unit interval, one at the target and zero at the states without a variable,
is put together from its point. -/
theorem assemble_pointOf {f : m.State → ℚ} (htarget : f target = 1)
    (hf : ∀ s, 0 ≤ f s ∧ f s ≤ 1) (hzero : ∀ s, s ≠ target → s ∉ states → f s = 0) (s : m.State) :
    (assemble m target states (pointOf states f)).get s = f s := by
  rcases eq_or_ne s target with rfl | hs
  · rw [get_assemble_target, htarget]
  by_cases hmem : s ∈ states
  · obtain ⟨k, rfl⟩ := List.get_of_mem hmem
    have hk := get_pointOf f k
    rw [get_assemble_get hnodup hout (by rw [hk]; exact (hf _).1) (by rw [hk]; exact (hf _).2), hk]
  · rw [get_assemble_of_notMem hs hmem, hzero s hs hmem]

end Points

/-! ### The largest chance -/

theorem nodup_others : (others m target).Nodup :=
  (List.nodup_finRange m.size).filter _

theorem mem_others {s : m.State} : s ∈ others m target ↔ s ≠ target := by
  simp [others, Model.states, List.mem_filter, List.mem_finRange]

theorem target_notMem_others : target ∉ others m target := fun h => mem_others.mp h rfl

/-- A function put together from a point is nowhere negative. -/
theorem assemble_nonneg {states : List m.State} {x : Vector ℚ states.length}
    (hx : ∀ k, 0 ≤ x.get k ∧ x.get k ≤ 1) (s : m.State) :
    0 ≤ (assemble m target states x).get s := by
  rw [assemble, get_ofFn]
  split_ifs
  · exact zero_le_one
  split
  · next c _ =>
    rw [clampUnit_of_mem (hx c).1 (hx c).2]
    exact (hx c).1
  · exact le_rfl

variable (h : m.Stochastic)

/-- **Every feasible point is above the largest chance.** -/
theorem highest_le_of_feasible {x : Vector ℚ (others m target).length}
    (hx : (maximal m target).Feasible x) (s : m.State) :
    h.process.highest target s ≤ (assemble m target (others m target) x).get s := by
  obtain ⟨hunit, habove⟩ := (feasible_iff nodup_others target_notMem_others .ge _).mp hx
  refine Process.highest_le get_assemble_target.ge (assemble_nonneg hunit) (fun t ht d hd => ?_) s
  obtain ⟨a, ha, rfl⟩ := h.mem_options.mp hd
  obtain ⟨k, rfl⟩ := List.get_of_mem (mem_others.mpr ht)
  rw [get_assemble_get nodup_others target_notMem_others (hunit k).1 (hunit k).2]
  exact habove k a ha

/-- The largest chance is put together from its point. -/
theorem assemble_highest (s : m.State) :
    (assemble m target (others m target)
      (pointOf (others m target) (h.process.highest target))).get s
        = h.process.highest target s :=
  assemble_pointOf nodup_others target_notMem_others (h.process.highest_goal target)
    (fun _ => ⟨Process.highest_nonneg _, Process.highest_le_one _⟩)
    (fun _ hs hmem => absurd (mem_others.mpr hs) hmem) s

/-- **The largest chance is feasible.** -/
theorem feasible_highest :
    (maximal m target).Feasible (pointOf (others m target) (h.process.highest target)) := by
  refine (feasible_iff nodup_others target_notMem_others .ge _).mpr ⟨fun k => ?_, fun k a ha => ?_⟩
  · rw [get_pointOf]
    exact ⟨Process.highest_nonneg _, Process.highest_le_one _⟩
  · have hne := mem_others.mp (List.get_mem (others m target) k)
    simp only [assemble_highest h, get_pointOf, Sense.Rel]
    rw [← h.mean_row ha]
    exact Process.mean_highest_le hne (h.row_mem_options ha)

theorem objective_maximal (j : Fin (others m target).length) :
    (maximal m target).objective.get j = 1 :=
  get_replicate _ j

/-- No coordinate of a feasible point costs less than that of the largest chance. -/
theorem maximal_cost_le {z : Vector ℚ (others m target).length}
    (hz : (maximal m target).Feasible z) (j : Fin (others m target).length) :
    (maximal m target).objective.get j
        * (pointOf (others m target) (h.process.highest target)).get j
      ≤ (maximal m target).objective.get j * z.get j := by
  have hle := highest_le_of_feasible h hz ((others m target).get j)
  obtain ⟨hunit, -⟩ := (feasible_iff nodup_others target_notMem_others .ge _).mp hz
  rw [get_assemble_get nodup_others target_notMem_others (hunit j).1 (hunit j).2] at hle
  rwa [objective_maximal, one_mul, one_mul, get_pointOf]

/-- The point of the largest chance is the only answer of its program. -/
theorem maximal_optimal_iff (y : Vector ℚ (others m target).length) :
    (maximal m target).Optimal y ↔ y = pointOf (others m target) (h.process.highest target) := by
  refine LinearProgram.optimal_iff_eq (feasible_highest h) (fun j => ?_)
    (fun z hz => maximal_cost_le h hz) y
  rw [objective_maximal]
  exact one_ne_zero

/-- **The program of the largest value is right.** For every model that can be built and every
target it is feasible and bounded, it has exactly one answer, and put back together that answer
is the limit, over the number of steps, of the largest chance of having come to the target. -/
theorem maximal_answered {b : Builder ℚ} (hb : b.Reachable) {initial : Option String}
    {m : Model ℚ} (hm : b.build initial = .ok m) (target : m.State) :
    (∃ y, (maximal m target).Feasible y) ∧
      (∃ q, ∀ y, (maximal m target).Feasible y → q ≤ (maximal m target).cost y) ∧
      ∃ x, (∀ y, (maximal m target).Optimal y ↔ y = x) ∧
        ∀ s, IsLUB (Set.range fun n => m.bestWithin target n s)
          ((assemble m target (others m target) x).get s) := by
  have h := hb.stochastic hm
  have hopt : (maximal m target).Optimal _ := (maximal_optimal_iff h _).mpr rfl
  refine ⟨⟨_, hopt.feasible⟩, ⟨_, hopt.cost_le⟩, _, maximal_optimal_iff h, fun s => ?_⟩
  simp only [h.bestWithin_eq]
  rw [assemble_highest]
  exact h.process.isLUB_highest target s

/-- A state that may wait for ever or gamble, a goal, and a sink without transitions. -/
def stalling : List Declaration :=
  [.state "start" none, .state "goal" none, .state "sink" none, .actions ["wait", "gamble"],
    .transition "start" (some "wait") [⟨1, "start"⟩],
    .transition "start" (some "gamble") [⟨2, "goal"⟩, ⟨1, "sink"⟩]]

theorem stalling_builds : ∃ b : Builder ℚ, ∃ m : Model ℚ,
    Builder.ofDeclarations stalling = .ok b ∧ b.build none = .ok m ∧ !m.isChain :=
  Builder.exists_of_any stalling (fun m => !m.isChain) (by decide +kernel)

theorem maximal_answered_stalling : ∃ b : Builder ℚ, ∃ m : Model ℚ,
    Builder.ofDeclarations stalling = .ok b ∧ b.build none = .ok m ∧
      ∀ target : m.State, ∃ x, (∀ y, (maximal m target).Optimal y ↔ y = x) ∧
        ∀ s, IsLUB (Set.range fun n => m.bestWithin target n s)
          ((assemble m target (others m target) x).get s) := by
  obtain ⟨b, m, hb, hm, -⟩ := stalling_builds
  refine ⟨b, m, hb, hm, fun target => ?_⟩
  obtain ⟨-, -, x, hx, hlub⟩ :=
    maximal_answered (Builder.reachable_of_ofDeclarations hb) hm target
  exact ⟨x, hx, hlub⟩

/-! ### The forced states -/

theorem target_forced : (forced m target).get target = true :=
  Marks.get_grow (by simp)

/-- **A state is forced exactly if its smallest chance is positive for some number of steps.** -/
theorem forced_iff {s : m.State} :
    (forced m target).get s = true ↔ ∃ n, 0 < h.process.worst target n s := by
  constructor
  · refine Marks.grow_induction (P := fun s => ∃ n, 0 < h.process.worst target n s)
      (fun t ht => ?_) (fun marks hmarks t ht => ?_) s
    · rw [Marks.get_single, decide_eq_true_eq] at ht
      refine ⟨0, ?_⟩
      rw [ht, Process.worst_goal]
      exact one_pos
    · -- one number of steps serves all marked states, and one more serves the new one
      obtain ⟨k, q, hq0, -, hq⟩ := Process.exists_le_worst h.process target
      refine ⟨k + 1, ?_⟩
      rcases eq_or_ne t target with rfl | hne
      · rw [Process.worst_goal]
        exact one_pos
      obtain ⟨d, hd, heq⟩ := h.process.exists_worst_succ target hne k
      obtain ⟨a, ha, rfl⟩ := h.mem_options.mp hd
      obtain ⟨u, -, hu⟩ := List.any_eq_true.mp (List.all_eq_true.mp ht a ha)
      rw [Bool.and_eq_true, decide_eq_true_eq] at hu
      rw [heq]
      exact (h.row t a ha).mean_pos (h.process.worst_nonneg target k) hu.1
        (hq0.trans_le (hq u (hmarks u hu.2).2))
  · rintro ⟨n, hn⟩
    by_contra hs
    suffices hzero : ∀ t, (forced m target).get t ≠ true → h.process.worst target n t = 0 by
      rw [hzero s hs] at hn
      exact lt_irrefl 0 hn
    clear hn hs
    induction n with
    | zero =>
      intro t ht
      exact h.process.worst_zero target fun heq => ht (heq ▸ target_forced)
    | succ n ih =>
      intro t ht
      have hne : t ≠ target := fun heq => ht (heq ▸ target_forced)
      -- some action leads to states that are not forced only
      have hrule := Marks.rule_grow ht
      rw [ne_eq, List.all_eq_true] at hrule
      push Not at hrule
      obtain ⟨a, ha, hall⟩ := hrule
      refine le_antisymm ?_ (h.process.worst_nonneg target _ t)
      refine (h.process.worst_succ_le target hne (h.row_mem_options ha) n).trans ?_
      refine ((h.row t a ha).mean_eq_of_support fun u hu => ih u fun hforced => hall ?_).le
      exact List.any_eq_true.mpr ⟨u, List.mem_finRange u, by
        rw [Bool.and_eq_true, decide_eq_true_eq]
        exact ⟨hu, hforced⟩⟩

theorem not_forced_iff {s : m.State} :
    (forced m target).get s ≠ true ↔ ∀ n, h.process.worst target n s = 0 := by
  rw [ne_eq, forced_iff h]
  push Not
  exact forall_congr' fun n =>
    ⟨fun hle => le_antisymm hle (h.process.worst_nonneg target n s), fun heq => heq.le⟩

include h in
/-- **The forced states are those from which no choice of actions avoids the target**, one action
for every state, with probability one; and the target itself. -/
theorem forced_iff_unavoidable {s : m.State} :
    (forced m target).get s = true ↔ s = target ∨
      ¬∃ choice : m.State → m.Action, (∀ t, choice t ∈ m.enabled.get t) ∧
        ∀ n, m.avoiding choice target n s = 1 := by
  constructor
  · intro hs
    obtain ⟨n, hn⟩ := (forced_iff h).mp hs
    refine Or.inr ?_
    rintro ⟨choice, hchoice, havoid⟩
    have hwithin := havoid n
    rw [h.avoiding_eq hchoice] at hwithin
    have hle : h.process.worst target n s ≤ (h.follow hchoice).within target n s :=
      Process.worst_le_within (h.allows_follow hchoice) n s
    linarith
  · rintro (rfl | hno)
    · exact target_forced
    by_contra hs
    obtain ⟨c, hallow, hstay⟩ := h.process.exists_allows_stays target
    obtain ⟨choice, hchoice, rfl⟩ := h.exists_follow_of_allows hallow
    refine hno ⟨choice, hchoice, fun n => ?_⟩
    rw [h.avoiding_eq hchoice, hstay.trap.within_eq_zero n ((not_forced_iff h).mp hs), sub_zero]

/-! ### The smallest chance -/

theorem nodup_forcedOthers : (forcedOthers m target).Nodup :=
  (List.nodup_finRange m.size).filter _

theorem mem_forcedOthers {s : m.State} :
    s ∈ forcedOthers m target ↔ s ≠ target ∧ (forced m target).get s = true := by
  simp [forcedOthers, Model.states, List.mem_filter, List.mem_finRange]

theorem target_notMem_forcedOthers : target ∉ forcedOthers m target :=
  fun h => (mem_forcedOthers.mp h).1 rfl

/-- A state without a variable has smallest chance zero. -/
theorem worst_eq_zero_of_notMem {s : m.State} (hs : s ≠ target) (hmem : s ∉ forcedOthers m target)
    (n : ℕ) : h.process.worst target n s = 0 :=
  (not_forced_iff h).mp (fun hforced => hmem (mem_forcedOthers.mpr ⟨hs, hforced⟩)) n

/-- **Every feasible point is below the smallest chance.** -/
theorem le_lowest_of_feasible {x : Vector ℚ (forcedOthers m target).length}
    (hx : (minimal m target).Feasible x) (s : m.State) :
    (assemble m target (forcedOthers m target) x).get s ≤ h.process.lowest target s := by
  obtain ⟨hunit, hbelow⟩ :=
    (feasible_iff nodup_forcedOthers target_notMem_forcedOthers .le _).mp hx
  refine Process.le_lowest get_assemble_target.le (fun t ht d hd => ?_) (fun t ht => ?_) s
  · by_cases hmem : t ∈ forcedOthers m target
    · obtain ⟨a, ha, rfl⟩ := h.mem_options.mp hd
      obtain ⟨k, rfl⟩ := List.get_of_mem hmem
      rw [get_assemble_get nodup_forcedOthers target_notMem_forcedOthers (hunit k).1 (hunit k).2]
      exact hbelow k a ha
    · rw [get_assemble_of_notMem ht hmem]
      exact d.mean_nonneg (assemble_nonneg hunit)
  · have hforced := (not_forced_iff h).mpr ht
    have hne : t ≠ target := fun heq => hforced (heq ▸ target_forced)
    exact (get_assemble_of_notMem hne fun hmem => hforced (mem_forcedOthers.mp hmem).2).le

/-- The smallest chance is put together from its point. -/
theorem assemble_lowest (s : m.State) :
    (assemble m target (forcedOthers m target)
      (pointOf (forcedOthers m target) (h.process.lowest target))).get s
        = h.process.lowest target s :=
  assemble_pointOf nodup_forcedOthers target_notMem_forcedOthers (h.process.lowest_goal target)
    (fun _ => ⟨Process.lowest_nonneg _, Process.lowest_le_one _⟩)
    (fun _ hs hmem => Process.lowest_eq_zero_iff.mpr (worst_eq_zero_of_notMem h hs hmem)) s

/-- **The smallest chance is feasible.** -/
theorem feasible_lowest :
    (minimal m target).Feasible (pointOf (forcedOthers m target) (h.process.lowest target)) := by
  refine (feasible_iff nodup_forcedOthers target_notMem_forcedOthers .le _).mpr
    ⟨fun k => ?_, fun k a ha => ?_⟩
  · rw [get_pointOf]
    exact ⟨Process.lowest_nonneg _, Process.lowest_le_one _⟩
  · have hne := (mem_forcedOthers.mp (List.get_mem (forcedOthers m target) k)).1
    simp only [assemble_lowest h, get_pointOf, Sense.Rel]
    rw [← h.mean_row ha]
    exact Process.lowest_le_mean hne (h.row_mem_options ha)

theorem objective_minimal (j : Fin (forcedOthers m target).length) :
    (minimal m target).objective.get j = -1 :=
  get_replicate _ j

/-- No coordinate of a feasible point costs less than that of the smallest chance. -/
theorem minimal_cost_le {z : Vector ℚ (forcedOthers m target).length}
    (hz : (minimal m target).Feasible z) (j : Fin (forcedOthers m target).length) :
    (minimal m target).objective.get j
        * (pointOf (forcedOthers m target) (h.process.lowest target)).get j
      ≤ (minimal m target).objective.get j * z.get j := by
  have hle := le_lowest_of_feasible h hz ((forcedOthers m target).get j)
  obtain ⟨hunit, -⟩ := (feasible_iff nodup_forcedOthers target_notMem_forcedOthers .le _).mp hz
  rw [get_assemble_get nodup_forcedOthers target_notMem_forcedOthers (hunit j).1 (hunit j).2]
    at hle
  rwa [objective_minimal, neg_one_mul, neg_one_mul, neg_le_neg_iff, get_pointOf]

/-- The point of the smallest chance is the only answer of its program. -/
theorem minimal_optimal_iff (y : Vector ℚ (forcedOthers m target).length) :
    (minimal m target).Optimal y ↔
      y = pointOf (forcedOthers m target) (h.process.lowest target) := by
  refine LinearProgram.optimal_iff_eq (feasible_lowest h) (fun j => ?_)
    (fun z hz => minimal_cost_le h hz) y
  rw [objective_minimal]
  exact neg_ne_zero.mpr one_ne_zero

/-- **The program of the smallest value is right.** For every model that can be built and every
target, the forced states are those from which the target cannot be avoided; over these the
program is feasible and bounded and has exactly one answer, and put back together that answer is
the limit, over the number of steps, of the smallest chance of having come to the target. It is
zero exactly at the states that are not forced. -/
theorem minimal_answered {b : Builder ℚ} (hb : b.Reachable) {initial : Option String}
    {m : Model ℚ} (hm : b.build initial = .ok m) (target : m.State) :
    (∀ s, (forced m target).get s = true ↔ s = target ∨
      ¬∃ choice : m.State → m.Action, (∀ t, choice t ∈ m.enabled.get t) ∧
        ∀ n, m.avoiding choice target n s = 1) ∧
      (∃ y, (minimal m target).Feasible y) ∧
      (∃ q, ∀ y, (minimal m target).Feasible y → q ≤ (minimal m target).cost y) ∧
      ∃ x, (∀ y, (minimal m target).Optimal y ↔ y = x) ∧
        ∀ s, IsLUB (Set.range fun n => m.worstWithin target n s)
            ((assemble m target (forcedOthers m target) x).get s) ∧
          ((assemble m target (forcedOthers m target) x).get s = 0 ↔
            (forced m target).get s = false) := by
  have h := hb.stochastic hm
  have hopt : (minimal m target).Optimal _ := (minimal_optimal_iff h _).mpr rfl
  refine ⟨fun s => forced_iff_unavoidable h, ⟨_, hopt.feasible⟩, ⟨_, hopt.cost_le⟩, _,
    minimal_optimal_iff h, fun s => ?_⟩
  simp only [h.worstWithin_eq]
  rw [assemble_lowest, Process.lowest_eq_zero_iff, ← not_forced_iff, ne_eq, Bool.not_eq_true]
  exact ⟨h.process.isLUB_lowest target s, Iff.rfl⟩

/-- The programs of a model with a stalling action and a deadlock are answered, for every
target. -/
theorem minimal_answered_stalling : ∃ b : Builder ℚ, ∃ m : Model ℚ,
    Builder.ofDeclarations stalling = .ok b ∧ b.build none = .ok m ∧
      ∀ target : m.State, ∃ x, (∀ y, (minimal m target).Optimal y ↔ y = x) ∧
        ∀ s, IsLUB (Set.range fun n => m.worstWithin target n s)
          ((assemble m target (forcedOthers m target) x).get s) := by
  obtain ⟨b, m, hb, hm, -⟩ := stalling_builds
  refine ⟨b, m, hb, hm, fun target => ?_⟩
  obtain ⟨-, -, -, x, hx, hlub⟩ :=
    minimal_answered (Builder.reachable_of_ofDeclarations hb) hm target
  exact ⟨x, hx, fun s => (hlub s).1⟩

end Bounds

end MarkovDecision
