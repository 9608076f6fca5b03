import MarkovDecision.Proofs.Simulation.Policies
import MarkovDecision.Proofs.Synthesis.ValueIteration
import MarkovDecision.Synthesis.QLearning

/-!
# What a table has learnt

Learning feeds on itself: what a step suggests for an entry depends on other entries of
the same table, and perhaps on that entry itself. Still every entry is a plain mean
(`Table.get_q_after`): of what was suggested to it, at the time, by the lessons that were
about it. The zero that it began with leaves no trace, because the first lesson divides
by one. This is what the table of every run looks like, whatever the source yields
(`Model.learnPolicy_table`).

A run is described apart from the program. A `Lesson` is a state that has been drawn and
a step made from it; a source yields one after the other, without end, and they do not
depend on the table (`exists_lessons`). The table after a number of lessons is then a
matter of the lessons alone (`Table.after`), and that is where the program ends up
(`Table.learn_after`).

The bounds come out of the mean. If all entries have been within `r / (1 - γ)`, then so has
everything suggested by them, because `r + γ * (r / (1 - γ)) = r / (1 - γ)`; and a mean is
within the bounds of what it is the mean of. So the induction is one over all the tables
before (`Table.get_q_after_mem`).
-/

namespace MarkovDecision

open Finset

variable {K G : Type} [Scalar K] [RandomSource G]

/-! ### Lessons -/

/-- What one update of a table is about: a state, the action taken there, and the state that it
led to. -/
structure Lesson (m : Model K) where
  /-- The state. -/
  state : m.State
  /-- The action. -/
  action : m.Action
  /-- The next state. -/
  next : m.State

/-- **A source yields a lesson**: it draws a state evenly, and then a step from it under the even
policy. -/
def Yields (m : Model K) (g : G) (l : Lesson m) (g' : G) : Prop :=
  ∃ mid, (drawBelow m.size : StateM G ℕ) g = (l.state.val, mid) ∧
    step m (Policy.uniform (M := StateM G) m) [l.state.val] mid = (.ok ⟨l.action, l.next⟩, g')

/-- A lesson in which an enabled action leads to one of its targets. -/
structure Lesson.Legal {m : Model K} (l : Lesson m) : Prop where
  /-- The action is enabled. -/
  enabled : l.action ∈ m.enabled.get l.state
  /-- It leads to the next state. -/
  prob_pos : 0 < m.prob l.state l.action l.next

section Sources

variable {m : Model K} {g g' : G} {l : Lesson m} {lesson : ℕ → Lesson m} {source : ℕ → G}

/-- What a source yields is legal. -/
theorem Yields.legal [LawfulDraws G] (h : Yields m g l g') (hm : m.Supported) : l.Legal := by
  obtain ⟨mid, -, hstep⟩ := h
  obtain ⟨a, mid', hchoice⟩ := exists_chooses_uniform (hm.enabled_ne_nil l.state) [] mid
  rcases hunit : (drawUnit : StateM G K) mid' with ⟨u, g₂⟩
  rw [step_of_chooses hchoice hunit] at hstep
  obtain ⟨rfl, hnext⟩ := Step.mk.inj (Except.ok.inj (congrArg Prod.fst hstep))
  exact ⟨hchoice.mem_enabled, hnext ▸ hm.prob_sampleTarget_pos hchoice.mem_enabled u⟩

/-- Every source of lawful draws yields a lesson. -/
theorem exists_yields [LawfulDraws G] (hm : ∀ s, m.enabled.get s ≠ []) (g : G) :
    ∃ l g', Yields m g l g' := by
  have hlt := drawBelow_lt m.initial.pos g
  rcases hdraw : (drawBelow m.size : StateM G ℕ) g with ⟨index, mid⟩
  rw [hdraw] at hlt
  obtain ⟨⟨a, t⟩, g', hstep⟩ := exists_step_uniform hm ⟨index, hlt⟩ [] mid
  exact ⟨⟨⟨index, hlt⟩, a, t⟩, g', mid, hdraw, hstep⟩

/-- **A source yields lessons without end.** -/
theorem exists_lessons [LawfulDraws G] (hm : ∀ s, m.enabled.get s ≠ []) (g : G) :
    ∃ (lesson : ℕ → Lesson m) (source : ℕ → G), source 0 = g ∧
      ∀ i, Yields m (source i) (lesson i) (source (i + 1)) := by
  choose next rest hnext using exists_yields (G := G) hm
  refine ⟨fun i => next (rest^[i] g), fun i => rest^[i] g, rfl, fun i => ?_⟩
  simp only [Function.iterate_succ_apply']
  exact hnext (rest^[i] g)

namespace Table

/-- **The table after a number of lessons.** -/
def after (γ : K) (lesson : ℕ → Lesson m) : ℕ → Table m
  | 0 => .zero m
  | i + 1 => (after γ lesson i).update γ (lesson i).state ⟨(lesson i).action, (lesson i).next⟩

/-- Learning makes use of the lesson that its source yields. -/
theorem learn_of_yields (h : Yields m g l g') (γ : K) (k : ℕ) (t : Table m) :
    learn γ (k + 1) t g = learn γ k (t.update γ l.state ⟨l.action, l.next⟩) g' := by
  obtain ⟨mid, hdraw, hstep⟩ := h
  rw [learn, run_bind_of_ok (run_lift hdraw),
    run_bind_of_ok (run_checked (m.checkState_val l.state)), run_bind_of_ok hstep]

/-- **Learning ends with the table after its lessons.** -/
theorem learn_after (h : ∀ i, Yields m (source i) (lesson i) (source (i + 1))) (γ : K) (k i : ℕ) :
    learn γ k (after γ lesson i) (source i) = (.ok (after γ lesson (i + k)), source (i + k)) := by
  induction k generalizing i with
  | zero => rfl
  | succ k ih =>
    have hshift : i + (k + 1) = i + 1 + k := by omega
    rw [learn_of_yields (h i), hshift]
    exact ih (i + 1)

end Table

/-- **Learning answers** with the table after its lessons and the policy that is greedy for it. -/
theorem Model.learnPolicy_eq (h : ∀ i, Yields m (source i) (lesson i) (source (i + 1)))
    {plan : LearningPlan K} (hplan : plan.check = .ok ()) {table : Table m}
    (htable : table = .after plan.gamma lesson plan.updates) :
    m.learnPolicy plan (source 0)
      = (.ok ⟨table, Vector.ofFn fun s => m.greedy s (table.q.get s).get⟩,
        source plan.updates) := by
  have hlearn := Table.learn_after h plan.gamma plan.updates 0
  rw [Nat.zero_add, ← htable] at hlearn
  have hadapt : ExceptT.adapt QueryError.model
      (Table.learn plan.gamma plan.updates (.zero m)) (source 0)
        = (.ok table, source plan.updates) := by
    rw [run_adapt, ← Table.after, hlearn]
    rfl
  rw [learnPolicy, run_bind_of_ok (run_checked hplan), run_bind_of_ok hadapt]
  rfl

end Sources

/-! ### The mean of the suggestions -/

/-- The first lessons, as far as they are about a state and an action. -/
def lessonsOn {m : Model ℚ} (lesson : ℕ → Lesson m) (i : ℕ) (s : m.State) (a : m.Action) :
    Finset ℕ :=
  {j ∈ range i | (lesson j).state = s ∧ (lesson j).action = a}

section Lessons

variable {m : Model ℚ} {lesson : ℕ → Lesson m} {i : ℕ} {s : m.State} {a : m.Action}

@[simp] theorem lessonsOn_zero : lessonsOn lesson 0 s a = ∅ := rfl

theorem lessonsOn_succ_of_pos (h : (lesson i).state = s ∧ (lesson i).action = a) :
    lessonsOn lesson (i + 1) s a = insert i (lessonsOn lesson i s a) := by
  rw [lessonsOn, range_add_one, filter_insert, if_pos h, lessonsOn]

theorem lessonsOn_succ_of_neg (h : ¬((lesson i).state = s ∧ (lesson i).action = a)) :
    lessonsOn lesson (i + 1) s a = lessonsOn lesson i s a := by
  rw [lessonsOn, range_add_one, filter_insert, if_neg h, lessonsOn]

theorem notMem_lessonsOn : i ∉ lessonsOn lesson i s a := by
  simp [lessonsOn]

/-- Every lesson is about one state and one action. -/
theorem sum_card_lessonsOn (lesson : ℕ → Lesson m) (i : ℕ) :
    ∑ s, ∑ a, #(lessonsOn lesson i s a) = i := by
  have hfibers := card_eq_sum_card_fiberwise (s := range i)
    (t := (univ : Finset (m.State × m.Action)))
    (f := fun j => ((lesson j).state, (lesson j).action)) fun _ _ => mem_univ _
  rw [card_range, Fintype.sum_prod_type] at hfibers
  simpa only [lessonsOn, Prod.mk.injEq] using hfibers.symm

/-- Legal lessons are about enabled actions only. -/
theorem lessonsOn_eq_empty (hlegal : ∀ j, (lesson j).Legal) (ha : a ∉ m.enabled.get s) :
    lessonsOn lesson i s a = ∅ := by
  refine filter_eq_empty_iff.mpr ?_
  rintro j - ⟨rfl, rfl⟩
  exact ha (hlegal j).enabled

end Lessons

/-- **A mean moves towards one value more** by the reciprocal of the new count. That a mean of
nothing is zero does not matter, since then it moves all the way. -/
theorem mean_insert {ι : Type} [DecidableEq ι] {A : Finset ι} {i : ι} (hi : i ∉ A) (f : ι → ℚ) :
    (∑ j ∈ A, f j) / #A + (f i - (∑ j ∈ A, f j) / #A) / ((#A + 1 : ℕ) : ℚ)
      = (∑ j ∈ insert i A, f j) / #(insert i A) := by
  rw [sum_insert hi, card_insert_of_notMem hi]
  rcases A.eq_empty_or_nonempty with rfl | hA
  · simp
  · have hcard : (#A : ℚ) ≠ 0 := Nat.cast_ne_zero.mpr (card_ne_zero.mpr hA)
    push_cast
    field_simp
    ring

namespace Table

variable {m : Model ℚ} {γ : ℚ} {lesson : ℕ → Lesson m}

/-- **What a lesson suggests** to one who knows a table: the reward of the state and, discounted,
the largest of the values of the actions that are enabled in the next state. -/
def Suggests (t : Table m) (γ : ℚ) (l : Lesson m) (x : ℚ) : Prop :=
  ∃ best, IsGreatest ((t.q.get l.next).get '' {b | b ∈ m.enabled.get l.next}) best ∧
    x = m.rewards.get l.state + γ * best

/-- The program computes what a lesson suggests. -/
theorem suggests_suggestion {l : Lesson m} (hnext : m.enabled.get l.next ≠ []) (t : Table m)
    (γ : ℚ) : t.Suggests γ l (t.suggestion γ l.state l.next) := by
  have hset : (t.q.get l.next).get '' {b | b ∈ m.enabled.get l.next}
      = {x | x ∈ (m.enabled.get l.next).map (t.q.get l.next).get} := by
    ext x
    simp
  refine ⟨_, ?_, rfl⟩
  rw [hset]
  exact isGreatest_maximum (List.map_eq_nil_iff.not.mpr hnext)

/-- What has been suggested by a lesson, when it was made use of. -/
def suggested (γ : ℚ) (lesson : ℕ → Lesson m) (j : ℕ) : ℚ :=
  (after γ lesson j).suggestion γ (lesson j).state (lesson j).next

/-- The count of an entry, after the update by a lesson. -/
theorem get_visits_update (t : Table m) (l : Lesson m) (s : m.State) (a : m.Action) :
    ((t.update γ l.state ⟨l.action, l.next⟩).visits.get s).get a
      = (t.visits.get s).get a + if l.state = s ∧ l.action = a then 1 else 0 := by
  rw [update, get_replaceAt]
  split_ifs with hs ha ha
  · obtain ⟨rfl, rfl⟩ := ha
    rw [get_replaceAt, if_pos rfl]
  · obtain rfl := hs
    rw [get_replaceAt, if_neg fun h => ha ⟨rfl, h⟩]
    rfl
  · exact absurd ha.1 hs
  · rfl

/-- **The counts count the lessons.** -/
theorem get_visits_after (i : ℕ) (s : m.State) (a : m.Action) :
    ((after γ lesson i).visits.get s).get a = #(lessonsOn lesson i s a) := by
  induction i with
  | zero => simp [after, zero]
  | succ i ih =>
    rw [after, get_visits_update, ih]
    split_ifs with h
    · rw [lessonsOn_succ_of_pos h, card_insert_of_notMem notMem_lessonsOn]
    · rw [lessonsOn_succ_of_neg h, add_zero]

/-- The entry that a lesson is about. -/
theorem get_q_update_self (t : Table m) (l : Lesson m) :
    ((t.update γ l.state ⟨l.action, l.next⟩).q.get l.state).get l.action
      = (t.q.get l.state).get l.action
        + (t.suggestion γ l.state l.next - (t.q.get l.state).get l.action)
          / (((t.visits.get l.state).get l.action + 1 : ℕ) : ℚ) := by
  rw [update, get_replaceAt, if_pos rfl, get_replaceAt, if_pos rfl]

/-- The entries that it is not about. -/
theorem get_q_update_of_ne (t : Table m) {l : Lesson m} {s : m.State} {a : m.Action}
    (h : ¬(l.state = s ∧ l.action = a)) :
    ((t.update γ l.state ⟨l.action, l.next⟩).q.get s).get a = (t.q.get s).get a := by
  rw [update, get_replaceAt]
  split_ifs with hs
  · obtain rfl := hs
    rw [get_replaceAt, if_neg fun ha => h ⟨rfl, ha⟩]
  · rfl

/-- **Every entry is the mean of what has been suggested to it**, and zero if there is nothing of
the kind. -/
theorem get_q_after (i : ℕ) (s : m.State) (a : m.Action) :
    ((after γ lesson i).q.get s).get a
      = (∑ j ∈ lessonsOn lesson i s a, suggested γ lesson j) / #(lessonsOn lesson i s a) := by
  induction i with
  | zero => simp [after, zero]
  | succ i ih =>
    rw [after]
    by_cases h : (lesson i).state = s ∧ (lesson i).action = a
    · obtain ⟨rfl, rfl⟩ := h
      rw [get_q_update_self, get_visits_after, ih, lessonsOn_succ_of_pos ⟨rfl, rfl⟩]
      exact mean_insert notMem_lessonsOn (suggested γ lesson)
    · rw [get_q_update_of_ne _ h, ih, lessonsOn_succ_of_neg h]

/-! ### Bounds -/

/-- A suggestion is within bounds that the discounted bounds and a reward stay within. -/
theorem Suggests.mem_Icc {t : Table m} {l : Lesson m} {x lo hi : ℚ} (h : t.Suggests γ l x)
    (hγ : 0 ≤ γ) (hlo : ∀ s, lo ≤ m.rewards.get s + γ * lo)
    (hhi : ∀ s, m.rewards.get s + γ * hi ≤ hi)
    (ht : ∀ s a, (t.q.get s).get a ∈ Set.Icc lo hi) : x ∈ Set.Icc lo hi := by
  obtain ⟨_, ⟨⟨b, -, rfl⟩, -⟩, rfl⟩ := h
  obtain ⟨hb, hb'⟩ := ht l.next b
  have hmul := mul_le_mul_of_nonneg_left hb hγ
  have hmul' := mul_le_mul_of_nonneg_left hb' hγ
  have hl := hlo l.state
  have hl' := hhi l.state
  constructor <;> linarith

/-- **Every entry of every table is within such bounds**, if zero is. -/
theorem get_q_after_mem {lo hi : ℚ} (hm : ∀ s, m.enabled.get s ≠ []) (hγ : 0 ≤ γ)
    (hzero : 0 ∈ Set.Icc lo hi) (hlo : ∀ s, lo ≤ m.rewards.get s + γ * lo)
    (hhi : ∀ s, m.rewards.get s + γ * hi ≤ hi) (i : ℕ) (s : m.State) (a : m.Action) :
    ((after γ lesson i).q.get s).get a ∈ Set.Icc lo hi := by
  -- the suggestions of all lessons before have come from tables within the bounds
  induction i using Nat.strong_induction_on generalizing s a with
  | h i ih =>
    have hsuggested : ∀ j ∈ lessonsOn lesson i s a, suggested γ lesson j ∈ Set.Icc lo hi := by
      intro j hj
      have hji : j < i := mem_range.mp (mem_filter.mp hj).1
      exact (suggests_suggestion (hm _) _ γ).mem_Icc hγ hlo hhi (ih j hji)
    rw [get_q_after]
    rcases (lessonsOn lesson i s a).eq_empty_or_nonempty with hnone | hsome
    · simpa [hnone] using hzero
    · have hcard : (0 : ℚ) < #(lessonsOn lesson i s a) := Nat.cast_pos.mpr hsome.card_pos
      have hlower := card_nsmul_le_sum _ _ lo fun j hj => (hsuggested j hj).1
      have hupper := sum_le_card_nsmul _ _ hi fun j hj => (hsuggested j hj).2
      rw [nsmul_eq_mul, mul_comm] at hlower hupper
      exact ⟨(le_div_iff₀ hcard).mpr hlower, (div_le_iff₀ hcard).mpr hupper⟩

end Table

namespace Model

/-- There is a state. -/
theorem univ_nonempty_state (m : Model ℚ) : (univ : Finset m.State).Nonempty :=
  ⟨m.initial, mem_univ _⟩

/-- The least reward of a state. -/
def leastReward (m : Model ℚ) : ℚ := univ.inf' m.univ_nonempty_state m.rewards.get

/-- The greatest reward of a state. -/
def greatestReward (m : Model ℚ) : ℚ := univ.sup' m.univ_nonempty_state m.rewards.get

variable {m : Model ℚ}

/-- The bounds of the entries: what the least and the greatest reward would come to if they were
collected for ever, or zero. -/
theorem get_q_after_bounds (hm : ∀ s, m.enabled.get s ≠ []) {γ : ℚ} (hγ : 0 ≤ γ) (hγ1 : γ < 1)
    (lesson : ℕ → Lesson m) (i : ℕ) (s : m.State) (a : m.Action) :
    ((Table.after γ lesson i).q.get s).get a
      ∈ Set.Icc (min 0 m.leastReward / (1 - γ)) (max 0 m.greatestReward / (1 - γ)) := by
  have hpos : 0 < 1 - γ := sub_pos.mpr hγ1
  refine Table.get_q_after_mem hm hγ ⟨?_, ?_⟩ (fun t => ?_) (fun t => ?_) i s a
  · exact div_nonpos_of_nonpos_of_nonneg (min_le_left _ _) hpos.le
  · exact div_nonneg (le_max_left _ _) hpos.le
  · have hreward : min 0 m.leastReward ≤ m.rewards.get t :=
      (min_le_right _ _).trans (inf'_le _ (mem_univ t))
    have hfixed : min 0 m.leastReward / (1 - γ) * (1 - γ) = min 0 m.leastReward :=
      div_mul_cancel₀ _ hpos.ne'
    linarith
  · have hreward : m.rewards.get t ≤ max 0 m.greatestReward :=
      (le_sup' m.rewards.get (mem_univ t)).trans (le_max_right _ _)
    have hfixed : max 0 m.greatestReward / (1 - γ) * (1 - γ) = max 0 m.greatestReward :=
      div_mul_cancel₀ _ hpos.ne'
    linarith

/-- **The tables of learning.** For a model that has been built, a plan that is accepted and any
source of lawful draws, as every source of words is one, there are a sequence of lessons, yielded
by the source one after the other and all of them legal, and a sequence of tables such that
learning with a number of updates ends with the table of that number. In it

* the counts add up to the number of updates, and each of them is the number of lessons about its
  state and action;
* the value and the count of an action that is not enabled are zero;
* a value that has been updated is the mean of what its lessons suggested, each to the table that
  there was at its time;
* every value is between the least and the greatest reward, or zero, collected for ever, if the
  discount is below one. -/
theorem learnPolicy_table [LawfulDraws G] {b : Builder ℚ} (hb : b.Reachable)
    {initial : Option String} {m : Model ℚ} (hm : b.build initial = .ok m) {plan : LearningPlan ℚ}
    (hplan : plan.check = .ok ()) (g : G) :
    ∃ (lesson : ℕ → Lesson m) (source : ℕ → G) (table : ℕ → Table m) (target : ℕ → ℚ),
      (source 0 = g ∧ ∀ j, Yields m (source j) (lesson j) (source (j + 1)) ∧ (lesson j).Legal ∧
        (table j).Suggests plan.gamma (lesson j) (target j)) ∧
      (∀ i, ∃ policy, m.learnPolicy { plan with updates := i } g
        = (.ok ⟨table i, policy⟩, source i)) ∧
      (∀ i, ∑ s, ∑ a, ((table i).visits.get s).get a = i) ∧
      ∀ i s a,
        ((table i).visits.get s).get a = #(lessonsOn lesson i s a) ∧
        (a ∉ m.enabled.get s →
          ((table i).visits.get s).get a = 0 ∧ ((table i).q.get s).get a = 0) ∧
        (0 < ((table i).visits.get s).get a → ((table i).q.get s).get a
          = (∑ j ∈ lessonsOn lesson i s a, target j) / ((table i).visits.get s).get a) ∧
        (plan.gamma < 1 →
          min 0 m.leastReward / (1 - plan.gamma) ≤ ((table i).q.get s).get a ∧
          ((table i).q.get s).get a ≤ max 0 m.greatestReward / (1 - plan.gamma)) := by
  have hne := (hb.stochastic hm).enabled_ne_nil
  obtain ⟨h0, -⟩ := Parameter.discount_eq_ok_iff.mp hplan
  obtain ⟨lesson, source, rfl, hlesson⟩ := exists_lessons hne g
  have hlegal := fun j =>
    (hlesson j).legal (Builder.supported_of_build Scalar.keepsSigns_rational hm)
  have hupdates : ∀ i, LearningPlan.check { plan with updates := i } = .ok () := fun _ => hplan
  refine ⟨lesson, source, Table.after plan.gamma lesson, Table.suggested plan.gamma lesson,
    ⟨rfl, fun j => ⟨hlesson j, hlegal j, Table.suggests_suggestion (hne _) _ _⟩⟩,
    fun i => ⟨_, learnPolicy_eq hlesson (hupdates i) rfl⟩, fun i => ?_, fun i s a =>
    ⟨Table.get_visits_after i s a, fun ha => ?_, fun _ => ?_, fun h1 => ?_⟩⟩
  · simp only [Table.get_visits_after, sum_card_lessonsOn]
  · rw [Table.get_visits_after, Table.get_q_after, lessonsOn_eq_empty hlegal ha]
    simp
  · rw [Table.get_visits_after, Table.get_q_after]
  · exact get_q_after_bounds hne h0 h1 lesson i s a

/-- A chain that pays in one of its two states, and costs in the other. -/
def swinging : List Declaration :=
  [.state "up" (some 4), .state "down" (some (-1)), .transition "up" none [⟨1, "down"⟩],
    .transition "down" none [⟨1, "up"⟩, ⟨1, "down"⟩]]

/-- With half of every next value, the values of the swinging chain are between minus two and
eight, and three updates are counted as three. -/
theorem learnPolicy_table_swinging : ∃ b : Builder ℚ, ∃ m : Model ℚ, ∃ o g',
    Builder.ofDeclarations swinging = .ok b ∧ b.build none = .ok m ∧
      m.learnPolicy ⟨1 / 2, 3⟩ (Mixer.mk 0) = (.ok o, g') ∧
      ∑ s, ∑ a, (o.table.visits.get s).get a = 3 ∧
      ∀ s a, -2 ≤ (o.table.q.get s).get a ∧ (o.table.q.get s).get a ≤ 8 := by
  obtain ⟨b, m, hb, hm, htest⟩ := Builder.exists_of_any swinging
    (fun m => m.leastReward == -1 && m.greatestReward == 4) (by decide +kernel)
  obtain ⟨hleast, hgreatest⟩ := Bool.and_eq_true_iff.mp htest
  have hplan : (⟨1 / 2, 3⟩ : LearningPlan ℚ).check = .ok () :=
    Parameter.discount_eq_ok_iff.mpr ⟨by norm_num, by norm_num⟩
  obtain ⟨_, source, table, _, -, hanswer, hsum, hentry⟩ :=
    learnPolicy_table (Builder.reachable_of_ofDeclarations hb) hm hplan (Mixer.mk 0)
  obtain ⟨policy, hanswer⟩ := hanswer 3
  refine ⟨b, m, ⟨table 3, policy⟩, source 3, hb, hm, hanswer, hsum 3, fun s a => ?_⟩
  obtain ⟨-, -, -, hbounds⟩ := hentry 3 s a
  have hbounds := hbounds (by norm_num)
  rw [eq_of_beq hleast, eq_of_beq hgreatest] at hbounds
  norm_num at hbounds
  exact hbounds

end Model

end MarkovDecision
