import MarkovDecision.Proofs.Model.Stochastic

/-!
# What building comes to

`Builder.build` goes over the states once: it divides rows by their sums, looks
for the actions that are left, reports the first state at fault or gives a state
without transitions its loop, and asks for the initial state at the end.
`Builder.Outcome` says what comes of it without going over anything, in terms of
the weights alone: which error there is, if there is one, and otherwise which
model. `Builder.build_eq_iff` says that the two agree, for the builder of any session
and every initial label.

The statement has two halves. What is built has the properties that
`Builder.Describes` lists, because an action is offered exactly if one of its
weights is not zero (`Builder.WellFormed.mem_offered_iff`): weights are not negative
and lie between declared states, so none escapes the sum of its row. In the other
direction these properties leave one model only
(`Builder.WellFormed.describes_unique`), and a fault decides the error.
-/

namespace MarkovDecision

open Finset

namespace Builder

/-! ### The specification -/

/-- The sum of the weights of a row. -/
def total (b : Builder ℚ) (s a : ℕ) : ℚ :=
  ∑ t ∈ range b.states.length, b.weights.weight ⟨s, a, t⟩

/-- A state has weights with and without an action. -/
def Mixed (b : Builder ℚ) (s : ℕ) : Prop :=
  (∃ t, b.weights.weight ⟨s, 0, t⟩ ≠ 0) ∧ ∃ a t, a ≠ 0 ∧ b.weights.weight ⟨s, a, t⟩ ≠ 0

/-- A state has no weight at all. -/
def Stuck (b : Builder ℚ) (s : ℕ) : Prop :=
  ∀ a t, b.weights.weight ⟨s, a, t⟩ = 0

/-- Nothing is wrong with a state. -/
def Sound (b : Builder ℚ) (s : ℕ) : Prop :=
  ¬b.Mixed s ∧ ¬(b.Stuck s ∧ b.deadlock = .reject)

/-- **What is built of a builder with nothing wrong in it.** -/
structure Describes (b : Builder ℚ) (initial : Option String) (m : Model ℚ) : Prop where
  /-- The states are the declared ones. -/
  stateLabels : m.stateLabels.toList = b.states
  /-- They have their rewards. -/
  rewards : m.rewards.toList = b.rewards
  /-- The actions are the declared ones. -/
  actionLabels : m.actionLabels.toList = b.actions
  /-- A run starts in the first state if nothing else is said. -/
  initial_of_none : initial = none → (m.initial : ℕ) = 0
  /-- A run starts in the state with the given label. -/
  initial_of_some : ∀ label, initial = some label → m.stateLabel m.initial = label
  /-- Weights are divided by the sum of their row. -/
  prob_of_pos : ∀ (s : m.State) (a : m.Action) (t : m.State), 0 < b.total s a →
    m.prob s a t = b.weights.weight ⟨s, a, t⟩ / b.total s a
  /-- A state without weights has a loop under no action. -/
  prob_of_stuck : ∀ s : m.State, b.Stuck s → m.prob s m.unnamed s = 1
  /-- All other probabilities are zero. -/
  prob_eq_zero : ∀ (s : m.State) (a : m.Action) (t : m.State), ¬0 < b.total s a →
    ¬(b.Stuck s ∧ a = m.unnamed ∧ t = s) → m.prob s a t = 0
  /-- The enabled actions are listed in order, each once. -/
  enabled_increasing : ∀ s, (m.enabled.get s).Pairwise (· < ·)
  /-- Every state enables some action. -/
  enabled_ne_nil : ∀ s, m.enabled.get s ≠ []
  /-- An action is enabled exactly if its row is not all zero. -/
  mem_enabled : ∀ s a, a ∈ m.enabled.get s ↔ ∃ t, m.prob s a t ≠ 0
  /-- A state enables no action but the one without a name, or declared actions only. -/
  enabled_eq_or : ∀ s, m.enabled.get s = [m.unnamed] ∨ m.unnamed ∉ m.enabled.get s
  /-- Enabled rows add up to one. -/
  sum_prob : ∀ s, ∀ a ∈ m.enabled.get s, ∑ t, m.prob s a t = 1
  /-- The model is a chain exactly if no action has been declared. -/
  isChain_iff : m.isChain = true ↔ b.actions = []
  /-- The states of a chain enable the action without a name. -/
  enabled_of_isChain : m.isChain = true → ∀ s, m.enabled.get s = [m.unnamed]

/-- **What building comes to.** -/
inductive Outcome (b : Builder ℚ) (initial : Option String) :
    Except (ModelError ℚ) (Model ℚ) → Prop
  /-- There is no state. -/
  | empty : b.states = [] → Outcome b initial (.error .emptyModel)
  /-- The first state at fault is mixed. -/
  | mixed (s : Fin b.states.length) : (∀ r < s, b.Sound r) → b.Mixed s →
    Outcome b initial (.error (.actionCoherence (b.states.get s)))
  /-- The first state at fault has no weight, and that is refused. -/
  | stuck (s : Fin b.states.length) : (∀ r < s, b.Sound r) → b.Stuck s → b.deadlock = .reject →
    Outcome b initial (.error (.noEnabledAction (b.states.get s)))
  /-- No state is at fault, but there is no initial state. -/
  | unknown (label : String) : b.states ≠ [] → (∀ s : Fin b.states.length, b.Sound s) →
    initial = some label → label ∉ b.states →
      Outcome b initial (.error (.unknownState label))
  /-- There is a model. -/
  | model (m : Model ℚ) : b.states ≠ [] → (∀ s : Fin b.states.length, b.Sound s) →
    b.Describes initial m → Outcome b initial (.ok m)

/-! ### Rows -/

variable {b : Builder ℚ} {initial : Option String}

theorem WellFormed.covers_of_weight_ne_zero (hb : b.WellFormed) {e : Edge}
    (h : b.weights.weight e ≠ 0) : b.Covers e := by
  rw [Weights.weight] at h
  cases he : b.weights.get? e with
  | none =>
    rw [he] at h
    exact absurd rfl h
  | some w => exact hb.covers _ (Weights.mem_of_get? he)

/-- **A row carries weight if one of its weights is not zero.** -/
theorem WellFormed.total_pos_iff (hb : b.WellFormed) {s a : ℕ} :
    0 < b.total s a ↔ ∃ t, b.weights.weight ⟨s, a, t⟩ ≠ 0 := by
  rw [total, sum_pos_iff_of_nonneg fun t _ => hb.weight_nonneg _]
  constructor
  · rintro ⟨t, -, ht⟩
    exact ⟨t, ht.ne'⟩
  · rintro ⟨t, ht⟩
    exact ⟨t, mem_range.mpr (hb.covers_of_weight_ne_zero ht).2.2,
      lt_of_le_of_ne (hb.weight_nonneg _) ht.symm⟩

theorem total_eq_sum (b : Builder ℚ) (s : Fin b.states.length) (a : Fin (b.actions.length + 1)) :
    b.total s a = ∑ t, (b.rowWeights s a).get t := by
  simp only [total, rowWeights, get_ofFn]
  exact sum_range fun t => b.weights.weight ⟨s, a, t⟩

theorem get_rawRow (b : Builder ℚ) (s : Fin b.states.length) (a : Fin (b.actions.length + 1))
    (t : Fin b.states.length) : (b.rawRow s a).get t
      = if 0 < b.total s a then b.weights.weight ⟨s, a, t⟩ / b.total s a
        else b.weights.weight ⟨s, a, t⟩ := by
  have hweight : (b.rowWeights s a).get t = b.weights.weight ⟨s, a, t⟩ := get_ofFn _ t
  rw [rawRow, normalized, laneSum_toList, ← total_eq_sum]
  split_ifs
  · rw [get_map, hweight]
  · exact hweight

/-- **An action is offered if one of its weights is not zero.** -/
theorem WellFormed.mem_offered_iff (hb : b.WellFormed) {s : Fin b.states.length}
    {a : Fin (b.actions.length + 1)} :
    a ∈ b.offered s ↔ ∃ t, b.weights.weight ⟨s, a, t⟩ ≠ 0 := by
  rw [mem_offered, ← hb.total_pos_iff]
  by_cases htotal : 0 < b.total s a
  · have hone : ∑ t, (b.rawRow s a).get t = 1 := by
      simp only [get_rawRow, htotal, if_true, ← sum_div]
      rw [← sum_range fun t => b.weights.weight ⟨s, a, t⟩]
      exact div_self htotal.ne'
    simp only [hone, zero_lt_one, htotal]
  · have hsame : ∑ t, (b.rawRow s a).get t = b.total s a := by
      simp only [get_rawRow, htotal, if_false]
      exact (sum_range fun t => b.weights.weight ⟨s, a, t⟩).symm
    rw [hsame]

theorem offered_increasing (b : Builder ℚ) (s : Fin b.states.length) :
    (b.offered s).Pairwise (· < ·) :=
  (List.pairwise_lt_finRange _).filter _

/-! ### Faults -/

theorem WellFormed.stuck_iff (hb : b.WellFormed) {s : Fin b.states.length} :
    b.Stuck s ↔ b.offered s = [] := by
  rw [List.eq_nil_iff_forall_not_mem]
  constructor
  · intro h a ha
    obtain ⟨t, ht⟩ := hb.mem_offered_iff.mp ha
    exact ht (h a t)
  · intro h a t
    by_contra hne
    have ha : a ≤ b.actions.length := (hb.covers_of_weight_ne_zero hne).2.1
    exact h ⟨a, Nat.lt_succ_of_le ha⟩ (hb.mem_offered_iff.mpr ⟨t, hne⟩)

theorem WellFormed.mixed_iff (hb : b.WellFormed) {s : Fin b.states.length} :
    b.Mixed s ↔ 0 ∈ b.offered s ∧ ∃ a ∈ b.offered s, a ≠ 0 := by
  have hzero : 0 ∈ b.offered s ↔ ∃ t, b.weights.weight ⟨s, 0, t⟩ ≠ 0 := hb.mem_offered_iff
  refine and_congr hzero.symm ⟨?_, ?_⟩
  · rintro ⟨a, t, ha, ht⟩
    have hle : a ≤ b.actions.length := (hb.covers_of_weight_ne_zero ht).2.1
    exact ⟨⟨a, Nat.lt_succ_of_le hle⟩, hb.mem_offered_iff.mpr ⟨t, ht⟩, Fin.ne_of_val_ne ha⟩
  · rintro ⟨a, ha, hne⟩
    obtain ⟨t, ht⟩ := hb.mem_offered_iff.mp ha
    exact ⟨a, t, Fin.val_ne_of_ne hne, ht⟩

/-- A state that is not mixed offers the action without a name alone, or does not offer it. -/
theorem WellFormed.offered_eq_or (hb : b.WellFormed) {s : Fin b.states.length}
    (h : ¬b.Mixed s) : b.offered s = [0] ∨ 0 ∉ b.offered s := by
  by_cases hzero : 0 ∈ b.offered s
  · refine .inl ((b.offered_increasing s).eq_of_mem_iff (List.pairwise_singleton _ _) fun a => ?_)
    rw [List.mem_singleton]
    constructor
    · intro ha
      by_contra hne
      exact h (hb.mixed_iff.mpr ⟨hzero, a, ha, hne⟩)
    · rintro rfl
      exact hzero
  · exact .inr hzero

theorem WellFormed.faultAt_of_mixed (hb : b.WellFormed) {s : Fin b.states.length}
    (h : b.Mixed s) : b.faultAt s = some (.actionCoherence (b.states.get s)) := by
  obtain ⟨hzero, a, ha, hne⟩ := hb.mixed_iff.mp h
  have hlength : (b.offered s).length ≠ 1 := by
    intro hone
    obtain ⟨c, hc⟩ := List.length_eq_one_iff.mp hone
    rw [hc, List.mem_singleton] at hzero ha
    exact hne (ha.trans hzero.symm)
  rw [faultAt, if_pos]
  simp [hzero, hlength]

theorem WellFormed.faultAt_of_stuck (hb : b.WellFormed) {s : Fin b.states.length}
    (h : b.Stuck s) (hreject : b.deadlock = .reject) :
    b.faultAt s = some (.noEnabledAction (b.states.get s)) := by
  simp [faultAt, hb.stuck_iff.mp h, hreject]

theorem WellFormed.faultAt_of_sound (hb : b.WellFormed) {s : Fin b.states.length}
    (h : b.Sound s) : b.faultAt s = none := by
  have hmixed : ¬((b.offered s).contains 0 && (b.offered s).length != 1) = true := by
    rcases hb.offered_eq_or h.1 with hoffered | hoffered
    · simp [hoffered]
    · simp [hoffered]
  have hstuck : ¬((b.offered s).isEmpty && decide (b.deadlock = .reject)) = true := by
    rw [Bool.and_eq_true, List.isEmpty_iff, decide_eq_true_eq, ← hb.stuck_iff]
    exact h.2
  rw [faultAt, if_neg hmixed, if_neg hstuck]

/-- **The first fault is reported.** -/
theorem build_of_faultAt {s : Fin b.states.length} {fault : ModelError ℚ}
    (hbefore : ∀ r < s, b.faultAt r = none) (hs : b.faultAt s = some fault) :
    b.build initial = .error fault := by
  obtain ⟨before, behind, hsplit⟩ := List.append_of_mem (List.mem_finRange s)
  have hfirst : (List.finRange b.states.length).findSome? b.faultAt = some fault := by
    refine List.findSome?_eq_some_iff.mpr ⟨before, s, behind, hsplit, hs, fun r hr => ?_⟩
    have hincreasing := List.pairwise_lt_finRange b.states.length
    rw [hsplit, List.pairwise_append] at hincreasing
    exact hbefore r (hincreasing.2.2 r hr s List.mem_cons_self)
  rw [build, dif_pos s.pos, hfirst]

/-! ### The model -/

section Assemble

variable (hb : b.WellFormed) {s : Fin b.states.length} {a : Fin (b.actions.length + 1)}

include hb

theorem WellFormed.chance_of_pos (h : 0 < b.total s a) (t : Fin b.states.length) :
    b.chance s a t = b.weights.weight ⟨s, a, t⟩ / b.total s a := by
  have hnonempty : (b.offered s).isEmpty = false :=
    List.isEmpty_eq_false_iff_exists_mem.mpr ⟨a, hb.mem_offered_iff.mpr (hb.total_pos_iff.mp h)⟩
  rw [chance, hnonempty, Bool.false_and, if_neg Bool.false_ne_true, get_rawRow, if_pos h]

theorem WellFormed.chance_of_stuck (h : b.Stuck s) : b.chance s 0 s = 1 := by
  rw [chance, hb.stuck_iff.mp h]
  simp

theorem WellFormed.chance_eq_zero {t : Fin b.states.length} (h : ¬0 < b.total s a)
    (hstuck : ¬(b.Stuck s ∧ a = 0 ∧ t = s)) : b.chance s a t = 0 := by
  have hraw : (b.rawRow s a).get t = 0 :=
    hb.rawRow_eq_zero (fun ha => h (hb.total_pos_iff.mpr (hb.mem_offered_iff.mp ha))) t
  rw [chance]
  split_ifs with hempty hst
  · rw [Bool.and_eq_true, List.isEmpty_iff, decide_eq_true_eq, ← hb.stuck_iff] at hempty
    exact absurd ⟨hempty.1, hempty.2, hst.symm⟩ hstuck
  · exact hraw
  · exact hraw

theorem WellFormed.mem_choices_iff : a ∈ b.choices s ↔ 0 < b.total s a ∨ b.Stuck s ∧ a = 0 := by
  rw [choices, hb.stuck_iff, hb.total_pos_iff, ← hb.mem_offered_iff, ← List.isEmpty_iff]
  by_cases hempty : (b.offered s).isEmpty = true
  · simp [List.isEmpty_iff.mp hempty]
  · simp [hempty]

/-- **A state is given the actions whose rows are not all zero.** -/
theorem WellFormed.mem_choices_iff_exists_chance :
    a ∈ b.choices s ↔ ∃ t, b.chance s a t ≠ 0 := by
  rw [hb.mem_choices_iff]
  constructor
  · rintro (htotal | ⟨hstuck, rfl⟩)
    · obtain ⟨t, ht⟩ := hb.total_pos_iff.mp htotal
      refine ⟨⟨t, (hb.covers_of_weight_ne_zero ht).2.2⟩, ?_⟩
      rw [hb.chance_of_pos htotal]
      exact div_ne_zero ht htotal.ne'
    · refine ⟨s, ?_⟩
      rw [hb.chance_of_stuck hstuck]
      exact one_ne_zero
  · rintro ⟨t, ht⟩
    by_contra hnot
    rw [not_or] at hnot
    exact ht (hb.chance_eq_zero hnot.1 fun h => hnot.2 ⟨h.1, h.2.1⟩)

theorem WellFormed.choices_eq_or (h : ¬b.Mixed s) : b.choices s = [0] ∨ 0 ∉ b.choices s := by
  rw [choices]
  split_ifs
  · exact .inl rfl
  · exact hb.offered_eq_or h

end Assemble

theorem choices_increasing (b : Builder ℚ) (s : Fin b.states.length) :
    (b.choices s).Pairwise (· < ·) := by
  rw [choices]
  split_ifs
  · exact List.pairwise_singleton _ _
  · exact b.offered_increasing s

/-- Where no action has been declared, there is nothing but the action without a name. -/
theorem choices_of_actions_eq_nil (hnone : b.actions = []) (s : Fin b.states.length) :
    b.choices s = [0] := by
  have hlength : b.actions.length = 0 := List.length_eq_zero_iff.mpr hnone
  have hall : ∀ a : Fin (b.actions.length + 1), a = 0 := fun a => Fin.ext (by
    have := a.isLt
    rw [Fin.val_zero]
    omega)
  obtain ⟨a, ha⟩ := List.exists_mem_of_ne_nil _ (b.choices_ne_nil s)
  refine (b.choices_increasing s).eq_of_mem_iff (List.pairwise_singleton _ _) fun c => ?_
  rw [List.mem_singleton, hall c, ← hall a]
  exact iff_of_true ha rfl

/-- **A model is a chain exactly if no action has been declared.** -/
theorem isChain_assemble_iff (b : Builder ℚ) (start : Fin b.states.length) :
    (b.assemble start).isChain = true ↔ b.actions = [] := by
  rw [Model.isChain, Bool.and_eq_true, beq_iff_eq]
  constructor
  · rintro ⟨hdeclared, -⟩
    exact List.length_eq_zero_iff.mp hdeclared
  · intro hnone
    refine ⟨List.length_eq_zero_iff.mpr hnone, List.all_eq_true.mpr fun s _ => beq_iff_eq.mpr ?_⟩
    exact (b.enabled_assemble start s).trans (choices_of_actions_eq_nil hnone s)

/-- **What is assembled has been described.** -/
theorem WellFormed.describes_assemble (hb : b.WellFormed)
    (hsound : ∀ s : Fin b.states.length, b.Sound s) {start : Fin b.states.length}
    (hnone : initial = none → (start : ℕ) = 0)
    (hsome : ∀ label, initial = some label → b.states.get start = label) :
    b.Describes initial (b.assemble start) where
  stateLabels := toList_ofFn_get b.states
  rewards := toList_ofFn_getD hb.length_rewards 0
  actionLabels := toList_ofFn_get b.actions
  initial_of_none := hnone
  initial_of_some label hlabel := (get_ofFn _ start).trans (hsome label hlabel)
  prob_of_pos s a t h := (b.prob_assemble start s a t).trans (hb.chance_of_pos h t)
  prob_of_stuck s h := (b.prob_assemble start s 0 s).trans (hb.chance_of_stuck h)
  prob_eq_zero s a t h hstuck := (b.prob_assemble start s a t).trans (hb.chance_eq_zero h hstuck)
  enabled_increasing s := by
    rw [b.enabled_assemble start s]
    exact b.choices_increasing s
  enabled_ne_nil s := by
    rw [b.enabled_assemble start s]
    exact b.choices_ne_nil s
  mem_enabled s a := by
    rw [b.enabled_assemble start s]
    refine hb.mem_choices_iff_exists_chance.trans (exists_congr fun t => ?_)
    exact (b.prob_assemble start s a t).symm ▸ Iff.rfl
  enabled_eq_or s := by
    rw [b.enabled_assemble start s]
    exact hb.choices_eq_or (hsound s).1
  sum_prob s a ha := hb.sum_prob_assemble start s ha
  isChain_iff := b.isChain_assemble_iff start
  enabled_of_isChain hchain s := by
    rw [b.enabled_assemble start s]
    exact choices_of_actions_eq_nil ((b.isChain_assemble_iff start).mp hchain) s

/-- **Nothing else has been described.** -/
theorem WellFormed.describes_unique (hb : b.WellFormed) {m m' : Model ℚ}
    (h : b.Describes initial m) (h' : b.Describes initial m') : m = m' := by
  have hsize : m.size = m'.size := by
    simpa using congrArg List.length (h.stateLabels.trans h'.stateLabels.symm)
  have hdeclared : m.declared = m'.declared := by
    simpa using congrArg List.length (h.actionLabels.trans h'.actionLabels.symm)
  obtain ⟨size, declared, stateLabels, actionLabels, rewards, rows, enabled, start⟩ := m
  obtain ⟨size', declared', stateLabels', actionLabels', rewards', rows', enabled', start'⟩ := m'
  obtain rfl : size = size' := hsize
  obtain rfl : declared = declared' := hdeclared
  obtain rfl : stateLabels = stateLabels' :=
    Vector.toList_inj.mp (h.stateLabels.trans h'.stateLabels.symm)
  obtain rfl : actionLabels = actionLabels' :=
    Vector.toList_inj.mp (h.actionLabels.trans h'.actionLabels.symm)
  obtain rfl : rewards = rewards' := Vector.toList_inj.mp (h.rewards.trans h'.rewards.symm)
  obtain rfl : rows = rows' := by
    refine ext_get fun s => ext_get fun a => ext_get fun t => ?_
    by_cases htotal : 0 < b.total s a
    · exact (h.prob_of_pos s a t htotal).trans (h'.prob_of_pos s a t htotal).symm
    by_cases hloop : b.Stuck s ∧ a = ⟨0, Nat.succ_pos declared⟩ ∧ t = s
    · obtain ⟨hstuck, rfl, rfl⟩ := hloop
      exact (h.prob_of_stuck t hstuck).trans (h'.prob_of_stuck t hstuck).symm
    · exact (h.prob_eq_zero s a t htotal hloop).trans (h'.prob_eq_zero s a t htotal hloop).symm
  obtain rfl : enabled = enabled' := by
    refine ext_get fun s => (h.enabled_increasing s).eq_of_mem_iff (h'.enabled_increasing s) ?_
    exact fun a => (h.mem_enabled s a).trans (h'.mem_enabled s a).symm
  obtain rfl : start = start' := by
    cases initial with
    | none => exact Fin.ext ((h.initial_of_none rfl).trans (h'.initial_of_none rfl).symm)
    | some label =>
      have hsame : stateLabels.get start = stateLabels.get start' :=
        (h.initial_of_some label rfl).trans (h'.initial_of_some label rfl).symm
      have hnodup : stateLabels.toList.Nodup := h.stateLabels ▸ hb.follows_states.nodup
      exact Fin.ext (hnodup.getElem_inj_iff.mp hsame)
  rfl

/-! ### The outcome -/

theorem WellFormed.build_of_mixed (hb : b.WellFormed) {s : Fin b.states.length}
    (hbefore : ∀ r < s, b.Sound r) (h : b.Mixed s) :
    b.build initial = .error (.actionCoherence (b.states.get s)) :=
  build_of_faultAt (fun r hr => hb.faultAt_of_sound (hbefore r hr)) (hb.faultAt_of_mixed h)

theorem WellFormed.build_of_stuck (hb : b.WellFormed) {s : Fin b.states.length}
    (hbefore : ∀ r < s, b.Sound r) (h : b.Stuck s) (hreject : b.deadlock = .reject) :
    b.build initial = .error (.noEnabledAction (b.states.get s)) :=
  build_of_faultAt (fun r hr => hb.faultAt_of_sound (hbefore r hr)) (hb.faultAt_of_stuck h hreject)

theorem WellFormed.findSome?_faultAt (hb : b.WellFormed)
    (hsound : ∀ s : Fin b.states.length, b.Sound s) :
    (List.finRange b.states.length).findSome? b.faultAt = none :=
  List.findSome?_eq_none_iff.mpr fun s _ => hb.faultAt_of_sound (hsound s)

theorem WellFormed.build_of_unknown (hb : b.WellFormed) (hne : 0 < b.states.length)
    (hsound : ∀ s : Fin b.states.length, b.Sound s) {label : String}
    (hlabel : label ∉ b.states) :
    b.build (some label) = .error (.unknownState label) := by
  have hfind : b.findState label = .error (.unknownState label) := by
    rw [findState, hb.follows_states.get?_eq_none_iff.mpr hlabel]
  simp only [build, dif_pos hne, hb.findSome?_faultAt hsound, hfind]
  rfl

/-- Where nothing is wrong and the initial state has been declared, there is a model. -/
theorem WellFormed.exists_build_of_known (hb : b.WellFormed) (hne : 0 < b.states.length)
    (hsound : ∀ s : Fin b.states.length, b.Sound s)
    (hlabel : ∀ label, initial = some label → label ∈ b.states) :
    ∃ m, b.build initial = .ok m ∧ b.Describes initial m := by
  simp only [build, dif_pos hne, hb.findSome?_faultAt hsound]
  cases initial with
  | none =>
    exact ⟨_, rfl, hb.describes_assemble hsound (fun _ => rfl)
      fun label h => absurd h.symm (Option.some_ne_none label)⟩
  | some label =>
    obtain ⟨s, hs⟩ := List.get_of_mem (hlabel label rfl)
    have hfind : b.findState label = .ok s :=
      hb.findState_eq_ok_iff.mpr (hs ▸ List.getElem?_eq_getElem s.isLt)
    have hbuild : (do
        let i ← b.findState label
        if h : i < b.states.length then return b.assemble ⟨i, h⟩
        throw (.unknownState label)) = Except.ok (b.assemble s) := by
      rw [hfind]
      exact dif_pos s.isLt
    refine ⟨_, hbuild, hb.describes_assemble hsound (fun h => absurd h (Option.some_ne_none label))
      fun label' hlabel' => ?_⟩
    rw [hs, Option.some.inj hlabel']

/-- **What is built is what building comes to.** -/
theorem WellFormed.outcome_build (hb : b.WellFormed) (initial : Option String) :
    b.Outcome initial (b.build initial) := by
  by_cases hempty : b.states = []
  · have hbuild : b.build initial = .error .emptyModel := by
      rw [build, dif_neg (by simp [hempty])]
    rw [hbuild]
    exact .empty hempty
  have hne : 0 < b.states.length := List.length_pos_iff.mpr hempty
  by_cases hsound : ∀ s : Fin b.states.length, b.Sound s
  · by_cases hlabel : ∀ label, initial = some label → label ∈ b.states
    · obtain ⟨m, hm, hdescribes⟩ := hb.exists_build_of_known hne hsound hlabel
      rw [hm]
      exact .model m hempty hsound hdescribes
    · push Not at hlabel
      obtain ⟨label, rfl, hlabel⟩ := hlabel
      rw [hb.build_of_unknown hne hsound hlabel]
      exact .unknown label hempty hsound rfl hlabel
  -- there is a first state at fault
  · obtain ⟨s, hs, hfirst⟩ := wellFounded_lt.has_min {s : Fin b.states.length | ¬b.Sound s}
      (not_forall.mp hsound)
    have hbefore : ∀ r < s, b.Sound r := fun r hr => not_not.mp fun hfault => hfirst r hfault hr
    by_cases hmixed : b.Mixed s
    · rw [hb.build_of_mixed hbefore hmixed]
      exact .mixed s hbefore hmixed
    · have hstuck : b.Stuck s ∧ b.deadlock = .reject := not_not.mp fun h => hs ⟨hmixed, h⟩
      rw [hb.build_of_stuck hbefore hstuck.1 hstuck.2]
      exact .stuck s hbefore hstuck.1 hstuck.2

/-- **What building comes to is what is built.** -/
theorem WellFormed.build_eq_of_outcome (hb : b.WellFormed)
    {r : Except (ModelError ℚ) (Model ℚ)} (h : b.Outcome initial r) : b.build initial = r := by
  cases h with
  | empty hempty => rw [build, dif_neg (by simp [hempty])]
  | mixed s hbefore hmixed => exact hb.build_of_mixed hbefore hmixed
  | stuck s hbefore hstuck hreject => exact hb.build_of_stuck hbefore hstuck hreject
  | unknown label hne hsound hinitial hlabel =>
    subst hinitial
    exact hb.build_of_unknown (List.length_pos_iff.mpr hne) hsound hlabel
  | model m hne hsound hm =>
    have hlabel : ∀ label, initial = some label → label ∈ b.states := by
      intro label hinitial
      rw [← hm.stateLabels, ← hm.initial_of_some label hinitial]
      exact Vector.mem_toList_iff.mpr (Vector.getElem_mem m.initial.isLt)
    obtain ⟨m', hbuild, hm'⟩ :=
      hb.exists_build_of_known (List.length_pos_iff.mpr hne) hsound hlabel
    rw [hbuild, hb.describes_unique hm' hm]

/-- **Building is specified by its outcomes**, whatever calls have been made before, and whatever
initial state is asked for. -/
theorem build_eq_iff (calls : List (Call ℚ)) (initial : Option String)
    (r : Except (ModelError ℚ) (Model ℚ)) :
    (session calls).build initial = r ↔ (session calls).Outcome initial r := by
  have hb := wellFormed_session calls
  constructor
  · rintro rfl
    exact hb.outcome_build initial
  · exact hb.build_eq_of_outcome

end Builder

end MarkovDecision
