import MarkovDecision.Proofs.Arithmetic
import MarkovDecision.Proofs.Model.Declaring
import MarkovDecision.Proofs.Process.Basic

/-!
# A built model is a process

Nothing in the type of a model says that its rows are distributions: that is the
work of the builder, and this module reads it off. A builder is *reachable* when
it comes from the empty one by declarations that were accepted; a refused one
leaves the builder as it was and adds nothing. Reachable builders are well formed
and hold no negative weight (`Builder.WellFormed.weight_nonneg`), so that the
weights of a row vanish together with their sum, and a row that is divided by its
sum adds up to one. What comes out is `Model.Stochastic`: every state enables some
action, and the rows of the enabled actions are distributions.

The one case apart is a state without any weight, which is given a loop: its row
is zero before, and a single one after.
-/

namespace MarkovDecision

open Finset

/-! ### Reachable builders -/

namespace Builder

/-- The builders that accepted declarations lead to. -/
inductive Reachable {K : Type} [Scalar K] : Builder K → Prop
  /-- Nothing has been declared. -/
  | empty : Reachable {}
  /-- It has been settled what becomes of a state without transitions. -/
  | deadlock {b : Builder K} (choice : Deadlock) :
    Reachable b → Reachable { b with deadlock := choice }
  /-- A state has been declared. -/
  | state {b b' : Builder K} (label : String) (reward : K) :
    Reachable b → b.addState label reward = .ok b' → Reachable b'
  /-- A block of actions has been declared. -/
  | actions {b b' : Builder K} (labels : List String) :
    Reachable b → b.addActions labels = .ok b' → Reachable b'
  /-- A transition has been given its weight. -/
  | weight {b b' : Builder K} (source target : String) (action : Option String) (w : K) :
    Reachable b → b.addWeight source target action w = .ok b' → Reachable b'
  /-- A fan-out has been given its weights. -/
  | branches {b b' : Builder K} (source : String) (action : Option String)
      (branches : List Branch) :
    Reachable b → b.addBranches source action branches = .ok b' → Reachable b'

/-- The builder that a list of declarations leads to, if all of them are accepted. -/
def ofDeclarations {K : Type} [Scalar K] (declarations : List Declaration) :
    Except (ModelError K) (Builder K) :=
  declarations.foldlM declare {}

theorem Reachable.declare {K : Type} [Scalar K] {b b' : Builder K} (hb : b.Reachable)
    {d : Declaration} (h : b.declare d = .ok b') : b'.Reachable := by
  have h := (Call.attempt_declaration b d).symm.trans h
  cases d with
  | state label reward => exact hb.state label _ h
  | actions labels => exact hb.actions labels h
  | transition source action branches => exact hb.branches source action branches h

theorem Reachable.after {K : Type} [Scalar K] {b : Builder K} (hb : b.Reachable) (c : Call K) :
    (c.after b).Reachable := by
  rcases c.attempt_eq_ok_or b with h | h
  · cases c with
    | state label reward => exact hb.state label reward ((Call.attempt_state b label reward) ▸ h)
    | actions labels => exact hb.actions labels h
    | weight source target action w => exact hb.weight source target action w h
    | declaration d => exact hb.declare h
    | deadlock choice =>
      rw [← Except.ok.inj h]
      exact hb.deadlock choice
  · rwa [h]

/-- **Declarations lead to reachable builders.** -/
theorem reachable_of_ofDeclarations {K : Type} [Scalar K] {declarations : List Declaration}
    {b : Builder K} (h : ofDeclarations declarations = .ok b) : b.Reachable := by
  have hrun : Relation.ReflTransGen (fun b b' => ∃ d, b.declare d = .ok b') {} b :=
    reflTransGen_of_foldlM (fun _ d _ hd => ⟨d, hd⟩) h
  clear h
  induction hrun with
  | refl => exact .empty
  | tail _ hstep ih =>
    obtain ⟨d, hd⟩ := hstep
    exact ih.declare hd

/-- Declarations that are accepted and make a model which passes a test, found out by running
them. -/
theorem exists_of_any (declarations : List Declaration) (test : Model ℚ → Bool)
    (h : ((ofDeclarations declarations).bind fun b : Builder ℚ => b.build none).toOption.any test
      = true) :
    ∃ b : Builder ℚ, ∃ m : Model ℚ, ofDeclarations declarations = .ok b ∧ b.build none = .ok m ∧
      test m = true := by
  obtain ⟨m, hm, htest⟩ := (Option.any_eq_true _ _).mp h
  cases hb : (ofDeclarations declarations : Except (ModelError ℚ) (Builder ℚ)) with
  | error e =>
    rw [hb] at hm
    cases hm
  | ok b =>
    rw [hb] at hm
    exact ⟨b, m, rfl, eq_ok_of_toOption hm, htest⟩

/-- **The reachable builders are those that sessions lead to**, refused calls or none in them. -/
theorem reachable_iff_exists_session {K : Type} [Scalar K] {b : Builder K} :
    b.Reachable ↔ ∃ calls, session calls = b := by
  constructor
  · intro hb
    -- one more call at the end of a session
    have hcall : ∀ {b b' : Builder K} (c : Call K), c.attempt b = .ok b' →
        (∃ calls, session calls = b) → ∃ calls, session calls = b' := by
      rintro b b' c hc ⟨calls, rfl⟩
      refine ⟨calls ++ [c], ?_⟩
      rw [session, List.foldl_append]
      exact Call.after_eq_of_attempt hc
    induction hb with
    | empty => exact ⟨[], rfl⟩
    | deadlock choice _ ih => exact hcall (.deadlock choice) rfl ih
    | state label reward _ h ih =>
      exact hcall (.state label reward) ((Call.attempt_state _ label reward).trans h) ih
    | actions labels _ h ih => exact hcall (.actions labels) h ih
    | weight source target action w _ h ih => exact hcall (.weight source target action w) h ih
    | branches source action branches _ h ih =>
      exact hcall (.declaration (.transition source action branches)) h ih
  · rintro ⟨calls, rfl⟩
    have hrun : ∀ b : Builder K, b.Reachable → (calls.foldl Call.after b).Reachable := by
      induction calls with
      | nil => exact fun b hb => hb
      | cons c rest ih => exact fun b hb => ih (c.after b) (hb.after c)
    exact hrun {} .empty

/-- **A reachable builder is well formed.** -/
theorem Reachable.wellFormed {K : Type} [Scalar K] {b : Builder K} (hb : b.Reachable) :
    b.WellFormed := by
  obtain ⟨calls, rfl⟩ := reachable_iff_exists_session.mp hb
  exact wellFormed_session calls

/-- No weight of a well-formed builder is negative. -/
theorem WellFormed.weight_nonneg {b : Builder ℚ} (hb : b.WellFormed) (e : Edge) :
    0 ≤ b.weights.weight e := by
  rw [Weights.weight]
  cases h : b.weights.get? e with
  | none => exact le_rfl
  | some w => exact not_lt.mp (hb.not_neg _ (Weights.mem_of_get? h))

/-! ### Rows -/

theorem WellFormed.rowWeights_nonneg {b : Builder ℚ} (hb : b.WellFormed)
    (s : Fin b.states.length) (a : Fin (b.actions.length + 1)) (t : Fin b.states.length) :
    0 ≤ (b.rowWeights s a).get t := by
  rw [rowWeights, get_ofFn]
  exact hb.weight_nonneg _

/-- A row of weights without negative ones stays so when it is divided by its sum. -/
theorem normalized_nonneg {n : ℕ} {row : Vector ℚ n} (h : ∀ t, 0 ≤ row.get t) (t : Fin n) :
    0 ≤ (normalized row).get t := by
  rw [normalized, laneSum_toList]
  split_ifs with htotal
  · rw [get_map]
    exact div_nonneg (h t) htotal.le
  · exact h t

/-- **A row that carries weight is divided by its sum**, and then adds up to one. -/
theorem sum_normalized {n : ℕ} {row : Vector ℚ n} (h : 0 < ∑ t, (normalized row).get t) :
    ∑ t, (normalized row).get t = 1 := by
  rw [normalized, laneSum_toList] at h ⊢
  split_ifs at h ⊢ with htotal
  · simp only [get_map, ← sum_div]
    exact div_self htotal.ne'
  · exact absurd h htotal

theorem mem_offered {b : Builder ℚ} {s : Fin b.states.length} {a : Fin (b.actions.length + 1)} :
    a ∈ b.offered s ↔ 0 < ∑ t, (b.rawRow s a).get t := by
  rw [offered, List.mem_filter, laneSum_toList]
  simp [List.mem_finRange]

/-- The rows of actions that are not offered are zero. -/
theorem WellFormed.rawRow_eq_zero {b : Builder ℚ} (hb : b.WellFormed) {s : Fin b.states.length}
    {a : Fin (b.actions.length + 1)} (ha : a ∉ b.offered s) (t : Fin b.states.length) :
    (b.rawRow s a).get t = 0 := by
  have hnonneg : ∀ t ∈ univ, 0 ≤ (b.rawRow s a).get t := fun t _ =>
    normalized_nonneg (hb.rowWeights_nonneg s a) t
  rw [mem_offered, not_lt] at ha
  exact (sum_eq_zero_iff_of_nonneg hnonneg).mp (le_antisymm ha (sum_nonneg hnonneg)) t (mem_univ t)

/-! ### Assembled models -/

/-- The actions that a state is given: those it offers, or the one without a name. -/
def choices (b : Builder ℚ) (s : Fin b.states.length) : List (Fin (b.actions.length + 1)) :=
  if (b.offered s).isEmpty then [0] else b.offered s

/-- The probability that a transition is given, the loop of a state that offers nothing
included. -/
def chance (b : Builder ℚ) (s : Fin b.states.length) (a : Fin (b.actions.length + 1))
    (t : Fin b.states.length) : ℚ :=
  if (b.offered s).isEmpty && decide (a = 0) then (if s = t then 1 else (b.rawRow s a).get t)
  else (b.rawRow s a).get t

/-- A model that has been built is assembled from its builder. -/
theorem exists_of_build {K : Type} [Scalar K] {b : Builder K} {initial : Option String}
    {m : Model K} (h : b.build initial = .ok m) : ∃ s, m = b.assemble s := by
  simp only [build] at h
  split_ifs at h
  split at h
  · cases h
  split at h
  · exact ⟨_, (Except.ok.inj h).symm⟩
  · obtain ⟨i, -, h⟩ := exists_of_bind_eq_ok h
    split at h
    · exact ⟨_, (Except.ok.inj h).symm⟩
    · cases h

theorem enabled_assemble (b : Builder ℚ) (start s : Fin b.states.length) :
    (b.assemble start).enabled.get s = b.choices s :=
  get_ofFn _ s

theorem prob_assemble (b : Builder ℚ) (start s : Fin b.states.length)
    (a : Fin (b.actions.length + 1)) (t : Fin b.states.length) :
    (b.assemble start).prob s a t = b.chance s a t := by
  change (((Vector.ofFn fun s => Vector.ofFn fun a => if (b.offered s).isEmpty && decide (a = 0)
    then replaceAt (b.rawRow s a) s 1 else b.rawRow s a).get s).get a).get t = _
  rw [get_ofFn, get_ofFn, chance]
  split_ifs with hstuck hst <;> simp [*]

theorem choices_ne_nil (b : Builder ℚ) (s : Fin b.states.length) : b.choices s ≠ [] := by
  rw [choices]
  split_ifs with hempty
  · exact List.cons_ne_nil _ _
  · rwa [List.isEmpty_iff] at hempty

theorem WellFormed.chance_nonneg {b : Builder ℚ} (hb : b.WellFormed) (s : Fin b.states.length)
    (a : Fin (b.actions.length + 1)) (t : Fin b.states.length) : 0 ≤ b.chance s a t := by
  have hraw := normalized_nonneg (hb.rowWeights_nonneg s a) t
  rw [chance]
  split_ifs
  · exact zero_le_one
  · exact hraw
  · exact hraw

/-- The rows that a state is given are the offered ones, or the loop of a state that offers
nothing; either way they add up to one. -/
theorem WellFormed.sum_chance {b : Builder ℚ} (hb : b.WellFormed) {s : Fin b.states.length}
    {a : Fin (b.actions.length + 1)} (ha : a ∈ b.choices s) : ∑ t, b.chance s a t = 1 := by
  rw [choices] at ha
  simp only [chance]
  by_cases hempty : (b.offered s).isEmpty
  -- a state that offers nothing has a loop in a row of zeros
  · rw [if_pos hempty, List.mem_singleton] at ha
    have hzero : ∀ t, (b.rawRow s a).get t = 0 :=
      hb.rawRow_eq_zero (by rw [List.isEmpty_iff.mp hempty]; exact List.not_mem_nil)
    have hstuck : ((b.offered s).isEmpty && decide (a = 0)) = true := by
      rw [hempty, ha, decide_eq_true rfl, Bool.and_true]
    simp only [hstuck, if_true, hzero]
    rw [sum_ite_eq, if_pos (mem_univ s)]
  · rw [if_neg hempty] at ha
    simp only [hempty, Bool.false_and, Bool.false_eq_true, if_false]
    exact sum_normalized (mem_offered.mp ha)

/-- The enabled rows of an assembled model add up to one. -/
theorem WellFormed.sum_prob_assemble {b : Builder ℚ} (hb : b.WellFormed)
    (start s : Fin b.states.length) {a : Fin (b.actions.length + 1)}
    (ha : a ∈ (b.assemble start).enabled.get s) :
    ∑ t : Fin b.states.length, (b.assemble start).prob s a t = 1 := by
  simp only [prob_assemble]
  exact hb.sum_chance ((b.enabled_assemble start s) ▸ ha)

end Builder

/-! ### The process of a model -/

/-- What makes the rows of a model distributions. -/
structure Model.Stochastic (m : Model ℚ) : Prop where
  /-- Every state enables some action. -/
  enabled_ne_nil : ∀ s, m.enabled.get s ≠ []
  /-- No probability is negative. -/
  prob_nonneg : ∀ s a t, 0 ≤ m.prob s a t
  /-- The probabilities of an enabled action add up to one. -/
  sum_prob : ∀ s, ∀ a ∈ m.enabled.get s, ∑ t, m.prob s a t = 1

/-- **What a reachable builder builds is stochastic.** -/
theorem Builder.Reachable.stochastic {b : Builder ℚ} (hb : b.Reachable) {initial : Option String}
    {m : Model ℚ} (h : b.build initial = .ok m) : m.Stochastic := by
  obtain ⟨start, rfl⟩ := Builder.exists_of_build h
  have hwell := hb.wellFormed
  refine ⟨fun s => ?_, fun s a t => ?_, fun s a ha => hwell.sum_prob_assemble start s ha⟩
  · rw [b.enabled_assemble start s]
    exact b.choices_ne_nil s
  · rw [b.prob_assemble start s a t]
    exact hwell.chance_nonneg s a t

end MarkovDecision
