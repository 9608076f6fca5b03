import MarkovDecision.Proofs.Model.Writes

/-!
# What declarations do to a builder

A builder is driven by calls, and every call may be refused. Whatever the calls
are, they act on the builder in four small ways only (`Builder.Step`): a state is
appended, an action is appended, an edge is given a weight, or it is settled what
becomes of a state without transitions. Each of the four carries the tests that
the builder has made before it acts, so an invariant is looked at four times and
then holds after every session (`Builder.session_sound`), in floating point as
in exact arithmetic: nothing here knows a law of the scalars. The invariant says
among other things that the indices, which are written to and looked up on their
own, have every label at the position where the lists have it.

The difficulty is in the calls that take several things at once. They test all
members of the batch before the first of them is written, so that a refusal leaves
nothing behind (`Call.atomic`), and have to find faults *between* the members in lists
of their own. `addActions_eq_foldlM` and `addBranches_eq_foldlM` say that these
lists do their work: a batch has the outcome, and the error, that its members
would have if they were declared one after the other.
-/

namespace MarkovDecision

namespace Builder

open Relation

variable {K : Type} {b b' : Builder K}

/-! ### Labels -/

/-- The states and the action of an edge have been declared. -/
def Covers (b : Builder K) (e : Edge) : Prop :=
  e.source < b.states.length ∧ e.action ≤ b.actions.length ∧ e.target < b.states.length

/-- What is appended leaves declared what has been. -/
theorem Covers.mono {e : Edge} (h : b.Covers e) (hstates : b.states <+: b'.states)
    (hactions : b.actions <+: b'.actions) : b'.Covers e := by
  obtain ⟨hsource, haction, htarget⟩ := h
  have hs := hstates.length_le
  have ha := hactions.length_le
  exact ⟨by omega, by omega, by omega⟩

/-- An edge is the one between these labels. -/
structure Names (b : Builder K) (source target : String) (action : Option String) (e : Edge) :
    Prop where
  /-- The source is found. -/
  source : b.findState source = .ok e.source
  /-- The target is found. -/
  target : b.findState target = .ok e.target
  /-- The action is found, or there is none. -/
  action : b.findAction action = .ok e.action

theorem findState_eq_ok_iff {label : String} {i : ℕ} :
    b.findState label = .ok i ↔ b.stateIds.get? label = some i := by
  rw [findState]
  cases b.stateIds.get? label <;> simp

theorem findAction_eq_ok_iff {label : String} {i : ℕ} :
    b.findAction (some label) = .ok i ↔ b.actionIds.get? label = some i := by
  rw [findAction]
  cases b.actionIds.get? label <;> simp

/-! ### Blocks of actions -/

/-- One label is a block. -/
theorem addActions_singleton (b : Builder K) (label : String) :
    b.addActions [label] =
      if b.declaresAction label then .error (.duplicateAction label)
      else .ok (b.withAction label) := by
  have htest : ([label].foldlM Building.testAction [] : Building K (List String)) b
      = Building.testAction [] label b := by
    rw [List.foldlM_cons]
    exact congrFun (bind_pure (Building.testAction [] label)) b
  have happly := Building.testAction_apply b [] label
  rw [List.contains_nil, Bool.false_or] at happly
  by_cases hlabel : b.declaresAction label = true
  · rw [if_pos hlabel] at happly ⊢
    exact Building.outcome_of_error (bind_apply_of_error (htest.trans happly))
  · rw [if_neg hlabel] at happly ⊢
    exact Building.outcome_of_ok ((bind_apply_of_ok (htest.trans happly)).trans
      (Building.forM_appendAction b [label]))

/-- **An action is accepted** if its label is new. -/
theorem addActions_singleton_eq_ok_iff {label : String} :
    b.addActions [label] = .ok b' ↔
      b.actionIds.get? label = none ∧ b.withAction label = b' := by
  rw [addActions_singleton, declaresAction]
  cases b.actionIds.get? label <;> simp

/-- Testing the rest of a block and writing the whole block is declaring the rest one by one, after
what comes before it. -/
theorem outcome_block (b : Builder K) (seen labels : List String) :
    Building.outcome (do
        let _ ← labels.foldlM Building.testAction seen
        (seen ++ labels).forM Building.appendAction) b
      = labels.foldlM (fun b label => b.addActions [label]) (seen.foldl withAction b) := by
  induction labels generalizing seen with
  | nil =>
    rw [List.append_nil]
    exact Building.outcome_of_ok (Building.forM_appendAction b seen)
  | cons label rest ih =>
    rw [List.foldlM_cons, List.foldlM_cons, addActions_singleton, declaresAction_foldl_withAction,
      bind_assoc]
    have happly := Building.testAction_apply b seen label
    by_cases hlabel : (seen.contains label || b.declaresAction label) = true
    · rw [if_pos hlabel] at happly ⊢
      exact Building.outcome_of_error (bind_apply_of_error happly)
    · rw [if_neg hlabel] at happly ⊢
      have hrest := ih (seen ++ [label])
      rw [List.append_assoc, List.foldl_append] at hrest
      refine Eq.trans ?_ hrest
      rw [Building.outcome, Building.outcome, bind_apply_of_ok happly]
      rfl

/-- **A block of actions is declared one by one**, or not at all. -/
theorem addActions_eq_foldlM (b : Builder K) (labels : List String) :
    b.addActions labels = labels.foldlM (fun b label => b.addActions [label]) b :=
  outcome_block b [] labels

variable [Scalar K]

/-! ### Single steps -/

/-- **What can happen to a builder**, and what has been tested before. -/
inductive Step : Builder K → Builder K → Prop
  /-- It is settled what becomes of a state without transitions. -/
  | deadlock (b : Builder K) (choice : Deadlock) : Step b { b with deadlock := choice }
  /-- A state is appended. -/
  | state (b : Builder K) (label : String) (reward : K) :
    b.stateIds.get? label = none → Scalar.isFinite reward = true →
      Step b (b.withState label reward)
  /-- An action is appended. -/
  | action (b : Builder K) (label : String) :
    b.actionIds.get? label = none → Step b (b.withAction label)
  /-- An edge that has no weight, or the weight zero, is given one. -/
  | weight (b : Builder K) (source target : String) (action : Option String) (e : Edge) (w : K) :
    b.Names source target action e → Scalar.isFinite w = true → ¬w < 0 →
      (b.weights.weight e == 0) = true → Step b (b.withWeight e w)

/-- **A state is accepted** if its label is new and its reward finite. -/
theorem run_addState_iff {label : String} {reward : K} {i : ℕ} :
    Building.addState label reward b = .ok i b' ↔
      (b.stateIds.get? label = none ∧ Scalar.isFinite reward = true) ∧
        i = b.states.length ∧ b.withState label reward = b' := by
  rw [Building.addState_apply]
  cases b.stateIds.get? label with
  | some i => simp
  | none => cases Scalar.isFinite reward <;> simp [eq_comm]

theorem addState_eq_ok_iff {label : String} {reward : K} :
    b.addState label reward = .ok b' ↔
      (b.stateIds.get? label = none ∧ Scalar.isFinite reward = true) ∧
        b.withState label reward = b' := by
  rw [addState, Building.outcome, Building.addState_apply]
  cases b.stateIds.get? label with
  | some i => simp
  | none => cases Scalar.isFinite reward <;> simp

/-- The edge that a transition names, if the labels have been declared and it may have a weight like
this; whether it has one already is not asked. -/
def locate (b : Builder K) (source target : String) (action : Option String) (w : K) :
    Except (ModelError K) Edge := do
  let s ← b.findState source
  let t ← b.findState target
  let a ← b.findAction action
  if !Scalar.isFinite w || w < 0 then throw (.invalidWeight source target w)
  return ⟨s, a, t⟩

/-- The store is asked last. -/
theorem resolve_eq_bind (b : Builder K) (source target : String) (action : Option String) (w : K) :
    b.resolve source target action w = (b.locate source target action w).bind fun e =>
      if b.weights.weight e == 0 then .ok e
      else .error (.duplicateTransition source action target) := by
  simp only [resolve, locate]
  cases b.findState source with
  | error e => rfl
  | ok s =>
    cases b.findState target with
    | error e => rfl
    | ok t =>
      cases b.findAction action with
      | error e => rfl
      | ok a => cases !Scalar.isFinite w || decide (w < 0) <;> rfl

theorem locate_eq_ok_iff {source target : String} {action : Option String} {w : K} {e : Edge} :
    b.locate source target action w = .ok e ↔
      b.Names source target action e ∧ Scalar.isFinite w = true ∧ ¬w < 0 := by
  constructor
  · intro h
    obtain ⟨s, hs, h⟩ := exists_of_bind_eq_ok h
    obtain ⟨t, ht, h⟩ := exists_of_bind_eq_ok h
    obtain ⟨a, ha, h⟩ := exists_of_bind_eq_ok h
    simp only [bind, Except.bind] at h
    split at h
    · cases h
    next hw =>
      obtain rfl := Except.ok.inj h
      simp only [Bool.or_eq_true, Bool.not_eq_true', decide_eq_true_eq, not_or,
        Bool.not_eq_false] at hw
      exact ⟨⟨hs, ht, ha⟩, hw⟩
  · rintro ⟨⟨hs, ht, ha⟩, hfinite, hneg⟩
    have hw : (!Scalar.isFinite w || decide (w < 0)) = false := by
      simp [hfinite, hneg]
    simp only [locate, hs, ht, ha, bind, Except.bind, hw]
    rfl

theorem resolve_eq_ok_iff {source target : String} {action : Option String} {w : K} {e : Edge} :
    b.resolve source target action w = .ok e ↔
      (b.Names source target action e ∧ Scalar.isFinite w = true ∧ ¬w < 0) ∧
        (b.weights.weight e == 0) = true := by
  rw [resolve_eq_bind]
  constructor
  · intro h
    obtain ⟨f, hf, h⟩ := exists_of_bind_eq_ok h
    split at h
    next hzero =>
      obtain rfl := Except.ok.inj h
      exact ⟨locate_eq_ok_iff.mp hf, hzero⟩
    · cases h
  · rintro ⟨he, hzero⟩
    rw [locate_eq_ok_iff.mpr he, Except.bind, if_pos hzero]

theorem addWeight_eq_map (b : Builder K) (source target : String) (action : Option String)
    (w : K) : b.addWeight source target action w
      = (b.resolve source target action w).map fun e => b.withWeight e w := by
  rw [addWeight, Building.outcome, Building.updateWeight_apply]
  cases b.resolve source target action w <;> rfl

/-- **A weight is accepted** if its labels have been declared, it is finite and not negative, and
the edge between the labels has no weight or the weight zero. -/
theorem addWeight_eq_ok_iff {source target : String} {action : Option String} {w : K} :
    b.addWeight source target action w = .ok b' ↔
      ∃ e, ((b.Names source target action e ∧ Scalar.isFinite w = true ∧ ¬w < 0) ∧
        (b.weights.weight e == 0) = true) ∧ b.withWeight e w = b' := by
  simp only [addWeight_eq_map, ← resolve_eq_ok_iff]
  cases b.resolve source target action w <;> simp [Except.map]

theorem step_of_addState {label : String} {reward : K} (h : b.addState label reward = .ok b') :
    Step b b' := by
  obtain ⟨⟨hfresh, hfinite⟩, rfl⟩ := addState_eq_ok_iff.mp h
  exact .state b label reward hfresh hfinite

theorem step_of_addActions_singleton {label : String} (h : b.addActions [label] = .ok b') :
    Step b b' := by
  obtain ⟨hfresh, rfl⟩ := addActions_singleton_eq_ok_iff.mp h
  exact .action b label hfresh

theorem step_of_addWeight {source target : String} {action : Option String} {w : K}
    (h : b.addWeight source target action w = .ok b') : Step b b' := by
  obtain ⟨e, ⟨⟨hnames, hfinite, hneg⟩, hzero⟩, rfl⟩ := addWeight_eq_ok_iff.mp h
  exact .weight b source target action e w hnames hfinite hneg hzero

/-! ### Fan-outs -/

/-- The staged edges show in the builder: it has a weight that may not be replaced if it had one
before, or if one has been staged. -/
def Shows (b : Builder K) (staged : List (Edge × K)) : Prop :=
  ∀ e, ((b.commit staged).weights.weight e == 0)
    = ((b.weights.weight e == 0) && !Building.taken staged e)

theorem shows_nil (b : Builder K) : b.Shows [] := fun e => by
  simp [commit, Building.taken]

/-- What may be staged shows once it has been. -/
theorem Shows.concat {staged : List (Edge × K)} (h : b.Shows staged) {e : Edge}
    (hzero : (b.weights.weight e == 0) = true) (htaken : Building.taken staged e = false) (w : K) :
    b.Shows (staged ++ [(e, w)]) := by
  intro f
  have hcommit : (b.commit (staged ++ [(e, w)])).weights.weight f
      = if e = f then w else (b.commit staged).weights.weight f := by
    rw [commit_concat]
    exact Weights.weight_insert _ e f w
  have hany : Building.taken (staged ++ [(e, w)]) f
      = (Building.taken staged f || (decide (e = f) && !(w == 0))) := by
    simp [Building.taken]
  rw [hcommit, hany]
  by_cases hef : e = f
  · subst hef
    simp [hzero, htaken]
  · simp [hef, h f]

/-- What is declared does not change with the weights. -/
theorem locate_commit (b : Builder K) (staged : List (Edge × K)) (source target : String)
    (action : Option String) (w : K) :
    (b.commit staged).locate source target action w = b.locate source target action w := by
  induction staged generalizing b with
  | nil => rfl
  | cons x rest ih =>
    refine (ih (b.withWeight x.1 x.2)).trans ?_
    cases action <;> rfl

/-- **Staging sees what a builder would see** that takes the edges in one after the other. -/
theorem Shows.resolve_commit {staged : List (Edge × K)} (h : b.Shows staged)
    (source target : String) (action : Option String) (w : K) :
    (b.commit staged).resolve source target action w
      = (b.resolve source target action w).bind fun e =>
          if Building.taken staged e then .error (.duplicateTransition source action target)
          else .ok e := by
  rw [resolve_eq_bind, resolve_eq_bind, locate_commit]
  cases b.locate source target action w with
  | error e => rfl
  | ok e =>
    simp only [Except.bind, h e]
    cases b.weights.weight e == 0 with
    | false => rfl
    | true =>
      simp only [if_true]
      cases Building.taken staged e <;> rfl

/-- Gives one branch of a fan-out its weight. -/
def addBranch (source : String) (action : Option String) (b : Builder K) (branch : Branch) :
    Except (ModelError K) (Builder K) :=
  b.addWeight source branch.target action (branch.weight.toNat : K)

/-- Staging the rest of the branches and writing all that is staged is declaring the rest one by
one, after what has been staged before. -/
theorem Shows.outcome_eq_foldlM {staged : List (Edge × K)} (h : b.Shows staged) (source : String)
    (action : Option String) (branches : List Branch) :
    Building.outcome (do
        let staged ← branches.foldlM (Building.stage source action) staged
        staged.forM fun (edge, weight) => Building.setWeight edge weight) b
      = branches.foldlM (addBranch source action) (b.commit staged) := by
  induction branches generalizing staged with
  | nil => exact Building.outcome_of_ok (Building.forM_setWeight b staged)
  | cons branch rest ih =>
    rw [List.foldlM_cons, List.foldlM_cons, addBranch, addWeight_eq_map, h.resolve_commit,
      bind_assoc]
    have happly := Building.stage_apply b source action staged branch
    cases hresolve : b.resolve source branch.target action (branch.weight.toNat : K) with
    | error e =>
      rw [hresolve] at happly
      exact Building.outcome_of_error (bind_apply_of_error happly)
    | ok e =>
      simp only [hresolve] at happly
      simp only [Except.bind]
      cases htaken : Building.taken staged e with
      | true =>
        rw [if_pos htaken] at happly
        exact Building.outcome_of_error (bind_apply_of_error happly)
      | false =>
        rw [htaken, if_neg Bool.false_ne_true] at happly
        have hrest := ih (h.concat (resolve_eq_ok_iff.mp hresolve).2 htaken
          (branch.weight.toNat : K))
        rw [commit_concat] at hrest
        refine Eq.trans ?_ hrest
        rw [Building.outcome, Building.outcome, bind_apply_of_ok happly]

/-- **A fan-out is declared branch by branch**, or not at all. -/
theorem addBranches_eq_foldlM (b : Builder K) (source : String) (action : Option String)
    (branches : List Branch) :
    b.addBranches source action branches = branches.foldlM (addBranch source action) b :=
  (shows_nil b).outcome_eq_foldlM source action branches

theorem steps_of_addActions {labels : List String} (h : b.addActions labels = .ok b') :
    ReflTransGen Step b b' := by
  rw [addActions_eq_foldlM] at h
  exact reflTransGen_of_foldlM (fun _ _ _ => step_of_addActions_singleton) h

theorem steps_of_addBranches {source : String} {action : Option String} {branches : List Branch}
    (h : b.addBranches source action branches = .ok b') : ReflTransGen Step b b' := by
  rw [addBranches_eq_foldlM] at h
  exact reflTransGen_of_foldlM (fun _ _ _ => step_of_addWeight) h

/-! ### The invariant -/

/-- What can be relied on in a builder. -/
structure WellFormed (b : Builder K) : Prop where
  /-- The index of states has their labels, at their positions. -/
  follows_states : b.stateIds.Follows b.states 0
  /-- There is one reward for every state. -/
  length_rewards : b.rewards.length = b.states.length
  /-- All rewards are finite. -/
  isFinite_reward : ∀ r ∈ b.rewards, Scalar.isFinite r = true
  /-- The index of actions has their labels, at their positions counted from one. -/
  follows_actions : b.actionIds.Follows b.actions 1
  /-- The store of weights is in order, and holds every edge at most once. -/
  ordered : b.weights.Ordered
  /-- The edges with weights are between declared states, under declared actions. -/
  covers : ∀ x ∈ b.weights, b.Covers x.1
  /-- All weights are finite. -/
  isFinite_weight : ∀ x ∈ b.weights, Scalar.isFinite x.2 = true
  /-- No weight is negative. -/
  not_neg : ∀ x ∈ b.weights, ¬x.2 < 0

theorem wellFormed_empty : ({} : Builder K).WellFormed where
  follows_states := LabelIndex.follows_nil 0
  length_rewards := rfl
  isFinite_reward := by simp
  follows_actions := LabelIndex.follows_nil 1
  ordered := List.Pairwise.nil
  covers := by simp
  isFinite_weight := by simp
  not_neg := by simp

/-- **A state is found at its position**, and nothing else is found. -/
theorem WellFormed.findState_eq_ok_iff (h : b.WellFormed) {label : String} {i : ℕ} :
    b.findState label = .ok i ↔ b.states[i]? = some label := by
  rw [Builder.findState_eq_ok_iff, h.follows_states]
  simp

/-- **An action is found at its position**, counted from one, and nothing else is found. -/
theorem WellFormed.findAction_eq_ok_iff (h : b.WellFormed) {label : String} {i : ℕ} :
    b.findAction (some label) = .ok i ↔ ∃ j, i = j + 1 ∧ b.actions[j]? = some label := by
  rw [Builder.findAction_eq_ok_iff, h.follows_actions]

theorem WellFormed.lt_of_findState (h : b.WellFormed) {label : String} {i : ℕ}
    (hi : b.findState label = .ok i) : i < b.states.length :=
  (List.getElem?_eq_some_iff.mp (h.findState_eq_ok_iff.mp hi)).1

theorem WellFormed.le_of_findAction (h : b.WellFormed) {action : Option String} {i : ℕ}
    (hi : b.findAction action = .ok i) : i ≤ b.actions.length := by
  cases action with
  | none =>
    obtain rfl : 0 = i := Except.ok.inj hi
    exact Nat.zero_le _
  | some label =>
    obtain ⟨j, rfl, hj⟩ := h.findAction_eq_ok_iff.mp hi
    exact (List.getElem?_eq_some_iff.mp hj).1

/-- What is looked up has been declared. -/
theorem WellFormed.covers_of_names (h : b.WellFormed) {source target : String}
    {action : Option String} {e : Edge} (he : b.Names source target action e) : b.Covers e :=
  ⟨h.lt_of_findState he.source, h.le_of_findAction he.action, h.lt_of_findState he.target⟩

/-- **Every step keeps the invariant.** -/
theorem Step.wellFormed (h : Step b b') (hb : b.WellFormed) : b'.WellFormed := by
  cases h with
  | deadlock choice => exact { hb with }
  | state label reward hfresh hfinite =>
    exact { hb with
      follows_states := hb.follows_states.concat hfresh
      length_rewards := by
        simp only [withState, List.length_append, List.length_singleton, hb.length_rewards]
      isFinite_reward := fun r hr => (List.mem_append.mp hr).elim (hb.isFinite_reward r)
        fun hr => List.mem_singleton.mp hr ▸ hfinite
      covers := fun x hx => (hb.covers x hx).mono (List.prefix_append _ _) List.prefix_rfl }
  | action label hfresh =>
    exact { hb with
      follows_actions := hb.follows_actions.concat hfresh
      covers := fun x hx => (hb.covers x hx).mono List.prefix_rfl (List.prefix_append _ _) }
  | weight source target action e w hnames hfinite hneg _ =>
    have hinsert : ∀ {P : Edge × K → Prop}, P (e, w) → (∀ x ∈ b.weights, P x) →
        ∀ x ∈ b.weights.insert e w, P x := by
      intro P hnew hold x hx
      rcases Weights.eq_or_mem_of_mem_insert hx with rfl | hx
      · exact hnew
      · exact hold x hx
    exact { hb with
      ordered := hb.ordered.insert e w
      covers := hinsert (hb.covers_of_names hnames) hb.covers
      isFinite_weight := hinsert hfinite hb.isFinite_weight
      not_neg := hinsert hneg hb.not_neg }

/-- **No step touches a weight other than zero.** -/
theorem Step.get?_eq_some (h : Step b b') {e : Edge} {w : K} (he : b.weights.get? e = some w)
    (hw : (w == 0) = false) : b'.weights.get? e = some w := by
  cases h with
  | deadlock | state | action => exact he
  | weight source target action f v _ _ _ hzero =>
    refine (Weights.get?_insert _ f e v).trans ((if_neg ?_).trans he)
    rintro rfl
    rw [Weights.weight, he, Option.getD_some, hw] at hzero
    cases hzero

theorem steps_wellFormed (h : ReflTransGen Step b b') (hb : b.WellFormed) : b'.WellFormed := by
  induction h with
  | refl => exact hb
  | tail _ hstep ih => exact hstep.wellFormed ih

theorem steps_get?_eq_some (h : ReflTransGen Step b b') {e : Edge} {w : K}
    (he : b.weights.get? e = some w) (hw : (w == 0) = false) : b'.weights.get? e = some w := by
  induction h with
  | refl => exact he
  | tail _ hstep ih => exact hstep.get?_eq_some ih hw

/-! ### Sessions -/

end Builder

/-- A request to a builder. -/
inductive Call (K : Type) where
  /-- Declare a state. -/
  | state (label : String) (reward : K)
  /-- Declare a block of actions. -/
  | actions (labels : List String)
  /-- Give a transition its weight. -/
  | weight (source target : String) (action : Option String) (w : K)
  /-- Take in what a description says. -/
  | declaration (d : Declaration)
  /-- Settle what becomes of a state without transitions. -/
  | deadlock (choice : Deadlock)

namespace Call

open Relation Builder

variable {K : Type} [Scalar K] {b b' : Builder K} {c : Call K} {e : ModelError K}

/-- What a call does to a builder. -/
def perform : Call K → Building K Unit
  | .state label reward => discard (Building.addState label reward)
  | .actions labels => Building.addActions labels
  | .weight source target action w => Building.updateWeight source target action w
  | .declaration d => sink d
  | .deadlock choice => modify fun b => { b with deadlock := choice }

/-- What a call makes of a builder, if it is accepted. -/
def attempt (b : Builder K) (c : Call K) : Except (ModelError K) (Builder K) :=
  c.perform.outcome b

/-- The builder after a call, whether it has been accepted or refused. -/
def after (b : Builder K) (c : Call K) : Builder K :=
  match c.perform b with
  | .ok _ next => next
  | .error _ left => left

/-- **A call that is refused leaves the builder as it was.** -/
theorem atomic (c : Call K) : Atomic c.perform := by
  cases c with
  | state label reward => exact (Building.atomic_addState label reward).discard
  | actions labels => exact Building.atomic_addActions labels
  | weight source target action w => exact Building.atomic_updateWeight source target action w
  | declaration d =>
    cases d with
    | state label reward => exact (Building.atomic_addState label _).discard
    | actions labels => exact Building.atomic_addActions labels
    | transition source action branches =>
      exact Building.atomic_updateBranches source action branches
  | deadlock choice => exact (NeverFails.modify _).atomic

theorem perform_eq_ok_iff : c.perform b = .ok () b' ↔ c.attempt b = .ok b' := by
  rw [attempt, Building.outcome]
  cases c.perform b <;> simp

theorem perform_eq_error_iff : c.perform b = .error e b' ↔ b' = b ∧ c.attempt b = .error e := by
  rw [attempt, Building.outcome]
  cases h : c.perform b with
  | ok u next => simp
  | error fault left =>
    rw [c.atomic b fault left h]
    simp [eq_comm, and_comm]

theorem after_eq_of_attempt (h : c.attempt b = .ok b') : c.after b = b' := by
  rw [after, perform_eq_ok_iff.mpr h]

/-- A call is accepted, or leaves the builder as it was. -/
theorem attempt_eq_ok_or (b : Builder K) (c : Call K) :
    c.attempt b = .ok (c.after b) ∨ c.after b = b := by
  rw [after]
  cases h : c.perform b with
  | ok u next => exact .inl (perform_eq_ok_iff.mp h)
  | error e left => exact .inr (c.atomic b e left h)

theorem attempt_state (b : Builder K) (label : String) (reward : K) :
    (state label reward).attempt b = b.addState label reward :=
  Building.outcome_discard _ b

theorem attempt_declaration (b : Builder K) (d : Declaration) :
    (declaration d).attempt b =
      match d with
      | .state label reward => b.addState label ((reward.getD 0 : Int) : K)
      | .actions labels => b.addActions labels
      | .transition source action branches => b.addBranches source action branches := by
  cases d with
  | state label reward => exact Building.outcome_discard _ b
  | actions labels => rfl
  | transition source action branches => rfl

theorem steps_of_attempt (h : c.attempt b = .ok b') : ReflTransGen Step b b' := by
  cases c with
  | state label reward => exact .single (step_of_addState ((attempt_state b label reward) ▸ h))
  | actions labels => exact steps_of_addActions h
  | weight source target action w => exact .single (step_of_addWeight h)
  | declaration d =>
    rw [attempt_declaration] at h
    cases d with
    | state label reward => exact .single (step_of_addState h)
    | actions labels => exact steps_of_addActions h
    | transition source action branches => exact steps_of_addBranches h
  | deadlock choice =>
    obtain rfl := Except.ok.inj h
    exact .single (.deadlock b choice)

/-- **Every call is a run of steps.** -/
theorem steps_after (b : Builder K) (c : Call K) : ReflTransGen Step b (c.after b) := by
  rcases c.attempt_eq_ok_or b with h | h
  · exact steps_of_attempt h
  · rw [h]

end Call

namespace Builder

open Relation

variable {K : Type} [Scalar K]

/-- The builder that calls lead to from the empty one, refused calls among them. -/
def session (calls : List (Call K)) : Builder K := calls.foldl Call.after {}

/-- A session that goes on takes steps. -/
theorem steps_session_append (calls later : List (Call K)) :
    ReflTransGen Step (session calls) (session (calls ++ later)) := by
  rw [session, session, List.foldl_append]
  generalize calls.foldl Call.after {} = b
  induction later generalizing b with
  | nil => exact .refl
  | cons c rest ih => exact (Call.steps_after b c).trans (ih (c.after b))

theorem wellFormed_session (calls : List (Call K)) : (session calls).WellFormed :=
  steps_wellFormed (steps_session_append [] calls) wellFormed_empty

/-- **What can be relied on after any calls**, of which any may have been refused:

* the index of states has exactly the labels of the states, each at its position, and there is a
  finite reward for each of them;
* the index of actions has exactly the labels of the actions, each at its position counted from
  one;
* no label is repeated in either list;
* the edges that have weights are between declared states and under declared actions, none has two
  weights, and the weights are finite and not negative;
* a weight other than zero stays as it is, whatever is called later;
* a call that is refused leaves the builder as it was;
* a state, an action or a weight is accepted if it passes its tests, and is then all that is
  written;
* a block of actions and a fan-out have the outcome that their members would have if they were
  declared one after the other. -/
theorem session_sound (calls : List (Call K)) :
    let b := session calls
    (∀ label i, b.stateIds.get? label = some i ↔ b.states[i]? = some label) ∧
    (b.rewards.length = b.states.length ∧ ∀ r ∈ b.rewards, Scalar.isFinite r = true) ∧
    (∀ label i, b.actionIds.get? label = some i ↔ ∃ j, i = j + 1 ∧ b.actions[j]? = some label) ∧
    (b.states.Nodup ∧ b.actions.Nodup) ∧
    (b.weights.Ordered ∧
      ∀ x ∈ b.weights, b.Covers x.1 ∧ Scalar.isFinite x.2 = true ∧ ¬x.2 < 0) ∧
    (∀ later e w, b.weights.get? e = some w → (w == 0) = false →
      (session (calls ++ later)).weights.get? e = some w) ∧
    (∀ (c : Call K) e b', c.perform b = .error e b' → b' = b) ∧
    (∀ label reward i b', Building.addState label reward b = .ok i b' ↔
      (label ∉ b.states ∧ Scalar.isFinite reward = true) ∧
        i = b.states.length ∧ b.withState label reward = b') ∧
    (∀ label b', b.addActions [label] = .ok b' ↔
      label ∉ b.actions ∧ b.withAction label = b') ∧
    (∀ source target action w b', b.addWeight source target action w = .ok b' ↔
      ∃ e, ((b.Names source target action e ∧ Scalar.isFinite w = true ∧ ¬w < 0) ∧
        (b.weights.weight e == 0) = true) ∧ b.withWeight e w = b') ∧
    (∀ labels, b.addActions labels = labels.foldlM (fun b label => b.addActions [label]) b) ∧
    ∀ source action branches, b.addBranches source action branches
      = branches.foldlM (addBranch source action) b := by
  intro b
  have hb : b.WellFormed := wellFormed_session calls
  refine ⟨fun label i => ?_, ⟨hb.length_rewards, hb.isFinite_reward⟩, hb.follows_actions,
    ⟨hb.follows_states.nodup, hb.follows_actions.nodup⟩,
    ⟨hb.ordered, fun x hx => ⟨hb.covers x hx, hb.isFinite_weight x hx, hb.not_neg x hx⟩⟩,
    fun later e w he hw => ?_, fun c => c.atomic b, fun label reward i b' => ?_,
    fun label b' => ?_, fun source target action w b' => addWeight_eq_ok_iff,
    addActions_eq_foldlM b, addBranches_eq_foldlM b⟩
  · rw [hb.follows_states]
    simp
  · exact steps_get?_eq_some (steps_session_append calls later) he hw
  · rw [← hb.follows_states.get?_eq_none_iff]
    exact run_addState_iff
  · rw [← hb.follows_actions.get?_eq_none_iff]
    exact addActions_singleton_eq_ok_iff

end Builder

end MarkovDecision
