import Mathlib.Data.List.Nodup
import MarkovDecision.Model.Builder
import MarkovDecision.Proofs.Outcome

/-!
# What the calls to a builder write

What is declared is kept in a store of weights, in two lists of labels and in two indices,
which are written to on their own. A store stays in the order of its edges
(`Weights.Ordered.insert`), and an index keeps up with its list if every label that is
appended there is written here with the next number (`LabelIndex.Follows.concat`).

The calls are programs that make their tests, change a builder in several writes, and may
break off at any test. For each of them it is said what it leaves behind: where it
succeeds, the builder with all the writes made (`Builder.withState` and its like), and
where it fails, the builder as it was (`Building.atomic_addState` and its like). A call that
takes in several things makes the tests of all of them in one sweep and the writes in
another, so that there the second half is one that cannot fail.
-/

namespace MarkovDecision

/-! ### The store of weights -/

namespace Edge

theorem before_trans {e f g : Edge} (hef : e.before f = true) (hfg : f.before g = true) :
    e.before g = true := by
  simp only [before, Bool.or_eq_true, Bool.and_eq_true, decide_eq_true_eq, beq_iff_eq] at *
  omega

theorem before_of_not_before {e f : Edge} (hne : f ≠ e) (h : ¬e.before f = true) :
    f.before e = true := by
  obtain ⟨s, a, t⟩ := e
  obtain ⟨s', a', t'⟩ := f
  simp only [before, Bool.or_eq_true, Bool.and_eq_true, decide_eq_true_eq, beq_iff_eq, ne_eq,
    Edge.mk.injEq] at *
  omega

end Edge

namespace Weights

variable {K : Type} {ws : Weights K} {e f : Edge} {w : K}

/-- Reading a store after an insertion. -/
theorem get?_insert (ws : Weights K) (e f : Edge) (w : K) :
    (ws.insert e w).get? f = if e = f then some w else ws.get? f := by
  induction ws with
  | nil => rfl
  | cons head rest ih =>
    obtain ⟨g, v⟩ := head
    simp only [Weights.insert]
    by_cases hbefore : e.before g
    · rw [if_pos hbefore]
      rfl
    rw [if_neg hbefore]
    by_cases hge : g = e
    · rw [if_pos hge, hge]
      by_cases hef : e = f <;> simp [Weights.get?, hef]
    · rw [if_neg hge]
      by_cases hgf : g = f
      · have hef : e ≠ f := fun h => hge (hgf.trans h.symm)
        simp [Weights.get?, hgf, hef]
      · simp [Weights.get?, hgf, ih]

theorem weight_insert [Scalar K] (ws : Weights K) (e f : Edge) (w : K) :
    (ws.insert e w).weight f = if e = f then w else ws.weight f := by
  rw [weight, get?_insert]
  split_ifs <;> rfl

theorem eq_or_mem_of_mem_insert {x : Edge × K} (h : x ∈ ws.insert e w) : x = (e, w) ∨ x ∈ ws := by
  induction ws with
  | nil => exact .inl (List.mem_singleton.mp h)
  | cons head rest ih =>
    obtain ⟨g, v⟩ := head
    simp only [Weights.insert] at h
    split_ifs at h
    · exact List.mem_cons.mp h
    · exact (List.mem_cons.mp h).imp_right (List.mem_cons_of_mem _)
    · rcases List.mem_cons.mp h with rfl | h
      · exact .inr List.mem_cons_self
      · exact (ih h).imp_right (List.mem_cons_of_mem _)

theorem mem_of_get? (h : ws.get? e = some w) : (e, w) ∈ ws := by
  induction ws with
  | nil => cases h
  | cons head rest ih =>
    obtain ⟨g, v⟩ := head
    simp only [get?] at h
    split_ifs at h with hge
    · rw [← hge, ← Option.some.inj h]
      exact List.mem_cons_self
    · exact List.mem_cons_of_mem _ (ih h)

/-- The edges increase along the store; in particular each occurs once. -/
def Ordered (ws : Weights K) : Prop := ws.Pairwise fun x y => x.1.before y.1 = true

/-- **An insertion keeps the order.** -/
theorem Ordered.insert (h : ws.Ordered) (e : Edge) (w : K) : Ordered (ws.insert e w) := by
  induction ws with
  | nil => exact List.pairwise_singleton _ _
  | cons head rest ih =>
    obtain ⟨g, v⟩ := head
    obtain ⟨hhead, hrest⟩ := List.pairwise_cons.mp h
    simp only [Weights.insert]
    split_ifs with hbefore hge
    · refine List.pairwise_cons.mpr ⟨fun x hx => ?_, h⟩
      rcases List.mem_cons.mp hx with rfl | hx
      · exact hbefore
      · exact Edge.before_trans hbefore (hhead x hx)
    · subst hge
      exact List.pairwise_cons.mpr ⟨hhead, hrest⟩
    · refine List.pairwise_cons.mpr ⟨fun x hx => ?_, ih hrest⟩
      rcases eq_or_mem_of_mem_insert hx with rfl | hx
      · exact Edge.before_of_not_before hge hbefore
      · exact hhead x hx

end Weights

/-! ### Indices -/

/-- Reading an index after an insertion. -/
theorem LabelIndex.get?_insert (ids : LabelIndex) (label other : String) (i : ℕ) :
    (ids.insert label i).get? other = if label = other then some i else ids.get? other := by
  induction ids with
  | nil => rfl
  | cons head rest ih =>
    obtain ⟨l, j⟩ := head
    simp only [LabelIndex.insert]
    by_cases hl : l = label
    · rw [if_pos hl, hl]
      by_cases hother : label = other <;> simp [LabelIndex.get?, hother]
    · rw [if_neg hl]
      by_cases hlo : l = other
      · have hother : label ≠ other := fun h => hl (hlo.trans h.symm)
        simp [LabelIndex.get?, hlo, hother]
      · simp [LabelIndex.get?, hlo, ih]

/-- An index that has a label has it at some number. -/
theorem LabelIndex.get?_isSome_insert (ids : LabelIndex) (label other : String) (i : ℕ) :
    ((ids.insert label i).get? other).isSome = (label == other || (ids.get? other).isSome) := by
  rw [get?_insert]
  by_cases h : label = other <;> simp [h]

/-- An index has the labels of a list and no others, each at its position counted from a first
number. -/
def LabelIndex.Follows (ids : LabelIndex) (labels : List String) (first : ℕ) : Prop :=
  ∀ label i, ids.get? label = some i ↔ ∃ j, i = j + first ∧ labels[j]? = some label

theorem LabelIndex.follows_nil (first : ℕ) : LabelIndex.Follows [] [] first := by
  simp [Follows, get?]

/-- **An index keeps up with its list** when a new label is appended to the list and the next number
is written for it. -/
theorem LabelIndex.Follows.concat {ids : LabelIndex} {labels : List String} {first : ℕ}
    (h : ids.Follows labels first) {label : String} (hfresh : ids.get? label = none) :
    LabelIndex.Follows (ids.insert label (labels.length + first)) (labels ++ [label]) first := by
  intro l i
  rw [get?_insert]
  by_cases hl : label = l
  · subst hl
    have hnew : ∀ j, labels[j]? ≠ some label := fun j hj => by
      rw [(h label _).mpr ⟨j, rfl, hj⟩] at hfresh
      cases hfresh
    rw [if_pos rfl, Option.some_inj]
    constructor
    · rintro rfl
      exact ⟨labels.length, rfl, List.getElem?_concat_length⟩
    · rintro ⟨j, rfl, hj⟩
      rw [List.getElem?_append] at hj
      split at hj
      · exact absurd hj (hnew j)
      next hle =>
        rw [List.getElem?_singleton] at hj
        split at hj
        · omega
        · cases hj
  · rw [if_neg hl, h]
    refine exists_congr fun j => and_congr_right fun _ => ?_
    rw [List.getElem?_append]
    split
    · exact Iff.rfl
    next hle =>
      rw [List.getElem?_eq_none (Nat.le_of_not_lt hle), List.getElem?_singleton]
      split <;> simp [hl]

/-- No label occurs twice in a list that an index follows. -/
theorem LabelIndex.Follows.nodup {ids : LabelIndex} {labels : List String} {first : ℕ}
    (h : ids.Follows labels first) : labels.Nodup := by
  refine List.nodup_iff_injective_get.mpr fun i j hij => Fin.ext ?_
  have hi := (h (labels.get i) _).mpr ⟨i, rfl, List.getElem?_eq_getElem i.isLt⟩
  have hj := (h (labels.get j) _).mpr ⟨j, rfl, List.getElem?_eq_getElem j.isLt⟩
  rw [hij, hj] at hi
  exact Nat.add_right_cancel (Option.some.inj hi).symm

/-- A label is new to the index if it is new to the list. -/
theorem LabelIndex.Follows.get?_eq_none_iff {ids : LabelIndex} {labels : List String} {first : ℕ}
    (h : ids.Follows labels first) {label : String} :
    ids.get? label = none ↔ label ∉ labels := by
  rw [List.mem_iff_getElem?, Option.eq_none_iff_forall_not_mem]
  constructor
  · rintro hnone ⟨j, hj⟩
    exact hnone _ ((h label _).mpr ⟨j, rfl, hj⟩)
  · intro hnot i hi
    obtain ⟨j, -, hj⟩ := (h label i).mp hi
    exact hnot ⟨j, hj⟩

namespace Builder

variable {K : Type}

/-! ### What is written -/

/-- The builder after a state has been written. -/
def withState (b : Builder K) (label : String) (reward : K) : Builder K :=
  { b with
    states := b.states ++ [label]
    stateIds := b.stateIds.insert label b.states.length
    rewards := b.rewards ++ [reward] }

/-- The builder after an action has been written. -/
def withAction (b : Builder K) (label : String) : Builder K :=
  { b with
    actions := b.actions ++ [label]
    actionIds := b.actionIds.insert label (b.actions.length + 1) }

/-- The builder after a weight has been written. -/
def withWeight (b : Builder K) (e : Edge) (w : K) : Builder K :=
  { b with weights := b.weights.insert e w }

/-- The builder after the weights of a batch have been written, in order. -/
def commit (b : Builder K) (staged : List (Edge × K)) : Builder K :=
  staged.foldl (fun b (e, w) => b.withWeight e w) b

theorem commit_concat (b : Builder K) (staged : List (Edge × K)) (e : Edge) (w : K) :
    b.commit (staged ++ [(e, w)]) = (b.commit staged).withWeight e w := by
  rw [commit, List.foldl_append]
  rfl

/-- The index of actions has a label. -/
def declaresAction (b : Builder K) (label : String) : Bool := (b.actionIds.get? label).isSome

theorem declaresAction_foldl_withAction (b : Builder K) (seen : List String) (label : String) :
    (seen.foldl withAction b).declaresAction label
      = (seen.contains label || b.declaresAction label) := by
  induction seen generalizing b with
  | nil => rfl
  | cons l rest ih =>
    have hl : (b.withAction l).declaresAction label = (l == label || b.declaresAction label) :=
      LabelIndex.get?_isSome_insert _ _ _ _
    rw [List.foldl_cons, ih, hl, List.contains_cons, Bool.or_left_comm, Bool.or_assoc,
      BEq.comm]

end Builder

/-! ### Programs, by their outcomes -/

namespace Building

open Builder

variable {K : Type} {b b' : Builder K}

theorem outcome_of_ok {α : Type} {x : Building K α} {a : α} (h : x b = .ok a b') :
    x.outcome b = .ok b' := by
  rw [outcome, h]

theorem outcome_of_error {α : Type} {x : Building K α} {e : ModelError K}
    (h : x b = .error e b') : x.outcome b = .error e := by
  rw [outcome, h]

theorem outcome_discard {α : Type} (x : Building K α) (b : Builder K) :
    Building.outcome (discard x) b = x.outcome b := by
  cases h : x b with
  | ok a next => exact (outcome_of_ok (discard_apply_of_ok h)).trans (outcome_of_ok h).symm
  | error e left =>
    exact (outcome_of_error (discard_apply_of_error h)).trans (outcome_of_error h).symm

/-! ### Actions -/

theorem testAction_apply (b : Builder K) (seen : List String) (label : String) :
    testAction seen label b =
      if seen.contains label || b.declaresAction label then .error (.duplicateAction label) b
      else .ok (seen ++ [label]) b := by
  by_cases hlabel : (seen.contains label || b.declaresAction label) = true
  · rw [if_pos hlabel]
    exact congrFun (if_pos hlabel) b
  · rw [if_neg hlabel]
    exact congrFun (if_neg hlabel) b

theorem onlyReads_testAction (seen : List String) (label : String) :
    OnlyReads (testAction seen label : Building K (List String)) := by
  constructor
  · intro b e b' h
    rw [testAction_apply] at h
    split at h <;> cases h
    rfl
  · intro b all b' h
    rw [testAction_apply] at h
    split at h <;> cases h
    rfl

theorem appendAction_apply (b : Builder K) (label : String) :
    appendAction label b = .ok () (b.withAction label) := by
  have hlength : (b.actions ++ [label]).length = b.actions.length + 1 := List.length_append
  rw [withAction, ← hlength]
  rfl

theorem forM_appendAction (b : Builder K) (labels : List String) :
    labels.forM appendAction b = .ok () (labels.foldl withAction b) := by
  induction labels generalizing b with
  | nil => rfl
  | cons label rest ih => exact (bind_apply_of_ok (appendAction_apply b label)).trans (ih _)

/-- **All labels of a block are tested** before the first of them is written. -/
theorem atomic_addActions (labels : List String) :
    Atomic (Building.addActions labels : Building K Unit) := by
  refine (OnlyReads.foldlM onlyReads_testAction labels []).bind_atomic fun _ => ?_
  exact (NeverFails.forM (fun label => (NeverFails.modify _).bind fun _ => .modify _)
    labels).atomic

/-! ### States and weights -/

theorem forM_setWeight (b : Builder K) (staged : List (Edge × K)) :
    (staged.forM fun (edge, weight) => setWeight edge weight : Building K Unit) b
      = .ok () (b.commit staged) := by
  induction staged generalizing b with
  | nil => rfl
  | cons x rest ih => exact ih (b.withWeight x.1 x.2)

variable [Scalar K]

theorem addState_apply (b : Builder K) (label : String) (reward : K) :
    Building.addState label reward b =
      if (b.stateIds.get? label).isSome then .error (.duplicateState label) b
      else if Scalar.isFinite reward then .ok b.states.length (b.withState label reward)
      else .error (.invalidReward label reward) b := by
  have hread : (get : Building K (Builder K)) b = .ok b b := rfl
  rw [Building.addState, bind_apply_of_ok hread]
  cases (b.stateIds.get? label).isSome <;> cases Scalar.isFinite reward <;> rfl

/-- A state is written after all tests. -/
theorem atomic_addState (label : String) (reward : K) :
    Atomic (Building.addState label reward) := by
  intro b e b' h
  rw [addState_apply] at h
  repeat' split at h
  all_goals cases h
  all_goals rfl

/-- Looking a transition up only reads. -/
theorem resolve_apply (b : Builder K) (source target : String) (action : Option String) (w : K) :
    resolve source target action w b
      = (MonadExcept.ofExcept (b.resolve source target action w) : Building K Edge) b := rfl

theorem resolve_apply_of_ok {source target : String} {action : Option String} {w : K} {e : Edge}
    (h : b.resolve source target action w = .ok e) :
    resolve source target action w b = .ok e b := by
  rw [resolve_apply, h]
  rfl

theorem resolve_apply_of_error {source target : String} {action : Option String} {w : K}
    {e : ModelError K} (h : b.resolve source target action w = .error e) :
    resolve source target action w b = .error e b := by
  rw [resolve_apply, h]
  rfl

theorem updateWeight_apply (b : Builder K) (source target : String) (action : Option String)
    (w : K) : updateWeight source target action w b =
      match b.resolve source target action w with
      | .ok e => .ok () (b.withWeight e w)
      | .error e => .error e b := by
  cases hresolve : b.resolve source target action w with
  | ok e => exact bind_apply_of_ok (resolve_apply_of_ok hresolve)
  | error e => exact bind_apply_of_error (resolve_apply_of_error hresolve)

/-- A weight is written after all tests. -/
theorem atomic_updateWeight (source target : String) (action : Option String) (w : K) :
    Atomic (updateWeight source target action w) := by
  intro b e b' h
  rw [updateWeight_apply] at h
  split at h <;> cases h
  rfl

/-- Some staged edge has been given a weight that may not be replaced. -/
def taken (staged : List (Edge × K)) (e : Edge) : Bool :=
  staged.any fun (f, w) => f = e && !(w == 0)

theorem stage_apply (b : Builder K) (source : String) (action : Option String)
    (staged : List (Edge × K)) (branch : Branch) :
    stage source action staged branch b =
      match b.resolve source branch.target action (branch.weight.toNat : K) with
      | .ok e =>
        if taken staged e then .error (.duplicateTransition source action branch.target) b
        else .ok (staged ++ [(e, (branch.weight.toNat : K))]) b
      | .error e => .error e b := by
  cases hresolve : b.resolve source branch.target action (branch.weight.toNat : K) with
  | error e => exact bind_apply_of_error (resolve_apply_of_error hresolve)
  | ok e =>
    refine (bind_apply_of_ok (resolve_apply_of_ok hresolve)).trans ?_
    by_cases htaken : taken staged e = true
    · simp only [htaken, if_true]
      exact congrFun (if_pos htaken) b
    · simp only [htaken]
      exact congrFun (if_neg htaken) b

theorem onlyReads_stage (source : String) (action : Option String) (staged : List (Edge × K))
    (branch : Branch) : OnlyReads (stage source action staged branch) := by
  constructor
  · intro b e b' h
    rw [stage_apply] at h
    repeat' split at h
    all_goals cases h
    all_goals rfl
  · intro b all b' h
    rw [stage_apply] at h
    repeat' split at h
    all_goals cases h
    rfl

/-- **All branches of a fan-out are tested** before the first of them is written. -/
theorem atomic_updateBranches (source : String) (action : Option String)
    (branches : List Branch) :
    Atomic (updateBranches source action branches : Building K Unit) := by
  refine (OnlyReads.foldlM (onlyReads_stage source action) branches []).bind_atomic fun _ => ?_
  exact (NeverFails.forM (fun _ => .modify _) _).atomic

end Building

end MarkovDecision
