import Mathlib
import MarkovDecision.Proofs.Model.Declaring

/-!
# How transitions are declared does not matter

The same transitions can be declared in many ways: one by one or in fan-outs, in any
order. Two statements say that a builder takes no notice.

* A fan-out does what its branches would do one after the other, if all of them are
  accepted; otherwise it has the error of the first that is refused, and leaves nothing
  behind (`Call.perform_fanOut_iff`).
* Two sequences of declarations that list the same arcs, each between other labels,
  lead to the same builder, or a declaration is refused in each of them
  (`Listing.same_builder_or_refused`).

By the first, a sequence of declarations is the sequence of its arcs
(`Listing.foldlM_attempt_eq`), and grouping is out of the way. For the order it is
enough to exchange two neighbours. Different labels stand for different edges
(`Builder.WellFormed.ends_eq_of_names`), so giving one arc its weight does not touch the
test of the other, and the two insertions commute, because a store in order is determined
by what is read from it (`Weights.Ordered.eq_of_get?_eq`).
-/

namespace MarkovDecision

/-! ### Stores in order -/

theorem Edge.not_before_self (e : Edge) : ¬e.before e = true := by
  simp [before]

namespace Weights

variable {K : Type} {ws vs : Weights K} {e f : Edge} {v w : K}

/-- A store in order finds what it holds. -/
theorem Ordered.get?_eq_some_iff (h : ws.Ordered) : ws.get? e = some w ↔ (e, w) ∈ ws := by
  refine ⟨mem_of_get?, fun hmem => ?_⟩
  induction ws with
  | nil => cases hmem
  | cons head rest ih =>
    obtain ⟨g, v⟩ := head
    obtain ⟨hhead, hrest⟩ := List.pairwise_cons.mp h
    rcases List.mem_cons.mp hmem with heq | hmem
    · cases heq
      exact if_pos rfl
    · have hne : g ≠ e := by
        rintro rfl
        exact g.not_before_self (hhead _ hmem)
      exact (if_neg hne).trans (ih hrest hmem)

/-- **A store in order is determined by what is read from it.** -/
theorem Ordered.eq_of_get?_eq (hws : ws.Ordered) (hvs : vs.Ordered)
    (h : ∀ e, ws.get? e = vs.get? e) : ws = vs := by
  have hirrefl : Std.Irrefl fun x y : Edge × K => x.1.before y.1 = true :=
    ⟨fun x => x.1.not_before_self⟩
  have hantisymm : Std.Antisymm fun x y : Edge × K => x.1.before y.1 = true :=
    ⟨fun x _ hxy hyx => absurd (Edge.before_trans hxy hyx) x.1.not_before_self⟩
  refine hws.eq_of_mem_iff hvs fun ⟨e, w⟩ => ?_
  rw [← hws.get?_eq_some_iff, ← hvs.get?_eq_some_iff, h]

/-- **Insertions at different edges commute.** -/
theorem Ordered.insert_comm (h : ws.Ordered) (hne : e ≠ f) (v w : K) :
    (ws.insert e v).insert f w = (ws.insert f w).insert e v := by
  refine ((h.insert e v).insert f w).eq_of_get?_eq ((h.insert f w).insert e v) fun g => ?_
  simp only [get?_insert]
  by_cases hfg : f = g
  · have heg : e ≠ g := fun h => hne (h.trans hfg.symm)
    rw [if_pos hfg, if_neg heg, if_pos hfg]
  · rw [if_neg hfg, if_neg hfg]

end Weights

/-! ### Calls in a row -/

namespace Call

variable {K : Type} [Scalar K] {b b' : Builder K} {c : Call K} {calls : List (Call K)}
  {e : ModelError K}

/-- Calls one after the other are all accepted, and lead from one builder to another. -/
inductive Accepted : Builder K → List (Call K) → Builder K → Prop
  /-- There are none. -/
  | none (b : Builder K) : Accepted b [] b
  /-- The first is accepted, and so are the others after it. -/
  | cons {b b₁ b₂ : Builder K} {c : Call K} {rest : List (Call K)} :
    c.perform b = .ok () b₁ → Accepted b₁ rest b₂ → Accepted b (c :: rest) b₂

/-- Of calls one after the other, the first that is refused has an error. -/
def FirstRefused (b : Builder K) (calls : List (Call K)) (e : ModelError K) : Prop :=
  ∃ before c behind mid, calls = before ++ c :: behind ∧ Accepted b before mid ∧
    c.perform mid = .error e mid

theorem accepted_iff :
    Accepted b calls b' ↔ calls.foldlM (fun b c => c.attempt b) b = .ok b' := by
  constructor
  · intro h
    induction h with
    | none b => rfl
    | cons hc _ ih =>
      rw [List.foldlM_cons, perform_eq_ok_iff.mp hc]
      exact ih
  · intro h
    induction calls generalizing b with
    | nil =>
      obtain rfl := Except.ok.inj h
      exact .none b
    | cons c rest ih =>
      rw [List.foldlM_cons] at h
      obtain ⟨b₁, hc, hrest⟩ := exists_of_bind_eq_ok h
      exact .cons (perform_eq_ok_iff.mpr hc) (ih hrest)

theorem firstRefused_iff :
    FirstRefused b calls e ↔ calls.foldlM (fun b c => c.attempt b) b = .error e := by
  simp only [FirstRefused, foldlM_eq_error_iff, accepted_iff, perform_eq_error_iff, true_and]

/-- **A fan-out does what its branches do one after the other, all or nothing.** It is accepted
exactly if all of them are, and leads to the same builder; it is refused exactly if one of them is,
with the error of the first such one, and leaves the builder as it was. -/
theorem perform_fanOut_iff (b : Builder K) (source : String) (action : Option String)
    (branches : List Branch) :
    let fanOut : Call K := .declaration (.transition source action branches)
    let singles : List (Call K) := branches.map fun branch =>
      .weight source branch.target action (branch.weight.toNat : K)
    (∀ b', fanOut.perform b = .ok () b' ↔ Accepted b singles b') ∧
      ∀ e b', fanOut.perform b = .error e b' ↔ b' = b ∧ FirstRefused b singles e := by
  intro fanOut singles
  have hsame : fanOut.attempt b = singles.foldlM (fun b c => c.attempt b) b := by
    rw [List.foldlM_map]
    exact Builder.addBranches_eq_foldlM b source action branches
  refine ⟨fun b' => ?_, fun e b' => ?_⟩
  · rw [perform_eq_ok_iff, accepted_iff, hsame]
  · rw [perform_eq_error_iff, firstRefused_iff, hsame]

end Call

/-! ### Arcs -/

/-- A weighted transition by its labels. -/
structure Arc (K : Type) where
  /-- The source state. -/
  source : String
  /-- The action, if there is one. -/
  action : Option String
  /-- The target state. -/
  target : String
  /-- The weight. -/
  weight : K
  deriving DecidableEq

/-- What an arc lies between. -/
def Arc.ends {K : Type} (x : Arc K) : String × Option String × String :=
  (x.source, x.action, x.target)

namespace Builder

variable {K : Type} [Scalar K] {b b' : Builder K} {x y : Arc K} {e f : Edge}

/-- Gives an arc its weight. -/
def addArc (b : Builder K) (x : Arc K) : Except (ModelError K) (Builder K) :=
  b.addWeight x.source x.target x.action x.weight

/-- The edge of an arc may be given its weight. -/
def Admits (b : Builder K) (x : Arc K) (e : Edge) : Prop :=
  (b.Names x.source x.target x.action e ∧ Scalar.isFinite x.weight = true ∧ ¬x.weight < 0) ∧
    (b.weights.weight e == 0) = true

theorem addArc_eq_ok_iff : b.addArc x = .ok b' ↔
    ∃ e, b.Admits x e ∧ b.withWeight e x.weight = b' :=
  addWeight_eq_ok_iff

theorem WellFormed.eq_of_findState (hb : b.WellFormed) {label label' : String} {i : ℕ}
    (h : b.findState label = .ok i) (h' : b.findState label' = .ok i) : label = label' :=
  Option.some.inj ((hb.findState_eq_ok_iff.mp h).symm.trans (hb.findState_eq_ok_iff.mp h'))

theorem WellFormed.eq_of_findAction (hb : b.WellFormed) {action action' : Option String} {i : ℕ}
    (h : b.findAction action = .ok i) (h' : b.findAction action' = .ok i) : action = action' := by
  have hnone : ∀ {i}, b.findAction none = .ok i → i = 0 := fun h => (Except.ok.inj h).symm
  cases action with
  | none =>
    cases action' with
    | none => rfl
    | some label' =>
      obtain ⟨j, rfl, -⟩ := hb.findAction_eq_ok_iff.mp h'
      cases hnone h
  | some label =>
    obtain ⟨j, rfl, hj⟩ := hb.findAction_eq_ok_iff.mp h
    cases action' with
    | none => cases hnone h'
    | some label' =>
      obtain ⟨k, hjk, hk⟩ := hb.findAction_eq_ok_iff.mp h'
      obtain rfl := Nat.succ.inj hjk
      rw [Option.some.inj (hj.symm.trans hk)]

/-- **Different labels stand for different edges.** -/
theorem WellFormed.ends_eq_of_names (hb : b.WellFormed)
    (hx : b.Names x.source x.target x.action e) (hy : b.Names y.source y.target y.action e) :
    x.ends = y.ends := by
  rw [Arc.ends, Arc.ends, hb.eq_of_findState hx.source hy.source,
    hb.eq_of_findAction hx.action hy.action, hb.eq_of_findState hx.target hy.target]

/-- **Whether an arc is admitted** does not depend on the weights of other edges. -/
theorem admits_insert_iff (hne : f ≠ e) (w : K) :
    { b with weights := b.weights.insert f w }.Admits x e ↔ b.Admits x e := by
  have hnames : { b with weights := b.weights.insert f w }.Names x.source x.target x.action e ↔
      b.Names x.source x.target x.action e :=
    ⟨fun h => ⟨h.source, h.target, h.action⟩, fun h => ⟨h.source, h.target, h.action⟩⟩
  rw [Admits, Admits, hnames, Weights.weight_insert, if_neg hne]

/-- **Two arcs between different labels are accepted one after the other** if each of them is
admitted before. -/
theorem WellFormed.addArc_addArc_eq_ok_iff (hb : b.WellFormed) (hne : x.ends ≠ y.ends) :
    (b.addArc x >>= fun b₁ => b₁.addArc y) = .ok b' ↔
      ∃ e f, b.Admits x e ∧ b.Admits y f ∧ e ≠ f ∧
        { b with weights := (b.weights.insert e x.weight).insert f y.weight } = b' := by
  have hedges : ∀ {e f}, b.Admits x e → b.Names y.source y.target y.action f → e ≠ f := by
    rintro e _ hx hy rfl
    exact hne (hb.ends_eq_of_names hx.1.1 hy)
  simp only [bind_eq_ok_iff, addArc_eq_ok_iff]
  constructor
  · rintro ⟨_, ⟨e, hx, rfl⟩, f, hy, rfl⟩
    have hef : e ≠ f := hedges hx ⟨hy.1.1.source, hy.1.1.target, hy.1.1.action⟩
    exact ⟨e, f, hx, (admits_insert_iff hef x.weight).mp hy, hef, rfl⟩
  · rintro ⟨e, f, hx, hy, hef, rfl⟩
    exact ⟨_, ⟨e, hx, rfl⟩, f, (admits_insert_iff hef x.weight).mpr hy, rfl⟩

/-- **Two arcs between different labels can be exchanged.** -/
theorem WellFormed.addArc_comm (hb : b.WellFormed) (hne : x.ends ≠ y.ends) :
    (b.addArc x >>= fun b₁ => b₁.addArc y) = .ok b' ↔
      (b.addArc y >>= fun b₁ => b₁.addArc x) = .ok b' := by
  rw [hb.addArc_addArc_eq_ok_iff hne, hb.addArc_addArc_eq_ok_iff hne.symm]
  constructor
  · rintro ⟨e, f, hx, hy, hef, rfl⟩
    exact ⟨f, e, hy, hx, hef.symm, by rw [hb.ordered.insert_comm hef]⟩
  · rintro ⟨f, e, hy, hx, hfe, rfl⟩
    exact ⟨e, f, hx, hy, hfe.symm, by rw [hb.ordered.insert_comm hfe]⟩

/-- **The order of arcs does not matter**, as long as no two lie between the same labels. -/
theorem WellFormed.foldlM_addArc_perm {xs ys : List (Arc K)} (h : xs.Perm ys) (hb : b.WellFormed)
    (hnodup : (xs.map Arc.ends).Nodup) :
    xs.foldlM addArc b = .ok b' ↔ ys.foldlM addArc b = .ok b' := by
  induction h generalizing b with
  | nil => exact Iff.rfl
  | cons x _ ih =>
    rw [List.foldlM_cons, List.foldlM_cons, bind_eq_ok_iff, bind_eq_ok_iff]
    refine exists_congr fun b₁ => and_congr_right fun hx => ?_
    exact ih ((step_of_addWeight hx).wellFormed hb) (List.nodup_cons.mp hnodup).2
  | swap x y rest =>
    have hne : y.ends ≠ x.ends := fun heq =>
      (List.nodup_cons.mp hnodup).1 (heq ▸ List.mem_cons_self)
    have hpair : ∀ x y : Arc K, (x :: y :: rest).foldlM addArc b
        = (b.addArc x >>= fun b₁ => b₁.addArc y) >>= fun b₂ => rest.foldlM addArc b₂ := by
      intro x y
      simp only [List.foldlM_cons, bind_assoc]
    rw [hpair, hpair, bind_eq_ok_iff, bind_eq_ok_iff]
    exact exists_congr fun b₂ => and_congr_left fun _ => hb.addArc_comm hne
  | trans hxz _ ih₁ ih₂ =>
    exact (ih₁ hb hnodup).trans (ih₂ hb ((hxz.map Arc.ends).nodup_iff.mp hnodup))

end Builder

/-! ### Declarations of transitions -/

/-- A declaration of transitions lists arcs. -/
inductive Listing (K : Type) where
  /-- One arc. -/
  | single (arc : Arc K)
  /-- Branches from one source under one action. -/
  | fanOut (source : String) (action : Option String) (branches : List Branch)

namespace Listing

open Builder

variable {K : Type} [Scalar K]

/-- The arcs that are listed. -/
def arcs : Listing K → List (Arc K)
  | single arc => [arc]
  | fanOut source action branches =>
    branches.map fun branch => ⟨source, action, branch.target, (branch.weight.toNat : K)⟩

/-- The declaration as a call. -/
def call : Listing K → Call K
  | single arc => .weight arc.source arc.target arc.action arc.weight
  | fanOut source action branches => .declaration (.transition source action branches)

/-- A declaration gives its arcs their weights, one after the other. -/
theorem attempt_call (b : Builder K) (l : Listing K) :
    l.call.attempt b = l.arcs.foldlM addArc b := by
  cases l with
  | single arc =>
    rw [arcs, List.foldlM_cons]
    exact (bind_pure _).symm
  | fanOut source action branches =>
    rw [arcs, List.foldlM_map]
    exact addBranches_eq_foldlM b source action branches

/-- **Grouping does not matter**: a sequence of declarations is the sequence of their arcs. -/
theorem foldlM_attempt_eq (b : Builder K) (ls : List (Listing K)) :
    (ls.map call).foldlM (fun b c => c.attempt b) b = (ls.flatMap arcs).foldlM addArc b := by
  induction ls generalizing b with
  | nil => rfl
  | cons l rest ih =>
    rw [List.map_cons, List.foldlM_cons, attempt_call, List.flatMap_cons, List.foldlM_append]
    exact congrArg _ (funext ih)

/-- **The order and the grouping of declarations do not matter.** After any calls, let two
sequences of declarations list the same arcs, no two of which lie between the same labels. Then
either all declarations of both are accepted, and the two builders that they lead to are the same
and build the same; or in each of the two sequences a declaration is refused. -/
theorem same_builder_or_refused (calls : List (Call K)) {first second : List (Listing K)}
    (hsame : (first.flatMap arcs).Perm (second.flatMap arcs))
    (honce : ((first.flatMap arcs).map Arc.ends).Nodup) :
    let b := session calls
    (∃ b₁ b₂, Call.Accepted b (first.map call) b₁ ∧ Call.Accepted b (second.map call) b₂ ∧
      b₁ = b₂ ∧ ∀ initial, b₁.build initial = b₂.build initial) ∨
    ∃ e₁ e₂, Call.FirstRefused b (first.map call) e₁ ∧
      Call.FirstRefused b (second.map call) e₂ := by
  intro b
  have hswap : ∀ b', (first.flatMap arcs).foldlM addArc b = .ok b' ↔
      (second.flatMap arcs).foldlM addArc b = .ok b' :=
    fun b' => (wellFormed_session calls).foldlM_addArc_perm hsame honce
  simp only [Call.accepted_iff, Call.firstRefused_iff, foldlM_attempt_eq]
  cases hfirst : (first.flatMap arcs).foldlM addArc b with
  | ok b' => exact .inl ⟨b', b', rfl, (hswap b').mp hfirst, rfl, fun _ => rfl⟩
  | error e₁ =>
    cases hsecond : (second.flatMap arcs).foldlM addArc b with
    | ok b' => cases hfirst.symm.trans ((hswap b').mpr hsecond)
    | error e₂ => exact .inr ⟨e₁, e₂, rfl, rfl⟩

/-- Two states. -/
def shores : List (Call ℚ) := [.state "left" 0, .state "right" 0]

/-- Transitions between them, by source. -/
def bySource : List (Listing ℚ) :=
  [.fanOut "left" none [⟨1, "left"⟩, ⟨3, "right"⟩], .single ⟨"right", none, "left", 2⟩]

/-- The same transitions, the other way round and one by one. -/
def oneByOne : List (Listing ℚ) :=
  [.single ⟨"right", none, "left", 2⟩, .single ⟨"left", none, "right", 3⟩,
    .fanOut "left" none [⟨1, "left"⟩]]

/-- Either way all declarations are accepted, and there is one builder in the end. -/
theorem same_builder_or_refused_shores :
    (bySource.flatMap arcs).Perm (oneByOne.flatMap arcs) ∧
    ((bySource.flatMap arcs).map Arc.ends).Nodup ∧
    ∃ b : Builder ℚ, Call.Accepted (session shores) (bySource.map call) b ∧
      Call.Accepted (session shores) (oneByOne.map call) b := by
  have hsame : (bySource.flatMap arcs).Perm (oneByOne.flatMap arcs) := by decide +kernel
  have honce : ((bySource.flatMap arcs).map Arc.ends).Nodup := by decide +kernel
  refine ⟨hsame, honce, ?_⟩
  rcases same_builder_or_refused shores hsame honce with
    ⟨b, _, hfirst, hsecond, rfl, -⟩ | ⟨e, -, hrefused, -⟩
  · exact ⟨b, hfirst, hsecond⟩
  · have haccepted : ((bySource.flatMap arcs).foldlM addArc (session shores)).isOk = true := by
      decide +kernel
    rw [← foldlM_attempt_eq, Call.firstRefused_iff.mp hrefused] at haccepted
    cases haccepted

end Listing

end MarkovDecision
