import MarkovDecision.Proofs.Model.Stochastic
import MarkovDecision.Proofs.Outcome
import MarkovDecision.Random.Generator
import MarkovDecision.Simulation.Run

/-!
# Every run is a legal one

A simulation is at the mercy of two things it does not control: a policy, which may
keep state, draw at random and answer with any number, and the draws of a random
source. Together they are a *world*, and a policy is any function of the history and
the world. Whatever the two do, a run goes from state to state by enabled actions
with positive probability, or it says why it does not (`Model.simulate_legal`).

The run is described apart from the program. `Chooses` is how an action is come by,
`Refused` how it is not, and a `Course` is a legal run with the world after it. What
the program returns is one of three things (`Ends`), and which of them is settled by
the course that the run takes.

Legality is not a matter of exact arithmetic. The walk along a row adds up
probabilities until their sum reaches the draw, and where rounding keeps it from doing
so, it takes the last target with positive probability – or, if there were none, the
state it came from. So all that has to be known of a model is that an enabled row has a
positive entry (`Model.Supported`). The builder enables a row because its sum is positive,
and all that this needs of the arithmetic, rounded or not, is that a sum is positive only
if one of its terms is (`Scalar.KeepsSigns`).
-/

namespace MarkovDecision

/-! ### Rows that lead somewhere -/

section Rows

variable {K : Type} [Scalar K]

/-- Every state enables some action, and every enabled action leads somewhere. -/
structure Model.Supported (m : Model K) : Prop where
  /-- Something is enabled. -/
  enabled_ne_nil : ∀ s, m.enabled.get s ≠ []
  /-- What is enabled has a target. -/
  exists_prob_pos : ∀ s, ∀ a ∈ m.enabled.get s, ∃ t, 0 < m.prob s a t

/-- What an arithmetic has to have in common with the exact one, whether it rounds or not: one is
positive, zero is not, and a sum is positive only if one of its terms is. -/
structure Scalar.KeepsSigns (K : Type) [Scalar K] : Prop where
  /-- One is positive. -/
  one_pos : (0 : K) < 1
  /-- Zero is not. -/
  not_zero_pos : ¬(0 : K) < 0
  /-- A positive sum has a positive term. -/
  pos_of_add_pos : ∀ x y : K, 0 < x + y → 0 < x ∨ 0 < y

namespace Scalar

/-- Exact arithmetic does. -/
theorem keepsSigns_rational : KeepsSigns ℚ := by
  refine ⟨one_pos, lt_irrefl 0, fun x y hsum => ?_⟩
  by_contra! hnot
  linarith

namespace KeepsSigns

variable (hK : KeepsSigns K)

include hK

theorem not_add_pos {x y : K} (hx : ¬0 < x) (hy : ¬0 < y) : ¬0 < x + y := fun hsum =>
  (hK.pos_of_add_pos x y hsum).elim hx hy

theorem not_foldl_pos {sum : K} {xs : List K} (hsum : ¬0 < sum) (hxs : ∀ x ∈ xs, ¬0 < x) :
    ¬0 < xs.foldl (· + ·) sum := by
  induction xs generalizing sum with
  | nil => exact hsum
  | cons x rest ih =>
    obtain ⟨hx, hrest⟩ := List.forall_mem_cons.mp hxs
    exact ih (hK.not_add_pos hsum hx) hrest

theorem not_laneSumFrom_pos {p₀ p₁ p₂ p₃ p₄ p₅ p₆ p₇ : K} {xs : List K} (h₀ : ¬0 < p₀)
    (h₁ : ¬0 < p₁) (h₂ : ¬0 < p₂) (h₃ : ¬0 < p₃) (h₄ : ¬0 < p₄) (h₅ : ¬0 < p₅) (h₆ : ¬0 < p₆)
    (h₇ : ¬0 < p₇) (hxs : ∀ x ∈ xs, ¬0 < x) :
    ¬0 < laneSumFrom p₀ p₁ p₂ p₃ p₄ p₅ p₆ p₇ xs := by
  induction p₀, p₁, p₂, p₃, p₄, p₅, p₆, p₇, xs using laneSumFrom.induct with
  | case1 p₀ p₁ p₂ p₃ p₄ p₅ p₆ p₇ x₀ x₁ x₂ x₃ x₄ x₅ x₆ x₇ rest ih =>
    simp only [List.forall_mem_cons] at hxs
    obtain ⟨hx₀, hx₁, hx₂, hx₃, hx₄, hx₅, hx₆, hx₇, hrest⟩ := hxs
    rw [laneSumFrom]
    exact ih (hK.not_add_pos h₀ hx₀) (hK.not_add_pos h₁ hx₁) (hK.not_add_pos h₂ hx₂)
      (hK.not_add_pos h₃ hx₃) (hK.not_add_pos h₄ hx₄) (hK.not_add_pos h₅ hx₅)
      (hK.not_add_pos h₆ hx₆) (hK.not_add_pos h₇ hx₇) hrest
  | case2 p₀ p₁ p₂ p₃ p₄ p₅ p₆ p₇ rest hrest =>
    rw [laneSumFrom.eq_2 _ _ _ _ _ _ _ _ _ hrest]
    have h04 := hK.not_add_pos hK.not_zero_pos (hK.not_add_pos h₀ h₄)
    have h15 := hK.not_add_pos h04 (hK.not_add_pos h₁ h₅)
    have h26 := hK.not_add_pos h15 (hK.not_add_pos h₂ h₆)
    exact hK.not_foldl_pos (hK.not_add_pos h26 (hK.not_add_pos h₃ h₇)) hxs

/-- **A positive sum has a positive term**, in whatever order it is taken. -/
theorem exists_pos_of_laneSum_pos {xs : List K} (h : 0 < laneSum xs) : ∃ x ∈ xs, 0 < x := by
  by_contra! hnot
  have h0 := hK.not_zero_pos
  exact hK.not_laneSumFrom_pos h0 h0 h0 h0 h0 h0 h0 h0 hnot h

end KeepsSigns

end Scalar

/-- A row that is offered, or has been given a loop, leads somewhere. -/
theorem Builder.exists_entry_pos (hK : Scalar.KeepsSigns K) {b : Builder K}
    {s : Fin b.states.length} {a : Fin (b.actions.length + 1)}
    (ha : a ∈ if (b.offered s).isEmpty then [0] else b.offered s) :
    ∃ t, 0 < (if (b.offered s).isEmpty && decide (a = 0) then replaceAt (b.rawRow s a) s 1
      else b.rawRow s a).get t := by
  split_ifs at ha with hempty
  -- the loop of a state that offers nothing
  · refine ⟨s, ?_⟩
    rw [hempty, List.mem_singleton.mp ha, decide_eq_true rfl, Bool.and_true, if_pos rfl,
      get_replaceAt, if_pos rfl]
    exact hK.one_pos
  · have hsum : 0 < laneSum (b.rawRow s a).toList := of_decide_eq_true (List.mem_filter.mp ha).2
    obtain ⟨x, hx, hpos⟩ := hK.exists_pos_of_laneSum_pos hsum
    rw [toList_eq_map_get] at hx
    obtain ⟨t, -, rfl⟩ := List.mem_map.mp hx
    refine ⟨t, ?_⟩
    rwa [Bool.eq_false_iff.mpr hempty, Bool.false_and, if_neg Bool.false_ne_true]

/-- **What is built enables something everywhere**, in whatever arithmetic. -/
theorem Builder.enabled_ne_nil_of_build {b : Builder K} {initial : Option String} {m : Model K}
    (h : b.build initial = .ok m) (s : m.State) : m.enabled.get s ≠ [] := by
  obtain ⟨start, rfl⟩ := Builder.exists_of_build h
  have henabled : (b.assemble start).enabled.get s
      = if (b.offered s).isEmpty then [0] else b.offered s := get_ofFn _ s
  rw [henabled]
  split_ifs with hempty
  · exact List.cons_ne_nil _ _
  · rwa [List.isEmpty_iff] at hempty

/-- **What is built leads somewhere.** -/
theorem Builder.supported_of_build (hK : Scalar.KeepsSigns K) {b : Builder K}
    {initial : Option String} {m : Model K} (h : b.build initial = .ok m) : m.Supported := by
  have hne := Builder.enabled_ne_nil_of_build h
  obtain ⟨start, rfl⟩ := Builder.exists_of_build h
  have henabled : ∀ s : Fin b.states.length, (b.assemble start).enabled.get s
      = if (b.offered s).isEmpty then [0] else b.offered s := get_ofFn _
  have hprob : ∀ (s t : Fin b.states.length) (a : Fin (b.actions.length + 1)),
      (b.assemble start).prob s a t = (if (b.offered s).isEmpty && decide (a = 0)
        then replaceAt (b.rawRow s a) s 1 else b.rawRow s a).get t := by
    intro s t a
    change (((Vector.ofFn fun s => Vector.ofFn fun a => if (b.offered s).isEmpty && decide (a = 0)
      then replaceAt (b.rawRow s a) s 1 else b.rawRow s a).get s).get a).get t = _
    rw [get_ofFn, get_ofFn]
  refine ⟨hne, fun s a ha => ?_⟩
  obtain ⟨t, ht⟩ := Builder.exists_entry_pos hK (henabled s ▸ ha)
  exact ⟨t, (hprob s t a).symm ▸ ht⟩

/-! ### The walk along a row -/

/-- **The walk ends at a positive entry**, if there is one in front of it or behind. -/
theorem walk_pos {n : ℕ} (row : Vector K n) (u sum : K) {last : Fin n} {l : List (Fin n)}
    (h : 0 < row.get last ∨ ∃ t ∈ l, 0 < row.get t) :
    0 < row.get (walk row u sum last l) := by
  induction l generalizing sum last with
  | nil =>
    rcases h with h | ⟨t, ht, -⟩
    · exact h
    · exact absurd ht List.not_mem_nil
  | cons t rest ih =>
    rw [walk]
    dsimp only
    split_ifs with ht
    · exact ht
    · exact ih _ (.inl ht)
    · refine ih _ (h.imp_right ?_)
      rintro ⟨r, hr, hpos⟩
      rcases List.mem_cons.mp hr with rfl | hr
      · exact absurd hpos ht
      · exact ⟨r, hr, hpos⟩

/-- A target has positive probability, whatever the draw. -/
theorem Model.Supported.prob_sampleTarget_pos {m : Model K} (hm : m.Supported) {s : m.State}
    {a : m.Action} (ha : a ∈ m.enabled.get s) (u : K) :
    0 < m.prob s a (sampleTarget (m.row s a) s u) := by
  obtain ⟨t, ht⟩ := hm.exists_prob_pos s a ha
  exact walk_pos (m.row s a) u 0 (.inr ⟨t, List.mem_finRange t, ht⟩)

end Rows

/-! ### How an action is come by -/

section Worlds

variable {K W : Type} {m : Model K} {policy : Policy (StateM W)} {history : List ℕ} {s : m.State}
  {w w' mid : W} {a : m.Action} {answer : ℕ}

/-- **The action taken in a state**, and the world after it: the only one, or what the policy
answers. -/
inductive Chooses (m : Model K) (policy : Policy (StateM W)) (history : List ℕ) (s : m.State)
    (w : W) : m.Action → W → Prop
  /-- There is only one, and the policy is not asked. -/
  | only {a : m.Action} : m.enabled.get s = [a] → Chooses m policy history s w a w
  /-- There are several, and the policy answers with one of them. -/
  | asked {a : m.Action} {w' : W} : 1 < (m.enabled.get s).length → a ∈ m.enabled.get s →
      policy history w = (a.val, w') → Chooses m policy history s w a w'

/-- **An answer that is refused**: there are several actions, and it is none of them. -/
structure Refused (m : Model K) (policy : Policy (StateM W)) (history : List ℕ) (s : m.State)
    (w : W) (answer : ℕ) (w' : W) : Prop where
  /-- There are several actions. -/
  several : 1 < (m.enabled.get s).length
  /-- The policy answers. -/
  answered : policy history w = (answer, w')
  /-- Its answer is none of them. -/
  not_enabled : ∀ a ∈ m.enabled.get s, a.val ≠ answer

theorem Chooses.mem_enabled (h : Chooses m policy history s w a w') : a ∈ m.enabled.get s := by
  cases h with
  | only honly =>
    rw [honly]
    exact List.mem_singleton_self a
  | asked _ ha _ => exact ha

/-- Either an action is come by, or an answer is refused. -/
theorem chooses_or_refused (hs : m.enabled.get s ≠ []) (policy : Policy (StateM W))
    (history : List ℕ) (w : W) :
    (∃ a w', Chooses m policy history s w a w') ∨
      ∃ answer w', Refused m policy history s w answer w' := by
  rcases henabled : m.enabled.get s with _ | ⟨a, _ | ⟨a', rest⟩⟩
  · exact absurd henabled hs
  · exact .inl ⟨a, w, .only henabled⟩
  · have hseveral : 1 < (m.enabled.get s).length := by simp [henabled]
    by_cases h : ∃ a ∈ m.enabled.get s, a.val = (policy history w).1
    · obtain ⟨a, ha, hanswer⟩ := h
      exact .inl ⟨a, (policy history w).2, .asked hseveral ha (Prod.ext hanswer.symm rfl)⟩
    · push Not at h
      exact .inr ⟨(policy history w).1, (policy history w).2, hseveral, rfl, h⟩

/-- An action is found by its number. -/
theorem find?_val_eq {n : ℕ} {actions : List (Fin n)} {a : Fin n} (ha : a ∈ actions) :
    (actions.find? fun a' => a'.val == a.val) = some a := by
  cases hfind : actions.find? fun a' => a'.val == a.val with
  | none => exact absurd (beq_self_eq_true a.val) (List.find?_eq_none.mp hfind a ha)
  | some a' =>
    have heq := List.find?_some hfind
    rw [Fin.ext (eq_of_beq heq)]

/-- What a policy answers is looked up where there are several actions. -/
theorem takeAction_of_several (hseveral : 1 < (m.enabled.get s).length)
    (hanswer : policy history w = (answer, w')) :
    takeAction m policy history s w =
      match (m.enabled.get s).find? fun a => a.val == answer with
      | some a => (.ok a, w')
      | none => (.error (.invalidPolicyChoice (m.stateLabel s) answer), w') := by
  rw [takeAction]
  generalize m.enabled.get s = actions at hseveral
  rcases actions with _ | ⟨a, _ | ⟨a', rest⟩⟩
  · cases hseveral
  · exact absurd hseveral (lt_irrefl 1)
  · refine (run_bind_of_ok (run_lift hanswer)).trans ?_
    cases (a :: a' :: rest).find? fun a => a.val == answer <;> rfl

theorem takeAction_of_chooses (h : Chooses m policy history s w a w') :
    takeAction m policy history s w = (.ok a, w') := by
  cases h with
  | only honly =>
    rw [takeAction, honly]
    rfl
  | asked hseveral ha hanswer =>
    rw [takeAction_of_several hseveral hanswer, find?_val_eq ha]

theorem takeAction_of_refused (h : Refused m policy history s w answer w') :
    takeAction m policy history s w
      = (.error (.invalidPolicyChoice (m.stateLabel s) answer), w') := by
  rw [takeAction_of_several h.several h.answered]
  have hfind : ((m.enabled.get s).find? fun a => a.val == answer) = none :=
    List.find?_eq_none.mpr fun a ha heq => h.not_enabled a ha (eq_of_beq heq)
  rw [hfind]

/-! ### One step -/

/-- A check that passes hands its result on and leaves the world as it was. -/
theorem run_checked {ε α : Type} {outcome : Except ε α} {x : α} (h : outcome = .ok x) :
    (checked outcome : ExceptT ε (StateM W) α) w = (.ok x, w) := by
  rw [h]
  rfl

theorem Model.checkState_val (s : m.State) : m.checkState s.val = .ok s := dif_pos s.isLt

variable [Scalar K] [RandomMonad (StateM W)] {past : List ℕ} {u : K}

/-- **A step takes the action that is come by, and then draws.** -/
theorem step_of_chooses (h : Chooses m policy (s.val :: past) s w a mid)
    (hdraw : (drawUnit : StateM W K) mid = (u, w')) :
    step m policy (s.val :: past) w = (.ok ⟨a, sampleTarget (m.row s a) s u⟩, w') := by
  rw [step]
  refine (run_bind_of_ok (run_checked (m.checkState_val s))).trans ?_
  refine (run_bind_of_ok (takeAction_of_chooses h)).trans ?_
  exact run_bind_of_ok (run_lift hdraw)

/-- A step ends with an answer that is refused. -/
theorem step_of_refused (h : Refused m policy (s.val :: past) s w answer w') :
    step m policy (s.val :: past) w
      = (.error (.invalidPolicyChoice (m.stateLabel s) answer), w') := by
  rw [step]
  refine (run_bind_of_ok (run_checked (m.checkState_val s))).trans ?_
  exact run_bind_of_error (takeAction_of_refused h)

/-! ### Courses -/

/-- **A legal run** of a number of steps from a state and a world: its path, and the world after
it. Every step takes an action that is come by rightly, and goes where the next draw leads, which
is a target of that action. -/
inductive Course (m : Model K) (policy : Policy (StateM W)) (start : m.State) (w : W) :
    ℕ → Path m → W → Prop
  /-- No step. -/
  | start : Course m policy start w 0 ⟨[start], none⟩ w
  /-- One step more. -/
  | step {n : ℕ} {s t : m.State} {past : List m.State} {last : Option m.Action} {a : m.Action}
      {u : K} {w₁ w₂ w₃ : W} :
      Course m policy start w n ⟨s :: past, last⟩ w₁ →
      Chooses m policy ((s :: past).map Fin.val) s w₁ a w₂ →
      (drawUnit : StateM W K) w₂ = (u, w₃) → sampleTarget (m.row s a) s u = t →
      0 < m.prob s a t → Course m policy start w (n + 1) ⟨t :: s :: past, some a⟩ w₃

variable {start : m.State} {n : ℕ} {path : Path m}

namespace Course

theorem length_trail (h : Course m policy start w n path w') : path.trail.length = n + 1 := by
  induction h with
  | start => rfl
  | step _ _ _ _ _ ih => exact congrArg (· + 1) ih

/-- A run of some steps has one state more. -/
theorem length_states (h : Course m policy start w n path w') : path.states.length = n + 1 := by
  rw [Path.states, List.length_reverse, h.length_trail]

/-- A run begins at its start. -/
theorem head?_states (h : Course m policy start w n path w') :
    path.states.head? = some start := by
  rw [Path.states, List.head?_reverse]
  induction h with
  | start => rfl
  | step _ _ _ _ _ ih => rwa [List.getLast?_cons_cons]

/-- **Every step of a course is a legal one**: the run up to it is a course, the action is come by
there and leads on with positive probability, and the action of the last step is the one that the
path shows. -/
theorem exists_step (h : Course m policy start w n path w') {later past : List m.State}
    {t s : m.State} (hsplit : path.trail = later ++ t :: s :: past) :
    ∃ last w₁ a w₂, Course m policy start w past.length ⟨s :: past, last⟩ w₁ ∧
      Chooses m policy ((s :: past).map Fin.val) s w₁ a w₂ ∧ a ∈ m.enabled.get s ∧
      0 < m.prob s a t ∧ (later = [] → path.lastAction = some a) := by
  induction h generalizing later with
  | start =>
    rcases later with _ | ⟨_, _ | _⟩
    all_goals cases hsplit
  | @step n _ _ _ last a _ w₁ w₂ _ hcourse hchoice _ _ hpos ih =>
    cases later with
    | nil =>
      cases hsplit
      obtain rfl : past.length = n := Nat.succ.inj hcourse.length_trail
      exact ⟨last, w₁, a, w₂, hcourse, hchoice, hchoice.mem_enabled, hpos, fun _ => rfl⟩
    | cons _ later =>
      obtain ⟨last, w₁, a, w₂, hup, hfrom, hmem, hleads, -⟩ := ih (List.cons.inj hsplit).2
      exact ⟨last, w₁, a, w₂, hup, hfrom, hmem, hleads, nofun⟩

/-- The path shows no action exactly if there was no step. -/
theorem lastAction_eq_none_iff (h : Course m policy start w n path w') :
    path.lastAction = none ↔ n = 0 := by
  cases h with
  | start => exact ⟨fun _ => rfl, fun _ => rfl⟩
  | step =>
    constructor
    · rintro ⟨⟩
    · rintro ⟨⟩

/-- **The program runs along a course**: it goes on from the end of it with the steps that are
left. -/
theorem prolong_eq (h : Course m policy start w n path w') (k : ℕ) :
    prolong m policy (n + k) [start.val] ⟨[start], none⟩ w
      = prolong m policy k path.history path w' := by
  induction h generalizing k with
  | start => rw [Nat.zero_add]; rfl
  | @step n s t past last a u w₁ w₂ w₃ _ hchoice hdraw htarget _ ih =>
    rw [Nat.add_assoc, Nat.add_comm 1 k, ih, prolong]
    refine (run_bind_of_ok (step_of_chooses hchoice hdraw)).trans ?_
    rw [htarget]
    rfl

end Course

/-! ### How a run ends -/

/-- **What becomes of a run** of a number of steps from an index: the answer, and the world after
it. -/
inductive Ends (m : Model K) (policy : Policy (StateM W)) (n : ℕ) (index : ℕ) (w : W) :
    Except (ModelError K) (Path m) → W → Prop
  /-- It does not start, as the index is not one of a state. -/
  | nowhere : m.size ≤ index → Ends m policy n index w (.error (.invalidState index m.size)) w
  /-- It comes to a state where the policy's answer is refused. -/
  | refused {start s : m.State} {k : ℕ} {past : List m.State} {last : Option m.Action}
      {answer : ℕ} {w₁ w₂ : W} : start.val = index → k < n →
      Course m policy start w k ⟨s :: past, last⟩ w₁ →
      Refused m policy ((s :: past).map Fin.val) s w₁ answer w₂ →
      Ends m policy n index w (.error (.invalidPolicyChoice (m.stateLabel s) answer)) w₂
  /-- It makes all its steps. -/
  | done {start : m.State} {path : Path m} {w' : W} : start.val = index →
      Course m policy start w n path w' → Ends m policy n index w (.ok path) w'

/-- Every run ends in one of these ways. -/
theorem exists_ends (hm : m.Supported) (policy : Policy (StateM W)) (n index : ℕ) (w : W) :
    ∃ r w', Ends m policy n index w r w' := by
  rcases le_or_gt m.size index with hout | hin
  · exact ⟨_, w, .nowhere hout⟩
  induction n with
  | zero =>
    have hcourse : Course m policy ⟨index, hin⟩ w 0 ⟨[⟨index, hin⟩], none⟩ w := .start
    exact ⟨_, w, .done rfl hcourse⟩
  | succ n ih =>
    obtain ⟨r, w₁, hends⟩ := ih
    cases hends with
    | nowhere hout => exact absurd hin (not_lt.mpr hout)
    | refused hstart hk hcourse hrefused =>
      exact ⟨_, _, .refused hstart (Nat.lt_succ_of_lt hk) hcourse hrefused⟩
    | @done start path _ hstart hcourse =>
      -- the run has come to a state, and makes one step more or none
      obtain ⟨_ | ⟨s, past⟩, last⟩ := path
      · exact absurd hcourse.length_trail (Nat.succ_ne_zero n).symm
      rcases chooses_or_refused (hm.enabled_ne_nil s) policy ((s :: past).map Fin.val) w₁ with
        ⟨a, w₂, hchoice⟩ | ⟨answer, w₂, hrefused⟩
      · exact ⟨_, _, .done hstart (hcourse.step hchoice rfl rfl
          (hm.prob_sampleTarget_pos hchoice.mem_enabled _))⟩
      · exact ⟨_, w₂, .refused hstart (Nat.lt_succ_self n) hcourse hrefused⟩

/-- The program returns what becomes of the run. -/
theorem simulate_of_ends {index : Option ℕ} {r : Except (ModelError K) (Path m)}
    (h : Ends m policy n (index.getD m.initial.val) w r w') :
    simulate m n policy index w = (r, w') := by
  rw [simulate]
  generalize index.getD m.initial.val = index at h
  cases h with
  | nowhere hout =>
    rw [show m.checkState index = .error (.invalidState index m.size) from
      dif_neg (not_lt.mpr hout)]
    rfl
  | @refused start s k past last answer w₁ _ hstart hk hcourse hrefused =>
    subst hstart
    obtain ⟨j, rfl⟩ := Nat.exists_eq_add_of_lt hk
    refine (run_bind_of_ok (run_checked (m.checkState_val start))).trans ?_
    rw [Nat.add_assoc, hcourse.prolong_eq, prolong]
    exact run_bind_of_error (step_of_refused hrefused)
  | @done start _ _ hstart hcourse =>
    subst hstart
    exact (run_bind_of_ok (run_checked (m.checkState_val start))).trans (hcourse.prolong_eq 0)

/-- **Every run is legal, whatever the policy and the draws.** A run of a model that has been built
ends in one of three ways: it does not start, exactly if the index is not one of a state; it is
broken off, exactly if the policy's answer is refused at a state that enables several actions; or
it is the course of all its steps. A course has one state more than it has steps and begins at its
start. Each of its states is followed by one to which an enabled action leads with positive
probability: the only action of the state, or the one that the policy answered with after the run
up to there. The last of these actions is the one that the path shows, and it shows none exactly
if there was no step. -/
theorem Model.simulate_legal (hK : Scalar.KeepsSigns K) {b : Builder K} {initial : Option String}
    (hm : b.build initial = .ok m) (policy : Policy (StateM W)) (n : ℕ) (index : Option ℕ)
    (w : W) :
    (∀ r w', simulate m n policy index w = (r, w') ↔
      Ends m policy n (index.getD m.initial.val) w r w') ∧
    ∀ start path w', Course m policy start w n path w' →
      path.states.length = n + 1 ∧ path.states.head? = some start ∧
      (∀ later t s past, path.trail = later ++ t :: s :: past →
        ∃ last w₁ a w₂, Course m policy start w past.length ⟨s :: past, last⟩ w₁ ∧
          Chooses m policy ((s :: past).map Fin.val) s w₁ a w₂ ∧ a ∈ m.enabled.get s ∧
          0 < m.prob s a t ∧ (later = [] → path.lastAction = some a)) ∧
      (path.lastAction = none ↔ n = 0) := by
  have hsupported := Builder.supported_of_build hK hm
  refine ⟨fun r w' => ⟨fun hrun => ?_, simulate_of_ends⟩, fun start path w' hcourse => ?_⟩
  · obtain ⟨r₀, w₀, hends⟩ := exists_ends hsupported policy n (index.getD m.initial.val) w
    obtain ⟨rfl, rfl⟩ := Prod.mk.inj ((simulate_of_ends hends).symm.trans hrun)
    exact hends
  · exact ⟨hcourse.length_states, hcourse.head?_states, fun _ _ _ _ => hcourse.exists_step,
      hcourse.lastAction_eq_none_iff⟩

end Worlds

/-- A model with two actions in one state, one of which may lead back to it. -/
def Model.forking : List Declaration :=
  [.state "fork" none, .state "left" none, .state "right" none, .actions ["turn", "keep"],
    .transition "fork" (some "turn") [⟨1, "fork"⟩, ⟨1, "left"⟩],
    .transition "fork" (some "keep") [⟨1, "right"⟩]]

/-- Answers with whatever word comes next. -/
def Policy.whim : Policy (StateM Cycle) := fun _ => do
  let word ← word64
  return word.toNat

/-- At the fork the whim is first right and then wrong: a run of one step is there, and a run of
two is broken off. -/
theorem Model.simulate_legal_forking : ∃ b : Builder ℚ, ∃ m : Model ℚ,
    Builder.ofDeclarations forking = .ok b ∧ b.build none = .ok m ∧
      (∃ start path w', Course m Policy.whim start (Cycle.ofList [1, 0, 7]) 1 path w' ∧
        path.states.length = 2 ∧ path.lastAction ≠ none) ∧
      ∃ w', Ends m Policy.whim 2 m.initial.val (Cycle.ofList [1, 0, 7])
        (.error (.invalidPolicyChoice "fork" 7)) w' := by
  obtain ⟨b, m, hb, hm, htest⟩ := Builder.exists_of_any forking
    (fun m => (simulate m 1 Policy.whim none (Cycle.ofList [1, 0, 7])).1.isOk &&
      match (simulate m 2 Policy.whim none (Cycle.ofList [1, 0, 7])).1 with
      | .error (.invalidPolicyChoice label answer) => label == "fork" && answer == 7
      | _ => false) (by decide +kernel)
  obtain ⟨hone, htwo⟩ := Bool.and_eq_true_iff.mp htest
  obtain ⟨hends₁, hlegal⟩ := simulate_legal Scalar.keepsSigns_rational hm Policy.whim 1 none
    (Cycle.ofList [1, 0, 7])
  obtain ⟨hends₂, -⟩ := simulate_legal Scalar.keepsSigns_rational hm Policy.whim 2 none
    (Cycle.ofList [1, 0, 7])
  refine ⟨b, m, hb, hm, ?_, ?_⟩
  · rcases hrun : simulate m 1 Policy.whim none (Cycle.ofList [1, 0, 7]) with ⟨e | path, w'⟩
    · rw [hrun] at hone
      cases hone
    · cases (hends₁ _ _).mp hrun with
      | done hstart hcourse =>
        obtain ⟨hlength, -, -, hlast⟩ := hlegal _ _ _ hcourse
        exact ⟨_, path, w', hcourse, hlength, fun hnone => one_ne_zero (hlast.mp hnone)⟩
  · split at htwo
    next label answer hanswer =>
      obtain ⟨hlabel, hseven⟩ := Bool.and_eq_true_iff.mp htwo
      rw [eq_of_beq hlabel, eq_of_beq hseven] at hanswer
      exact ⟨_, (hends₂ _ _).mp (Prod.ext hanswer rfl)⟩
    next => cases htwo

end MarkovDecision
