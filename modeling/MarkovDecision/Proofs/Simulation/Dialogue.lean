import MarkovDecision.Proofs.Simulation.Course
import MarkovDecision.Simulation.Dialogue

/-!
# Runs that are steered by answers

A run under the policy that asks depends on two things: the lines of a user, and the
draws of a random source. It is described here apart from the program. `Settles` is one
choice: the lines in front are refused until one of them is the label of an enabled action,
or all of them are, and then the first enabled action is taken. A `Conversation` is a run
with the choices that were made on the way, from the lines of the user to the lines that
are left.

The program never fails, and what it does is a conversation
(`Dialogue.simulate_conversation`). Three things that the builder sees to are behind this:
something is enabled everywhere, actions have labels wherever there are several to choose
from, and no two actions have the same one (`Builder.Reachable.answerable`). Nothing has to
be known of the arithmetic, as a choice does not look at the probabilities.
-/

namespace MarkovDecision

/-! ### Models whose actions can be asked for -/

section Built

variable {K : Type}

/-- **What a question relies on.** -/
structure Model.Answerable (m : Model K) : Prop where
  /-- Something is enabled. -/
  enabled_ne_nil : ∀ s, m.enabled.get s ≠ []
  /-- Where there is a choice, every action has a label. -/
  exists_label : ∀ s, 1 < (m.enabled.get s).length →
    ∀ a ∈ m.enabled.get s, ∃ label, m.actionLabel a = some label
  /-- No two actions have the same label. -/
  eq_of_label : ∀ a a' label, m.actionLabel a = some label → m.actionLabel a' = some label → a = a'

namespace Builder

variable [Scalar K] {b : Builder K} {initial : Option String} {m : Model K}

theorem faultAt_eq_none_of_build (h : b.build initial = .ok m) (s : Fin b.states.length) :
    b.faultAt s = none := by
  simp only [build] at h
  split_ifs at h
  split at h
  next => cases h
  next hnone => exact List.findSome?_eq_none_iff.mp hnone s (List.mem_finRange s)

/-- The action without a name stands alone, in whatever arithmetic. -/
theorem length_offered_of_faultAt {s : Fin b.states.length} (h : b.faultAt s = none)
    (hzero : 0 ∈ b.offered s) : (b.offered s).length = 1 := by
  by_contra hne
  rw [faultAt, if_pos (by simp [hzero, hne])] at h
  cases h

theorem WellFormed.eq_of_actionLabel (hb : b.WellFormed) (start : Fin b.states.length)
    (a a' : (b.assemble start).Action) (label : String)
    (ha : (b.assemble start).actionLabel a = some label)
    (ha' : (b.assemble start).actionLabel a' = some label) : a = a' := by
  have hget : ∀ i : Fin b.actions.length, (b.assemble start).actionLabels.get i
      = b.actions.get i := get_ofFn _
  rcases a with ⟨_ | i, hi⟩
  · cases ha
  rcases a' with ⟨_ | j, hj⟩
  · cases ha'
  have hsame := Option.some.inj (ha.trans ha'.symm)
  have hget' := (hget _).symm.trans (hsame.trans (hget _))
  have hij := Fin.mk.inj (List.nodup_iff_injective_get.mp hb.follows_actions.nodup hget')
  exact Fin.ext (congrArg (· + 1) hij)

/-- **What is built can be asked about.** -/
theorem Reachable.answerable (hb : b.Reachable) (hm : b.build initial = .ok m) :
    m.Answerable := by
  have hne := enabled_ne_nil_of_build hm
  have hfault := faultAt_eq_none_of_build hm
  obtain ⟨start, rfl⟩ := exists_of_build hm
  refine ⟨hne, fun s hseveral a ha => ?_, hb.wellFormed.eq_of_actionLabel start⟩
  have henabled : (b.assemble start).enabled.get s
      = if (b.offered s).isEmpty then [0] else b.offered s := get_ofFn _ s
  rw [henabled] at hseveral ha
  split_ifs at hseveral ha with hempty
  · exact absurd hseveral (lt_irrefl 1)
  rcases a with ⟨_ | i, hi⟩
  · exact absurd (length_offered_of_faultAt (hfault s) ha) hseveral.ne'
  · exact ⟨_, rfl⟩

end Builder

end Built

/-! ### The lines of a text -/

/-- **A text in lines.** A line goes on to the next line break, which belongs to it; the last one
may lack it, and is not empty then. -/
inductive InLines : List Char → List String → Prop
  /-- The empty text has no lines. -/
  | nil : InLines [] []
  /-- What stands behind the last line break. -/
  | last {cs : List Char} : cs ≠ [] → '\n' ∉ cs → InLines cs [String.ofList cs]
  /-- A line with its line break. -/
  | line {cs rest : List Char} {lines : List String} : '\n' ∉ cs → InLines rest lines →
      InLines (cs ++ '\n' :: rest) (String.ofList (cs ++ ['\n']) :: lines)

theorem Dialogue.inLines_linesOf (cs : List Char) {current : List Char} (h : '\n' ∉ current) :
    InLines (current.reverse ++ cs) (linesOf cs current) := by
  induction cs, current using linesOf.induct with
  | case1 current hempty =>
    rw [linesOf, if_pos hempty, List.isEmpty_iff.mp hempty]
    exact .nil
  | case2 current hnot =>
    have hne : current.reverse ≠ [] := by simpa using hnot
    rw [linesOf, if_neg hnot, List.append_nil]
    exact .last hne (by simpa using h)
  | case3 current rest ih =>
    rw [linesOf, List.reverse_cons]
    exact .line (by simpa using h) (ih List.not_mem_nil)
  | case4 current c rest hc ih =>
    have hnot : '\n' ∉ c :: current := List.not_mem_cons_of_ne_of_not_mem (fun heq => hc heq.symm) h
    have hlines := ih hnot
    rw [List.reverse_cons, List.append_assoc] at hlines
    rwa [linesOf.eq_3 _ _ _ hc]

/-! ### One choice -/

section Choices

variable {K W : Type} {m : Model K} {history : List ℕ} {s : m.State} {d d' : Dialogue}
  {a : m.Action}

/-- A line that names an action enabled in a state. -/
def Model.Names (m : Model K) (s : m.State) (line : String) (a : m.Action) : Prop :=
  a ∈ m.enabled.get s ∧ m.actionLabel a = some (answerOf line)

namespace Dialogue

/-- What has been said when some lines have been refused and the question is put again. -/
def asking (m : Model K) (history : List ℕ) (s : m.State) (said : String)
    (refused : List String) : String :=
  refused.foldl (fun said line => said ++ question m history s ++ refusal (answerOf line)) said
    ++ question m history s

/-- **The choice of an action in a state**, from what the exchange was to what it is then. -/
inductive Settles (m : Model K) (history : List ℕ) (s : m.State) :
    Dialogue → m.Action → Dialogue → Prop
  /-- There is only one action: nothing is said, and nothing is read. -/
  | only {a : m.Action} {d : Dialogue} : m.enabled.get s = [a] → Settles m history s d a d
  /-- A line names an action, and no line in front of it does. -/
  | named {a : m.Action} {refused rest : List String} {line said : String} :
      1 < (m.enabled.get s).length → (∀ l ∈ refused, ∀ a', ¬m.Names s l a') →
      (∀ a', m.Names s line a' ↔ a' = a) →
      Settles m history s ⟨refused ++ line :: rest, said⟩ a ⟨rest, asking m history s said refused⟩
  /-- No line names an action. -/
  | unanswered {a : m.Action} {lines : List String} {said : String} :
      1 < (m.enabled.get s).length → (∀ l ∈ lines, ∀ a', ¬m.Names s l a') →
      (m.enabled.get s).head? = some a →
      Settles m history s ⟨lines, said⟩ a ⟨[], asking m history s said lines⟩

/-- One question, where there is a line to answer it. -/
theorem ask_cons (line : String) (rest : List String) (said : String) (left : ℕ) (w : W) :
    (ask m history s (left + 1) : StateT Dialogue (StateM W) _) ⟨line :: rest, said⟩ w =
      match named m s (answerOf line) with
      | some a => ((some a, ⟨rest, said ++ question m history s⟩), w)
      | none => (ask m history s left : StateT Dialogue (StateM W) _)
          ⟨rest, said ++ question m history s ++ refusal (answerOf line)⟩ w := by
  have hheard : (ask m history s (left + 1) : StateT Dialogue (StateM W) _) ⟨line :: rest, said⟩ w
      = (match named m s (answerOf line) with
        | some a => pure (some a)
        | none => do
          Console.say (refusal (answerOf line))
          ask m history s left : StateT Dialogue (StateM W) _)
        ⟨rest, said ++ question m history s⟩ w := rfl
  rw [hheard]
  cases named m s (answerOf line) <;> rfl

theorem ask_of_named {refused rest : List String} {line said : String}
    (hrefused : ∀ l ∈ refused, named m s (answerOf l) = none)
    (hline : named m s (answerOf line) = some a) (w : W) :
    (ask m history s (refused ++ line :: rest).length : StateT Dialogue (StateM W) _)
        ⟨refused ++ line :: rest, said⟩ w
      = ((some a, ⟨rest, asking m history s said refused⟩), w) := by
  induction refused generalizing said with
  | nil =>
    refine (ask_cons line rest said rest.length w).trans ?_
    simp only [hline]
    rfl
  | cons l refused ih =>
    obtain ⟨hl, hrefused⟩ := List.forall_mem_cons.mp hrefused
    refine (ask_cons l _ said _ w).trans ?_
    simp only [hl]
    exact ih hrefused

theorem ask_of_unanswered {lines : List String} {said : String}
    (h : ∀ l ∈ lines, named m s (answerOf l) = none) (w : W) :
    (ask m history s lines.length : StateT Dialogue (StateM W) _) ⟨lines, said⟩ w
      = ((none, ⟨[], asking m history s said lines⟩), w) := by
  induction lines generalizing said with
  | nil => rfl
  | cons l lines ih =>
    obtain ⟨hl, hlines⟩ := List.forall_mem_cons.mp h
    refine (ask_cons l lines said lines.length w).trans ?_
    simp only [hl]
    exact ih hlines

theorem Settles.mem_enabled (h : Settles m history s d a d') : a ∈ m.enabled.get s := by
  cases h with
  | only honly =>
    rw [honly]
    exact List.mem_singleton_self a
  | named _ _ hline => exact ((hline a).mpr rfl).1
  | unanswered _ _ hfirst => exact List.mem_of_mem_head? (hfirst ▸ rfl)

/-- **A choice without any lines is the first enabled action**, and no lines come of it. -/
theorem Settles.of_lines_eq_nil (h : Settles m history s d a d') (hd : d.lines = []) :
    d'.lines = [] ∧ (m.enabled.get s).head? = some a := by
  cases h with
  | only honly => exact ⟨hd, congrArg List.head? honly⟩
  | named => simp at hd
  | unanswered _ _ hfirst => exact ⟨rfl, hfirst⟩

end Dialogue

/-- An answer is looked up by the labels that are shown, which are the labels that there are. -/
theorem Model.Answerable.named_eq_some_iff (hm : m.Answerable)
    (hseveral : 1 < (m.enabled.get s).length) {line : String} :
    named m s (answerOf line) = some a ↔ m.Names s line a := by
  have hname : ∀ a' ∈ m.enabled.get s, m.actionName a' = answerOf line ↔
      m.actionLabel a' = some (answerOf line) := by
    intro a' ha'
    obtain ⟨label, hlabel⟩ := hm.exists_label s hseveral a' ha'
    rw [Model.actionName, hlabel, Option.getD_some, Option.some_inj]
  have hfound : ∀ a', named m s (answerOf line) = some a' → m.Names s line a' := by
    intro a' h
    rw [named] at h
    have ha' := List.mem_of_find?_eq_some h
    have hshown := List.find?_some h
    exact ⟨ha', (hname a' ha').mp (eq_of_beq hshown)⟩
  refine ⟨hfound a, ?_⟩
  rintro ⟨ha, hlabel⟩
  cases hnamed : named m s (answerOf line) with
  | none =>
    exact absurd (beq_iff_eq.mpr ((hname a ha).mpr hlabel)) (List.find?_eq_none.mp hnamed a ha)
  | some a' => rw [hm.eq_of_label a' a _ (hfound a' hnamed).2 hlabel]

theorem Model.Answerable.named_eq_none_iff (hm : m.Answerable)
    (hseveral : 1 < (m.enabled.get s).length) {line : String} :
    named m s (answerOf line) = none ↔ ∀ a, ¬m.Names s line a := by
  simp only [Option.eq_none_iff_forall_ne_some, ne_eq, hm.named_eq_some_iff hseveral]

namespace Dialogue

/-- **Every choice is settled.** -/
theorem exists_settles (hm : m.Answerable) (history : List ℕ) (s : m.State) (d : Dialogue) :
    ∃ a d', Settles m history s d a d' := by
  obtain ⟨lines, said⟩ := d
  rcases henabled : m.enabled.get s with _ | ⟨a, _ | ⟨a', others⟩⟩
  · exact absurd henabled (hm.enabled_ne_nil s)
  · exact ⟨a, _, .only henabled⟩
  have hseveral : 1 < (m.enabled.get s).length := by simp [henabled]
  by_cases hnone : ∀ l ∈ lines, ∀ a, ¬m.Names s l a
  · exact ⟨a, _, .unanswered hseveral hnone (congrArg List.head? henabled)⟩
  -- the first line that names an action splits the lines in two
  push Not at hnone
  obtain ⟨line₀, hline₀, c₀, hc₀⟩ := hnone
  classical
  obtain ⟨line, hfind⟩ : ∃ line, (lines.find? fun l => decide (∃ c, m.Names s l c)) = some line :=
    Option.isSome_iff_exists.mp (List.find?_isSome.mpr ⟨line₀, hline₀, decide_eq_true ⟨c₀, hc₀⟩⟩)
  obtain ⟨hline, refused, rest, rfl, hrefused⟩ := List.find?_eq_some_iff_append.mp hfind
  obtain ⟨c, hc⟩ := of_decide_eq_true hline
  refine ⟨c, _, .named hseveral (fun l hl c' hc' => ?_) fun c' => ⟨fun hc' => ?_, ?_⟩⟩
  · exact absurd (hrefused l hl) (by simpa using ⟨c', hc'⟩)
  · exact hm.eq_of_label c' c _ hc'.2 hc.2
  · rintro rfl
    exact hc

/-! ### One step -/

/-- What the policy that asks answers with. -/
theorem policy_of_ask {past : List ℕ} {answer : Option m.Action} {w : W}
    (h : (ask m (s.val :: past) s d.lines.length : StateT Dialogue (StateM W) _) d w
      = ((answer, d'), w)) :
    (policy m : Policy (StateT Dialogue (StateM W))) (s.val :: past) d w
      = (((answer.orElse fun _ => (m.enabled.get s).head?).elim 0 Fin.val, d'), w) := by
  have hasked : (policy m : Policy (StateT Dialogue (StateM W))) (s.val :: past) d w
      = (fun r : (Option m.Action × Dialogue) × W =>
          (((r.1.1.orElse fun _ => (m.enabled.get s).head?).elim 0 Fin.val, r.1.2), r.2))
        ((ask m (s.val :: past) s d.lines.length : StateT Dialogue (StateM W) _) d w) := by
    rw [policy, dif_pos s.isLt]
    rfl
  rw [hasked, h]

/-- The policy's answer is taken, where it is one of several actions. -/
theorem takeAction_of_answer {policy : Policy (StateT Dialogue (StateM W))} {w : W}
    (hseveral : 1 < (m.enabled.get s).length) (ha : a ∈ m.enabled.get s)
    (hanswer : policy history d w = ((a.val, d'), w)) :
    takeAction m policy history s d w = ((.ok a, d'), w) := by
  have hfind := find?_val_eq ha
  rw [takeAction]
  generalize m.enabled.get s = actions at hseveral hfind
  rcases actions with _ | ⟨c, _ | ⟨c', others⟩⟩
  · cases hseveral
  · exact absurd hseveral (lt_irrefl 1)
  · refine (run_bind_of_ok_both (run_lift_both hanswer)).trans ?_
    rw [hfind]
    rfl

/-- **The action that is settled on is taken**, and nothing is drawn for it. -/
theorem takeAction_of_settles (hm : m.Answerable) {past : List ℕ} (w : W)
    (h : Settles m (s.val :: past) s d a d') :
    takeAction m (policy m : Policy (StateT Dialogue (StateM W))) (s.val :: past) s d w
      = ((.ok a, d'), w) := by
  have ha := h.mem_enabled
  cases h with
  | only honly =>
    rw [takeAction, honly]
    rfl
  | @named _ refused rest line said hseveral hrefused hline =>
    refine takeAction_of_answer hseveral ha
      ((policy_of_ask (ask_of_named (fun l hl => ?_) ?_ w)).trans rfl)
    · exact (hm.named_eq_none_iff hseveral).mpr (hrefused l hl)
    · exact (hm.named_eq_some_iff hseveral).mpr ((hline a).mpr rfl)
  | @unanswered _ lines said hseveral hlines hfirst =>
    have hnone : ∀ l ∈ lines, named m s (answerOf l) = none := fun l hl =>
      (hm.named_eq_none_iff hseveral).mpr (hlines l hl)
    refine takeAction_of_answer hseveral ha ((policy_of_ask (ask_of_unanswered hnone w)).trans ?_)
    rw [hfirst]
    rfl

variable [Scalar K] [RandomMonad (StateM W)] {past : List ℕ} {w w' : W} {u : K}

/-- **A step takes the action that is settled on, and then draws.** -/
theorem step_of_settles (hm : m.Answerable) (h : Settles m (s.val :: past) s d a d')
    (hdraw : (drawUnit : StateM W K) w = (u, w')) :
    step m (policy m : Policy (StateT Dialogue (StateM W))) (s.val :: past) d w
      = ((.ok ⟨a, sampleTarget (m.row s a) s u⟩, d'), w') := by
  have hlifted : (drawUnit : StateT Dialogue (StateM W) K) d' w = ((u, d'), w') := by
    have hpair : (drawUnit : StateT Dialogue (StateM W) K) d' w
      = ((((drawUnit : StateM W K) w).1, d'), ((drawUnit : StateM W K) w).2) := rfl
    rw [hpair, hdraw]
  rw [step, m.checkState_val s]
  refine (run_bind_of_ok_both rfl).trans ?_
  refine (run_bind_of_ok_both (takeAction_of_settles hm w h)).trans ?_
  exact run_bind_of_ok_both (run_lift_both hlifted)

/-! ### Conversations -/

/-- One choice of a run. -/
structure Turn (m : Model K) where
  /-- Where it is made. -/
  state : m.State
  /-- The exchange up to it. -/
  before : Dialogue
  /-- What is chosen. -/
  action : m.Action
  /-- The exchange after it. -/
  after : Dialogue

/-- **A run that is steered by answers**: its choices, the last one first, and its path, from an
exchange and a world to those after it. Each choice is settled where the path stands, with the
lines that the choices before it have left, and the path goes on where the next draw leads. -/
inductive Conversation (m : Model K) (d : Dialogue) (w : W) :
    List (Turn m) → Path m → Dialogue → W → Prop
  /-- No step. -/
  | start : Conversation m d w [] ⟨[m.initial], none⟩ d w
  /-- One step more. -/
  | turn {turns : List (Turn m)} {s : m.State} {past : List m.State} {last : Option m.Action}
      {a : m.Action} {u : K} {d₁ d₂ : Dialogue} {w₁ w₂ : W} :
      Conversation m d w turns ⟨s :: past, last⟩ d₁ w₁ →
      Settles m ((s :: past).map Fin.val) s d₁ a d₂ → (drawUnit : StateM W K) w₁ = (u, w₂) →
      Conversation m d w (⟨s, d₁, a, d₂⟩ :: turns)
        ⟨sampleTarget (m.row s a) s u :: s :: past, some a⟩ d₂ w₂

variable {turns : List (Turn m)} {path : Path m} {d₁ : Dialogue} {w₁ : W}

namespace Conversation

/-- A choice begins with the exchange that the one before it has left. -/
theorem after_eq {y : Turn m} (h : Conversation m d w (y :: turns) path d₁ w₁) :
    y.after = d₁ := by
  cases h
  rfl

/-- **Once the lines are used up, they stay so**, and every choice is the first enabled action. -/
theorem of_used_up (h : Conversation m d w turns path d₁ w₁) {later past : List (Turn m)}
    {x y : Turn m} (hsplit : turns = later ++ y :: past) (hx : x ∈ past)
    (hlines : x.after.lines = []) :
    y.after.lines = [] ∧ (m.enabled.get y.state).head? = some y.action := by
  induction h generalizing later y past with
  | start => simp at hsplit
  | @turn turns s _ _ a _ d₁ d₂ _ _ hbefore hsettles _ ih =>
    cases later with
    | cons _ later => exact ih (List.cons.inj hsplit).2 hx
    | nil =>
      obtain ⟨rfl, rfl⟩ := List.cons.inj hsplit
      refine hsettles.of_lines_eq_nil ?_
      -- the choice before has left no lines either, be it this one or a later one
      cases turns with
      | nil => cases hx
      | cons y' past' =>
        rw [← hbefore.after_eq]
        rcases List.mem_cons.mp hx with rfl | hx
        · exact hlines
        · exact (ih (List.nil_append _).symm hx).1

/-- **The program makes conversation**: from any point of one it goes on with the steps that are
left. -/
theorem exists_prolong (hm : m.Answerable) {s : m.State} {past : List m.State}
    {last : Option m.Action} (h : Conversation m d w turns ⟨s :: past, last⟩ d₁ w₁) (k : ℕ) :
    ∃ turns' path d₂ w₂,
      prolong m (policy m : Policy (StateT Dialogue (StateM W))) k ((s :: past).map Fin.val)
        ⟨s :: past, last⟩ d₁ w₁ = ((.ok path, d₂), w₂) ∧
      Conversation m d w turns' path d₂ w₂ ∧ turns'.length = turns.length + k := by
  induction k generalizing turns s past last d₁ w₁ with
  | zero => exact ⟨turns, _, d₁, w₁, rfl, h, rfl⟩
  | succ k ih =>
    obtain ⟨a, d₂, hsettles⟩ := exists_settles hm ((s :: past).map Fin.val) s d₁
    rcases hdraw : (drawUnit : StateM W K) w₁ with ⟨u, w₂⟩
    obtain ⟨turns', path, d₃, w₃, hrun, hend, hlength⟩ := ih (h.turn hsettles hdraw)
    refine ⟨turns', path, d₃, w₃, ?_, hend, ?_⟩
    · rw [prolong]
      exact (run_bind_of_ok_both (step_of_settles hm hsettles hdraw)).trans hrun
    · rw [hlength, List.length_cons, Nat.add_right_comm, Nat.add_assoc]

end Conversation

/-- **A run that is steered by answers follows them and never fails.** Whatever text the user
says, whatever the draws of the random source, and whatever the arithmetic, a run from the initial
state of a model that has been built makes all its steps. It is a conversation with the lines of
the text: at a state with several actions the first line left that is the label of one of them
decides, and the lines up to it are used up; if there is none, all lines are used up and the first
action is taken, as it is wherever no lines are left; at a state with one action no line is read
and nothing is said. -/
theorem simulate_conversation {b : Builder K} (hb : b.Reachable) {initial : Option String}
    (hm : b.build initial = .ok m) (n : ℕ) (input : String) (w : W) :
    InLines input.toList (ofInput input).lines ∧ (ofInput input).said = "" ∧
    ∃ turns path d w',
      simulate m n (policy m : Policy (StateT Dialogue (StateM W))) none (ofInput input) w
        = ((.ok path, d), w') ∧
      Conversation m (ofInput input) w turns path d w' ∧ turns.length = n ∧
      ∀ later y past x, turns = later ++ y :: past → x ∈ past → x.after.lines = [] →
        y.after.lines = [] ∧ (m.enabled.get y.state).head? = some y.action := by
  refine ⟨inLines_linesOf input.toList List.not_mem_nil, rfl, ?_⟩
  have hstart : Conversation m (ofInput input) w [] ⟨[m.initial], none⟩ (ofInput input) w := .start
  obtain ⟨turns, path, d, w', hrun, hend, hlength⟩ :=
    hstart.exists_prolong (hb.answerable hm) n
  refine ⟨turns, path, d, w', ?_, hend, ?_, fun _ _ _ _ => hend.of_used_up⟩
  · rw [simulate, Option.getD_none, m.checkState_val]
    exact (run_bind_of_ok_both rfl).trans hrun
  · rw [hlength, List.length_nil, Nat.zero_add]

end Dialogue

end Choices

/-- A crossing with two ways to go, each of which leads back. -/
def Model.crossing : List Declaration :=
  [.state "here" none, .state "left" none, .state "right" none, .actions ["l", "r"],
    .transition "here" (some "l") [⟨1, "left"⟩], .transition "here" (some "r") [⟨1, "right"⟩],
    .transition "left" none [⟨1, "here"⟩], .transition "right" none [⟨1, "here"⟩]]

/-- At the crossing one answer is refused, the next one leads to the right, and then there are no
more answers, so that the last choice goes to the left. -/
theorem Dialogue.simulate_conversation_crossing : ∃ b : Builder ℚ, ∃ m : Model ℚ,
    Builder.ofDeclarations Model.crossing = .ok b ∧ b.build none = .ok m ∧
      ∃ turns path d w', Conversation m (ofInput "x\n r ") (Cycle.ofList [7]) turns path d w' ∧
        turns.length = 3 ∧ path.history = [1, 0, 2, 0] ∧ d.lines = [] := by
  obtain ⟨b, m, hb, hm, htest⟩ := Builder.exists_of_any Model.crossing
    (fun m =>
      let policy : Policy (StateT Dialogue (StateM Cycle)) := policy m
      let run := (simulate m 3 policy none (ofInput "x\n r ") (Cycle.ofList [7])).1
      match run.1 with
      | .ok path => path.history == [1, 0, 2, 0] && run.2.lines.isEmpty
      | .error _ => false) (by decide +kernel)
  obtain ⟨-, -, turns, path, d, w', hrun, hend, hlength, -⟩ :=
    simulate_conversation (Builder.reachable_of_ofDeclarations hb) hm 3 "x\n r " (Cycle.ofList [7])
  simp only [hrun, Bool.and_eq_true, beq_iff_eq, List.isEmpty_iff] at htest
  exact ⟨b, m, hb, hm, turns, path, d, w', hend, hlength, htest⟩

end MarkovDecision
