import MarkovDecision.Proofs.Description.Faults
import MarkovDecision.Proofs.Description.Scanning

/-!
# Writing descriptions down

The other way from declarations to texts: each declaration has a written form, with its
numbers in decimal and a dash before a negative reward, and a description is the states
on one line and a line for everything behind them. This module says what becomes of such
a text when it is read (`readDescription_written`).

Between the two stand the tokens. A text *spells* tokens (`Spells`) if it adds them to
those of the text behind it, whatever that is – or, where it ends with a word or a number,
as long as that text breaks it off. Written forms are put together from a few pieces, and
each of them spells its part of `Declaration.spelling`; and the tokens of the declarations
are derived by the grammar, whatever the labels, the weights and the rewards are.

There is one exception. A reader takes the number behind a dash for a reward of its own
and only then changes its sign, so that it refuses the lowest reward of 64 bits: its
number is larger than the highest one. Then the reading ends there, and the states before
it are all that has been declared.
-/

namespace MarkovDecision

open Grammar

/-! ### How declarations are written -/

/-- Whether a text can stand for a state or an action: a letter or an underscore, then letters,
digits and underscores, and neither of the two words that open a part. -/
def isLabel (text : String) : Bool :=
  (text.toList.head?.any beginsWord && text.toList.tail.all continuesWord) &&
    (text ≠ "States" && text ≠ "Actions")

namespace Declaration

/-- A reward as it stands behind the name of a state. -/
def writtenReward : Option ℤ → String
  | none => ""
  | some r => ":" ++ r.repr

/-- An action as it stands behind a source. -/
def writtenAction : Option String → String
  | none => ""
  | some label => " [" ++ label ++ "]"

/-- A branch. -/
def writtenBranch (b : Branch) : String := b.weight.toNat.repr ++ " : " ++ b.target

/-- **A declaration in the text of a description.** -/
def written : Declaration → String
  | .state label reward => label ++ writtenReward reward
  | .actions labels => "Actions " ++ ", ".intercalate labels ++ ";\n"
  | .transition source action branches =>
    source ++ writtenAction action ++ " -> " ++ " + ".intercalate (branches.map writtenBranch)
      ++ ";\n"

end Declaration

/-- **The text of a description**: its states on one line, and a line for each of the blocks and
transitions behind them. -/
def written (states rest : List Declaration) : String :=
  "States " ++ ", ".intercalate (states.map Declaration.written) ++ ";\n"
    ++ String.join (rest.map Declaration.written)

example : written [.state "S0" (some 2), .state "S1" none, .state "S2" (some (-3))]
    [.actions ["a", "b"], .transition "S0" (some "a") [⟨5, "S1"⟩, ⟨5, "S2"⟩],
      .transition "S1" none [⟨1, "S0"⟩]]
    = "States S0:2, S1, S2:-3;\nActions a, b;\nS0 [a] -> 5 : S1 + 5 : S2;\nS1 -> 1 : S0;\n" := by
  decide +kernel

/-! ### What is written spells its tokens -/

/-- **A text spells tokens** in front of any text of a certain kind. -/
def Spells (R : List Char → Prop) (text : String) (us : List Token) : Prop :=
  ∀ cs ts, R cs → Spelled cs ts → Spelled (text.toList ++ cs) (us ++ ts)

/-- Any text. -/
def Anything (_ : List Char) : Prop := True

section Spells

variable {R Q : List Char → Prop} {text text' sep label : String} {us vs : List Token}
  {mark : Token} {α : Type} {as : List α} {f : α → String} {g : α → List Token}

theorem Spells.append (h : Spells R text us) (h' : Spells Q text' vs)
    (hR : ∀ cs, Q cs → R (text'.toList ++ cs)) : Spells Q (text ++ text') (us ++ vs) := by
  intro cs ts hcs hts
  rw [String.toList_append, List.append_assoc, List.append_assoc]
  exact h _ _ (hR cs hcs) (h' cs ts hcs hts)

/-- A text that spells its tokens in front of anything asks nothing of the text behind it. -/
theorem Spells.append_any (h : Spells Anything text us) (h' : Spells Q text' vs) :
    Spells Q (text ++ text') (us ++ vs) :=
  h.append h' fun _ _ => trivial

theorem Spells.weaken (h : Spells Anything text us) : Spells R text us :=
  fun cs ts _ => h cs ts trivial

theorem spells_nil : Spells R "" [] := fun _ _ _ h => h

theorem spells_label (h : isLabel label = true) : Spells Breaks label [.word label] := by
  rw [isLabel, Bool.and_eq_true, Bool.and_eq_true, Bool.and_eq_true, decide_eq_true_eq,
    decide_eq_true_eq] at h
  obtain ⟨⟨hhead, htail⟩, hstates, hactions⟩ := h
  intro cs ts hcs hts
  have hword := hts.word hcs label hhead htail
  rwa [Token.ofWord, if_neg hstates, if_neg hactions] at hword

theorem spells_number (n : ℕ) : Spells Breaks n.repr [.digits n.repr] :=
  fun _ _ hcs hts => hts.number hcs n

theorem spells_states : Spells Anything "States " [.states] :=
  fun cs _ _ hts => hts.space.word (breaks_cons rfl cs) "States" rfl rfl

theorem spells_actions : Spells Anything "Actions " [.actions] :=
  fun cs _ _ hts => hts.space.word (breaks_cons rfl cs) "Actions" rfl rfl

theorem spells_arrow : Spells Anything " -> " [.arrow] := fun _ _ _ hts => hts.space.arrow.space

/-- Marks and blanks spell the marks. -/
theorem spells_marks (h : text.toList.all (fun c => Scanner.Blank c ∨ markToken c ≠ none) = true) :
    Spells Anything text (text.toList.filterMap markToken) := by
  intro cs ts _ hts
  generalize text.toList = chars at h
  induction chars with
  | nil => exact hts
  | cons c chars ih =>
    rw [List.all_cons, Bool.and_eq_true, decide_eq_true_eq] at h
    obtain ⟨hc, hchars⟩ := h
    rcases hmark : markToken c with _ | token
    · rw [List.filterMap_cons_none hmark]
      exact (ih hchars).blank (hc.resolve_right fun hne => hne hmark)
    · rw [List.filterMap_cons_some hmark]
      exact (ih hchars).mark hmark

theorem spells_comma : Spells Anything ", " [.comma] := spells_marks rfl

/-- A line ends with its semicolon, and anything may stand on the next one. -/
theorem Spells.line (h : Spells Breaks text us) :
    Spells Anything (text ++ ";\n") (us ++ [.semicolon]) := by
  have hsemicolon : Spells Anything ";\n" [.semicolon] := spells_marks rfl
  exact h.append hsemicolon fun _ _ => breaks_cons rfl _

/-- A negative number; no arrow can begin with its dash. -/
theorem spells_negative (n : ℕ) : Spells Breaks ("-" ++ n.repr) [.minus, .digits n.repr] := by
  intro cs ts hcs hts
  rw [String.toList_append, List.append_assoc]
  refine (hts.number hcs n).minus fun hmem => ?_
  have hfirst : (n.repr.toList ++ cs).head? = (Nat.toDigits 10 n).head? := by
    rw [Nat.toList_repr, List.head?_append_of_ne_nil _ Nat.toDigits_ne_nil]
  rw [hfirst] at hmem
  exact absurd (Nat.isDigit_of_mem_toDigits (by decide) (by decide) (List.mem_of_head? hmem))
    (by decide)

theorem spells_intercalate (h : ∀ a ∈ as, Spells Breaks (f a) (g a))
    (hsep : Spells Anything sep [mark]) (hbreak : ∀ cs, Breaks (sep.toList ++ cs)) :
    Spells Breaks (sep.intercalate (as.map f)) ([mark].intercalate (as.map g)) := by
  induction as with
  | nil => exact spells_nil
  | cons a as ih =>
    obtain ⟨ha, has⟩ := List.forall_mem_cons.mp h
    rcases as with _ | ⟨b, as⟩
    · simpa using ha
    · simp only [List.map_cons, String.intercalate_cons_cons, List.intercalate_cons_cons] at ih ⊢
      rw [String.append_assoc, List.append_assoc]
      refine ha.append (hsep.append_any (ih has)) fun cs _ => ?_
      rw [String.toList_append, List.append_assoc]
      exact hbreak _

theorem spells_join (h : ∀ a ∈ as, Spells Anything (f a) (g a)) :
    Spells Anything (String.join (as.map f)) (as.flatMap g) := by
  induction as with
  | nil => exact spells_nil
  | cons a as ih =>
    obtain ⟨ha, has⟩ := List.forall_mem_cons.mp h
    rw [List.map_cons, String.join_cons, List.flatMap_cons]
    exact ha.append_any (ih has)

end Spells

namespace Declaration

/-- The tokens of a reward. -/
def rewardTokens : Option ℤ → List Token
  | none => []
  | some (.ofNat n) => [.colon, .digits n.repr]
  | some (.negSucc n) => [.colon, .minus, .digits (n + 1).repr]

/-- The tokens of an action in brackets. -/
def actionTokens : Option String → List Token
  | none => []
  | some label => [.openBracket, .word label, .closeBracket]

/-- The tokens of a branch. -/
def branchTokens (b : Branch) : List Token :=
  [.digits b.weight.toNat.repr, .colon, .word b.target]

/-- **The tokens of a declaration.** -/
def spelling : Declaration → List Token
  | .state label reward => .word label :: rewardTokens reward
  | .actions labels =>
    .actions :: [Token.comma].intercalate (labels.map fun label => [.word label]) ++ [.semicolon]
  | .transition source action branches =>
    .word source :: actionTokens action ++ [.arrow]
      ++ [Token.plus].intercalate (branches.map branchTokens) ++ [.semicolon]

/-- What can be declared of a state: any label, and any reward of 64 bits with a sign. -/
inductive WritableState : Declaration → Prop
  /-- No reward. -/
  | plain {label : String} : isLabel label = true → WritableState (.state label none)
  /-- A reward. -/
  | reward {label : String} {r : ℤ} : isLabel label = true → -2 ^ 63 ≤ r → r < 2 ^ 63 →
      WritableState (.state label (some r))

/-- What can be declared of actions: one label or several. -/
inductive WritableBlock : Declaration → Prop
  /-- The labels. -/
  | names {labels : List String} : labels ≠ [] → (∀ label ∈ labels, isLabel label = true) →
      WritableBlock (.actions labels)

/-- What can be declared of transitions: one branch or several, with any weights. -/
inductive WritableRow : Declaration → Prop
  /-- The source, the action and the branches. -/
  | branches {source : String} {action : Option String} {branches : List Branch} :
      isLabel source = true → (∀ label ∈ action, isLabel label = true) → branches ≠ [] →
      (∀ b ∈ branches, isLabel b.target = true) → WritableRow (.transition source action branches)

variable {d : Declaration}

theorem spells_reward (reward : Option ℤ) :
    Spells Breaks (writtenReward reward) (rewardTokens reward) := by
  have hmark : Spells Anything ":" [.colon] := spells_marks rfl
  rcases reward with _ | n | n
  · exact spells_nil
  · exact hmark.append_any (spells_number n)
  · exact hmark.append_any (spells_negative (n + 1))

theorem spells_action {action : Option String} (h : ∀ label ∈ action, isLabel label = true) :
    Spells Breaks (writtenAction action) (actionTokens action) := by
  have hopen : Spells Anything " [" [.openBracket] := spells_marks rfl
  have hclose : Spells Anything "]" [.closeBracket] := spells_marks rfl
  rcases action with _ | label
  · exact spells_nil
  · have hlabel := hopen.append_any (spells_label (h label rfl))
    exact (hlabel.append hclose fun _ _ => breaks_cons rfl _).weaken

theorem breaks_writtenAction {action : Option String} (cs : List Char) (hcs : Breaks cs) :
    Breaks ((writtenAction action).toList ++ cs) := by
  rcases action with _ | label
  · exact hcs
  · rw [writtenAction, String.toList_append, String.toList_append]
    exact breaks_cons rfl _

theorem spells_branch {b : Branch} (h : isLabel b.target = true) :
    Spells Breaks (writtenBranch b) (branchTokens b) := by
  have hmark : Spells Anything " : " [.colon] := spells_marks rfl
  refine ((spells_number b.weight.toNat).append hmark ?_).append_any (spells_label h)
  exact fun cs _ => breaks_cons rfl _

theorem WritableState.spells (h : WritableState d) : Spells Breaks d.written d.spelling := by
  have hreward : ∀ label reward, isLabel label = true →
      Spells Breaks (label ++ writtenReward reward) (.word label :: rewardTokens reward) := by
    intro label reward hlabel
    refine (spells_label hlabel).append (spells_reward reward) fun cs hcs => ?_
    rcases reward with _ | r
    · exact hcs
    · rw [writtenReward, String.toList_append]
      exact breaks_cons rfl _
  cases h with
  | plain hlabel => exact hreward _ none hlabel
  | reward hlabel _ _ => exact hreward _ (some _) hlabel

theorem WritableBlock.spells (h : WritableBlock d) : Spells Anything d.written d.spelling := by
  obtain ⟨-, hlabels⟩ := h
  have hnames := spells_intercalate (fun label hlabel => spells_label (hlabels label hlabel))
    spells_comma fun _ => breaks_cons rfl _
  rw [List.map_id'] at hnames
  exact (spells_actions.append_any hnames).line

theorem WritableRow.spells (h : WritableRow d) : Spells Anything d.written d.spelling := by
  obtain ⟨hsource, haction, -, htargets⟩ := h
  have hplus : Spells Anything " + " [.plus] := spells_marks rfl
  have hbranches := spells_intercalate (fun b hb => spells_branch (htargets b hb)) hplus
    fun _ => breaks_cons rfl _
  have hhead := (spells_label hsource).append (spells_action haction) breaks_writtenAction
  have harrow := hhead.append spells_arrow fun _ _ => breaks_cons rfl _
  exact (harrow.append_any hbranches).line

end Declaration

/-! ### What is written is a description -/

namespace Grammar

theorem number_repr (n : ℕ) : number n.repr = n := by
  rw [← ofDigits_eq_number, Nat.toList_repr]
  exact Nat.ofDigitChars_ten_toDigits

section Repetitions

variable {α : Type} {item : List Token → α → Prop} {mark : Token} {f : α → List Token}
  {as : List α}

theorem separated_intercalate (has : as ≠ []) (h : ∀ a ∈ as, item (f a) a) :
    Separated item mark ([mark].intercalate (as.map f)) as := by
  induction as with
  | nil => exact absurd rfl has
  | cons a as ih =>
    obtain ⟨ha, hrest⟩ := List.forall_mem_cons.mp h
    rcases as with _ | ⟨b, as⟩
    · simpa using Separated.last ha
    · rw [List.map_cons, List.map_cons, List.intercalate_cons_cons, List.append_assoc]
      exact .more ha (ih (List.cons_ne_nil b as) hrest)

theorem repeated_flatMap (h : ∀ a ∈ as, item (f a) a) : Repeated item (as.flatMap f) as := by
  induction as with
  | nil => exact .none
  | cons a as ih =>
    obtain ⟨ha, hrest⟩ := List.forall_mem_cons.mp h
    exact .more ha (ih hrest)

end Repetitions

end Grammar

namespace Declaration

variable {d : Declaration}

/-- **A state is derived from its tokens**, unless its reward is the lowest of all. -/
theorem WritableState.derived (h : WritableState d)
    (hlow : ∀ label, d ≠ .state label (some (-2 ^ 63))) : State d.spelling d := by
  cases h with
  | @plain label _ => exact .plain label
  | @reward label r _ hge hlt =>
    rcases r with n | n
    · rw [Int.ofNat_eq_natCast] at hlt
      have hstate := @State.reward label n.repr (by
        rw [number_repr]
        omega)
      rwa [number_repr] at hstate
    · have hne : Int.negSucc n ≠ -2 ^ 63 := fun heq => hlow label (by rw [heq])
      have hstate := @State.negative label (n + 1).repr (by
        rw [number_repr]
        omega)
      rwa [number_repr] at hstate

theorem WritableBlock.derived (h : WritableBlock d) : Grammar.Block d.spelling d := by
  obtain ⟨hne, -⟩ := h
  exact .names (separated_intercalate hne fun label _ => .word label)

theorem arm_branchTokens (b : Branch) : Arm (branchTokens b) b := by
  refine .weighted b.target ?_ (number_repr _).symm
  rw [number_repr]
  have := b.weight.toNat_lt
  omega

theorem WritableRow.derived (h : WritableRow d) : Transition d.spelling d := by
  obtain @⟨source, action, branches, -, -, hne, -⟩ := h
  have hhead : Head (.word source :: actionTokens action ++ [.arrow]) source action := by
    rcases action with _ | label
    · exact .plain source
    · exact .action source label
  exact .branches hhead (separated_intercalate hne fun b _ => arm_branchTokens b)

end Declaration

/-- **What can be declared**, in the order of descriptions: states, blocks of actions and
transitions. -/
structure Writable (states blocks rows : List Declaration) : Prop where
  /-- There is a state. -/
  states_ne_nil : states ≠ []
  /-- The first part declares states. -/
  state : ∀ d ∈ states, d.WritableState
  /-- The second part declares actions. -/
  block : ∀ d ∈ blocks, d.WritableBlock
  /-- The third part declares transitions. -/
  row : ∀ d ∈ rows, d.WritableRow

namespace Writable

variable {states blocks rows : List Declaration} (h : Writable states blocks rows)

include h

/-- The tokens of a written description. -/
theorem exists_tokens : ∃ ls, tokens (written states (blocks ++ rows)) = .ok ls ∧
    ls.map Located.token = .states :: [Token.comma].intercalate (states.map Declaration.spelling)
      ++ .semicolon :: (blocks.flatMap Declaration.spelling ++ rows.flatMap Declaration.spelling
        ++ [.eof]) := by
  have hstates := spells_intercalate (fun d hd => (h.state d hd).spells) spells_comma
    fun _ => breaks_cons rfl _
  have hrest : Spells Anything (String.join ((blocks ++ rows).map Declaration.written))
      ((blocks ++ rows).flatMap Declaration.spelling) := by
    refine spells_join fun d hd => ?_
    rcases List.mem_append.mp hd with hd | hd
    · exact (h.block d hd).spells
    · exact (h.row d hd).spells
  have htext := (spells_states.append_any hstates).line.append_any hrest
  obtain ⟨ls, hls, htokens⟩ := htext [] [.eof] trivial spelled_nil {}
  rw [List.append_nil] at hls
  refine ⟨ls, hls.tokens_eq, htokens.trans ?_⟩
  rw [List.flatMap_append]
  simp

end Writable

/-! ### Reading back -/

section ReadingBack

variable {states blocks rows before after : List Declaration} {label : String}

/-- States with a comma behind each of them. -/
theorem leads_states_open (h : ∀ d ∈ before, State d.spelling d) :
    Leads .stateName (before.flatMap fun d => d.spelling ++ [.comma]) before .stateName := by
  induction before with
  | nil => exact leads_nil .stateName
  | cons d before ih =>
    obtain ⟨hd, hrest⟩ := List.forall_mem_cons.mp h
    rw [List.flatMap_cons, List.append_assoc]
    exact leads_state hd rfl (ih hrest)

/-- The tokens of a list of states, up to one of them. -/
theorem exists_intercalate_eq (before : List Declaration) (d : Declaration)
    (after : List Declaration) : ∃ tail,
    [Token.comma].intercalate ((before ++ d :: after).map Declaration.spelling)
      = (before.flatMap fun d => d.spelling ++ [.comma]) ++ (d.spelling ++ tail) := by
  induction before with
  | nil =>
    rcases after with _ | ⟨d', after⟩
    · exact ⟨[], by simp⟩
    · refine ⟨.comma :: [Token.comma].intercalate ((d' :: after).map Declaration.spelling), ?_⟩
      rw [List.nil_append, List.map_cons, List.map_cons, List.intercalate_cons_cons,
        List.append_assoc]
      rfl
  | cons d' before ih =>
    obtain ⟨tail, htail⟩ := ih
    refine ⟨tail, ?_⟩
    rw [List.cons_append, List.map_cons, List.intercalate_cons_of_ne_nil (by simp), htail,
      List.flatMap_cons, ← List.append_assoc]

/-- **The lowest reward is a fault**, whatever stands behind it. -/
theorem faults_lowest (label : String) (tail : List Token) :
    Faults .stateName ((Declaration.state label (some (-2 ^ 63))).spelling ++ tail) []
      (.rewardTooLarge "9223372036854775808") := by
  have hspelling : (Declaration.state label (some (-2 ^ 63))).spelling
      = [.word label, .colon, .minus, .digits "9223372036854775808"] := rfl
  rw [hspelling]
  refine .shift (fun start => ?_) fun _ => rfl
  refine .shift (fun _ => ?_) fun _ => rfl
  refine .shift (fun _ => ?_) fun _ => rfl
  have hlarge : ¬number "9223372036854775808" ≤ 2 ^ 63 - 1 := by decide +kernel
  have hfault : Expecting.rewarded start label "9223372036854775808" (-1)
      = Expecting.fail (.rewardTooLarge "9223372036854775808") :=
    Expecting.rewarded_of_not_le hlarge (-1)
  refine faults_here (fun _ => ?_) tail
  exact hfault

/-- **What is written is read back, except for the lowest reward.** Whatever is declared in the
order of descriptions, with any labels, any rewards of 64 bits with a sign and any weights of 64
bits, into a sink that accepts everything:

* if no reward is the lowest one, the text is read without a fault, and the sink has been handed
  exactly these declarations in their order;
* otherwise the number of the first such reward is said to be too large, and the sink has been
  handed exactly the states before it. -/
theorem readDescription_written (h : Writable states blocks rows) {σ ε : Type}
    (take : Declaration → σ → σ) (s : σ) :
    ((∀ label, .state label (some (-2 ^ 63)) ∉ states) →
      readDescription (ε := ε) (.accepting take) (written states (blocks ++ rows)) s
        = .ok () ((states ++ blocks ++ rows).foldl (fun s d => take d s) s)) ∧
    ∀ before label after, states = before ++ .state label (some (-2 ^ 63)) :: after →
      (∀ label, .state label (some (-2 ^ 63)) ∉ before) →
      ∃ p, readDescription (ε := ε) (.accepting take) (written states (blocks ++ rows)) s
        = .error (.syntactic p (.rewardTooLarge "9223372036854775808"))
            (before.foldl (fun s d => take d s) s) := by
  obtain ⟨ls, hls, htokens⟩ := h.exists_tokens
  have hderived : ∀ d ∈ states, (∀ label, d ≠ .state label (some (-2 ^ 63))) → State d.spelling d :=
    fun d hd => (h.state d hd).derived
  constructor
  · intro hlow
    have hdescription : Description (ls.map Located.token) (states ++ blocks ++ rows) := by
      rw [htokens]
      refine .parts (separated_intercalate h.states_ne_nil fun d hd => hderived d hd ?_)
        (repeated_flatMap fun d hd => (h.block d hd).derived)
        (repeated_flatMap fun d hd => (h.row d hd).derived)
      rintro label rfl
      exact hlow label hd
    rw [readDescription, hls]
    refine discard_eq_ok_iff.mpr ⟨.nothing, (foldlM_feedToken_iff take).mpr ⟨_, ?_, rfl⟩⟩
    exact leads_description hdescription ls rfl
  · rintro before label after rfl hbefore
    obtain ⟨tail, htail⟩ :=
      exists_intercalate_eq before (.state label (some (-2 ^ 63))) after
    have hopen : ∀ d ∈ before, State d.spelling d := by
      intro d hd
      refine hderived d (List.mem_append_left _ hd) ?_
      rintro label rfl
      exact hbefore label hd
    -- the states before lead on, and what stands behind the digits does not matter
    refine Faults.readDescription hls ?_ take s
    rw [htokens, htail, List.cons_append, List.append_assoc, List.append_assoc]
    refine .shift (fun _ => ?_) fun _ => rfl
    have hfaults := (leads_states_open hopen).faults (faults_lowest label (tail ++ .semicolon ::
      (blocks.flatMap Declaration.spelling ++ rows.flatMap Declaration.spelling ++ [.eof])))
    rwa [List.append_nil] at hfaults

end ReadingBack

/-- States with the rewards at the two ends of what can be read, and one without. -/
def extremeStates : List Declaration :=
  [.state "low" (some (-(2 ^ 63 - 1))), .state "high" (some (2 ^ 63 - 1)), .state "_9" none]

/-- A block of two actions. -/
def extremeBlock : Declaration := .actions ["Go", "stay"]

/-- A transition with the weights at the two ends. -/
def extremeRow : Declaration :=
  .transition "low" (some "Go") [⟨18446744073709551615, "high"⟩, ⟨0, "_9"⟩]

theorem writableState_extreme : ∀ d ∈ extremeStates, d.WritableState := by
  simp only [extremeStates, List.forall_mem_cons]
  refine ⟨.reward rfl (by decide) (by decide), .reward rfl (by decide) (by decide), .plain rfl, ?_⟩
  exact fun d hd => absurd hd List.not_mem_nil

/-- The largest numbers are read back, and the lowest reward is not. -/
theorem readDescription_written_extreme :
    (Writable extremeStates [extremeBlock] [extremeRow] ∧
      readDescription (ε := Unit) recorder (written extremeStates [extremeBlock, extremeRow]) []
        = .ok () (extremeStates ++ [extremeBlock, extremeRow]).reverse) ∧
    Writable (extremeStates ++ [.state "lowest" (some (-2 ^ 63))]) [] [] ∧
      ∃ p, readDescription (ε := Unit) recorder
        (written (extremeStates ++ [.state "lowest" (some (-2 ^ 63))]) []) []
        = .error (.syntactic p (.rewardTooLarge "9223372036854775808")) extremeStates.reverse := by
  have hextreme : Writable extremeStates [extremeBlock] [extremeRow] := by
    refine ⟨List.cons_ne_nil _ _, writableState_extreme, List.forall_mem_singleton.mpr ?_,
      List.forall_mem_singleton.mpr ?_⟩
    · exact .names (List.cons_ne_nil _ _) (by decide +kernel)
    · exact .branches rfl (by decide +kernel) (List.cons_ne_nil _ _) (by decide +kernel)
  have hlowest : Writable (extremeStates ++ [.state "lowest" (some (-2 ^ 63))]) [] [] := by
    refine ⟨List.cons_ne_nil _ _, List.forall_mem_append.mpr ⟨writableState_extreme, ?_⟩, ?_, ?_⟩
    · exact List.forall_mem_singleton.mpr (.reward rfl (by decide) (by decide))
    · exact fun d hd => absurd hd List.not_mem_nil
    · exact fun d hd => absurd hd List.not_mem_nil
  have hnone : ∀ label, .state label (some (-2 ^ 63)) ∉ extremeStates := by
    intro label hmem
    simp [extremeStates] at hmem
  refine ⟨⟨hextreme, (readDescription_written hextreme List.cons []).1 hnone⟩, hlowest, ?_⟩
  exact (readDescription_written hlowest List.cons []).2 extremeStates "lowest" [] rfl hnone

/-- The text of a state with the lowest reward is refused at the digits of the reward, although such
a state can be declared. -/
theorem lowest_reward_refused : Writable [.state "low" (some (-2 ^ 63))] [] [] ∧
    written [.state "low" (some (-2 ^ 63))] [] = "States low:-9223372036854775808;\n" ∧
    readDescription (ε := Unit) recorder "States low:-9223372036854775808;\n" []
      = .error (.syntactic ⟨1, 13⟩ (.rewardTooLarge "9223372036854775808")) [] := by
  refine ⟨⟨List.cons_ne_nil _ _, ?_, ?_, ?_⟩, ?_, ?_⟩
  · exact List.forall_mem_singleton.mpr (.reward rfl (by decide) (by decide))
  · exact fun d hd => absurd hd List.not_mem_nil
  · exact fun d hd => absurd hd List.not_mem_nil
  · decide +kernel
  · rfl

end MarkovDecision
