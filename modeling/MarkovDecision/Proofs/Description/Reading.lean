import MarkovDecision.Proofs.Description.Grammar

/-!
# What a reader has behind it

The reader of `MarkovDecision.Description.Reader` looks at one token at a time and
remembers a situation, `Expecting`; the grammar of
`MarkovDecision.Proofs.Description.Grammar` knows neither. To bring them together,
`Reads` says that a reader goes through some tokens and completes some declarations
on its way, and every situation gets a past (`Expecting.Past`): the tokens that lead
to it are the beginning of a description, broken off at a certain point, and the
declarations completed are those of the parts that are whole. What a single token
does is a list of rules, which is gone through once (`Expecting.moves_next`). By
these, one token more keeps the past true (`Expecting.Past.step`), so a reader that
comes to the end has read a description (`Reads.past`).

The past is not simply a prefix of a derivation. A reader keeps what it holds of a
declaration last first, and a list of items that is not finished is either empty or
ends with the mark that calls for another item; `Grammar.Open` is that form.
-/

namespace MarkovDecision

open Grammar

/-! ### Readers at work -/

/-- The declaration that a move completes, if any. -/
def Move.declarations (move : Move) : List Declaration := (move.declared.map Prod.snd).toList

/-- A reader goes through tokens, from one situation to another, and completes declarations. -/
inductive Reads : Expecting → List Located → List Declaration → Expecting → Prop
  /-- No token. -/
  | done (e : Expecting) : Reads e [] [] e
  /-- A token that is in its place, and the tokens after it. -/
  | step {e next last : Expecting} {t : Located} {ts : List Located} {ds : List Declaration} :
      (e.next t).next = .ok next → Reads next ts ds last →
      Reads e (t :: ts) ((e.next t).declarations ++ ds) last

/-- The sink that accepts every declaration and takes it in. -/
def Sink.accepting {σ ε : Type} (take : Declaration → σ → σ) : Sink σ ε := fun d => modify (take d)

section Sinks

variable {σ ε : Type} (take : Declaration → σ → σ)

/-- **One token, with a sink that accepts everything.** -/
theorem feedToken_accepting (e : Expecting) (t : Located) (s : σ) :
    feedToken (ε := ε) (.accepting take) e t s =
      match (e.next t).next with
      | .ok next => .ok next ((e.next t).declarations.foldl (fun s d => take d s) s)
      | .error fault => .error (.syntactic t.position fault)
          ((e.next t).declarations.foldl (fun s d => take d s) s) := by
  rw [feedToken]
  generalize e.next t = move
  obtain ⟨_ | ⟨position, d⟩, fault | next⟩ := move <;> rfl

/-- **Feeding tokens is reading them**, with a sink that accepts everything. -/
theorem foldlM_feedToken_iff {e last : Expecting} {ts : List Located} {s s' : σ} :
    ts.foldlM (feedToken (ε := ε) (.accepting take)) e s = .ok last s' ↔
      ∃ ds, Reads e ts ds last ∧ s' = ds.foldl (fun s d => take d s) s := by
  induction ts generalizing e s with
  | nil =>
    constructor
    · intro h
      cases h
      exact ⟨[], .done _, rfl⟩
    · rintro ⟨ds, ⟨⟩, rfl⟩
      rfl
  | cons t ts ih =>
    have hcons : (t :: ts).foldlM (feedToken (ε := ε) (.accepting take)) e s
        = EStateM.bind (feedToken (.accepting take) e t)
            (fun e => ts.foldlM (feedToken (.accepting take)) e) s := rfl
    rw [hcons, EStateM.bind, feedToken_accepting]
    constructor
    · intro h
      rcases hnext : (e.next t).next with fault | next
      · rw [hnext] at h
        cases h
      · rw [hnext] at h
        obtain ⟨ds, hds, rfl⟩ := ih.mp h
        exact ⟨_, .step hnext hds, by rw [List.foldl_append]⟩
    · rintro ⟨_, ⟨⟩ | ⟨hnext, hds⟩, rfl⟩
      rw [hnext]
      refine ih.mpr ⟨_, hds, ?_⟩
      rw [List.foldl_append]

end Sinks

/-! ### The moves of a reader -/

namespace Expecting

variable {e next : Expecting} {position : Position} {token : Token}

/-- Every token but a colon completes a state. -/
theorem next_stateRest {start : Position} {label : String} (h : token ≠ .colon) :
    (stateRest start label).next ⟨token, position⟩
      = ⟨some (start, .state label none), Expecting.afterState token⟩ := by
  cases token <;> first | rfl | exact absurd rfl h

theorem next_stateEnd :
    stateEnd.next ⟨token, position⟩ = { next := Expecting.afterState token } := by
  cases token <;> rfl

/-- The numbers of rewards. -/
theorem rewarded_of_le {label digits : String} (h : number digits ≤ 2 ^ 63 - 1) (sign : ℤ) :
    rewarded position label digits sign =
      ⟨some (position, .state label (some (sign * number digits))), .ok .stateEnd⟩ := by
  have hlt : Decimal.ofDigits digits.toList < pow2 63 := by
    rw [ofDigits_eq_number, pow2, Nat.pow_eq]
    omega
  simp only [rewarded]
  rw [if_pos hlt, ofDigits_eq_number]

theorem rewarded_of_not_le {label digits : String} (h : ¬number digits ≤ 2 ^ 63 - 1) (sign : ℤ) :
    rewarded position label digits sign = fail (.rewardTooLarge digits) := by
  have hnot : ¬Decimal.ofDigits digits.toList < pow2 63 := by
    rw [ofDigits_eq_number, pow2, Nat.pow_eq]
    omega
  simp only [rewarded]
  rw [if_neg hnot]

/-- The numbers of weights. -/
theorem next_weight_of_le {digits : String} {w : UInt64} (h : number digits ≤ 2 ^ 64 - 1)
    (hw : w.toNat = number digits) (row : Row) (position : Position) :
    (weight row).next ⟨.digits digits, position⟩ = go (.colon row w) := by
  have hlt : Decimal.ofDigits digits.toList < pow2 64 := by
    rw [ofDigits_eq_number, pow2, Nat.pow_eq]
    omega
  refine (if_pos hlt).trans ?_
  rw [ofDigits_eq_number, ← hw, UInt64.ofNat_toNat]

theorem next_weight_of_not_le {row : Row} {digits : String} (h : ¬number digits ≤ 2 ^ 64 - 1) :
    (weight row).next ⟨.digits digits, position⟩ = fail (.weightTooLarge digits) := by
  have hnot : ¬Decimal.ofDigits digits.toList < pow2 64 := by
    rw [ofDigits_eq_number, pow2, Nat.pow_eq]
    omega
  exact if_neg hnot

/-- **What a token does to a reader**, rule by rule. Where it is out of place, or its number too
large, there is a fault; the other rules say for every situation which tokens are in place, what
they complete, and what may come next. -/
inductive Moves : Expecting → Located → Move → Prop
  /-- The token is out of place. -/
  | fault (e : Expecting) (t : Located) (reason : SyntaxFault) : Moves e t (fail reason)
  /-- The states are opened. -/
  | states (p : Position) : Moves .header ⟨.states, p⟩ (go .stateName)
  /-- A state begins. -/
  | stateName (label : String) (p : Position) :
    Moves .stateName ⟨.word label, p⟩ (go (.stateRest p label))
  /-- A reward is to come. -/
  | stateColon (start : Position) (label : String) (p : Position) :
    Moves (.stateRest start label) ⟨.colon, p⟩ (go (.reward start label))
  /-- There is no reward, whatever else is wrong. -/
  | plain (start : Position) (label : String) (token : Token) (p : Position) : token ≠ .colon →
    Moves (.stateRest start label) ⟨token, p⟩
      ⟨some (start, .state label none), Expecting.afterState token⟩
  /-- The reward is negative. -/
  | minus (start : Position) (label : String) (p : Position) :
    Moves (.reward start label) ⟨.minus, p⟩ (go (.negative start label))
  /-- There is a reward. -/
  | reward (start : Position) (label digits : String) (p : Position) : number digits ≤ 2 ^ 63 - 1 →
    Moves (.reward start label) ⟨.digits digits, p⟩
      ⟨some (start, .state label (some (number digits))), .ok .stateEnd⟩
  /-- There is a negative reward. -/
  | negative (start : Position) (label digits : String) (p : Position) :
    number digits ≤ 2 ^ 63 - 1 →
    Moves (.negative start label) ⟨.digits digits, p⟩
      ⟨some (start, .state label (some (-number digits))), .ok .stateEnd⟩
  /-- Another state follows, or the states end. -/
  | stateEnd (token : Token) (p : Position) :
    Moves .stateEnd ⟨token, p⟩ { next := Expecting.afterState token }
  /-- A block begins. -/
  | actions (p : Position) : Moves .block ⟨.actions, p⟩ (go (.actionName p []))
  /-- The first transition begins. -/
  | first (label : String) (p : Position) :
    Moves .block ⟨.word label, p⟩ (go (.action { position := p, source := label }))
  /-- The text ends without a transition. -/
  | onlyBlocks (p : Position) : Moves .block ⟨.eof, p⟩ (go .nothing)
  /-- A block has an action. -/
  | actionName (start : Position) (labels : List String) (label : String) (p : Position) :
    Moves (.actionName start labels) ⟨.word label, p⟩ (go (.actionEnd start (label :: labels)))
  /-- It has another one. -/
  | actionComma (start : Position) (labels : List String) (p : Position) :
    Moves (.actionEnd start labels) ⟨.comma, p⟩ (go (.actionName start labels))
  /-- It is complete. -/
  | blockEnd (start : Position) (labels : List String) (p : Position) :
    Moves (.actionEnd start labels) ⟨.semicolon, p⟩
      ⟨some (start, .actions labels.reverse), .ok .block⟩
  /-- A later transition begins. -/
  | later (label : String) (p : Position) :
    Moves .source ⟨.word label, p⟩ (go (.action { position := p, source := label }))
  /-- The text ends. -/
  | eof (p : Position) : Moves .source ⟨.eof, p⟩ (go .nothing)
  /-- A transition has an action. -/
  | openBracket (row : Row) (p : Position) :
    Moves (.action row) ⟨.openBracket, p⟩ (go (.bracketed row))
  /-- It has none. -/
  | plainArrow (row : Row) (p : Position) : Moves (.action row) ⟨.arrow, p⟩ (go (.weight row))
  /-- The action has a name. -/
  | bracketed (row : Row) (label : String) (p : Position) :
    Moves (.bracketed row) ⟨.word label, p⟩ (go (.closing { row with action := some label }))
  /-- The brackets close. -/
  | closeBracket (row : Row) (p : Position) :
    Moves (.closing row) ⟨.closeBracket, p⟩ (go (.arrow row))
  /-- The branches are to come. -/
  | arrow (row : Row) (p : Position) : Moves (.arrow row) ⟨.arrow, p⟩ (go (.weight row))
  /-- A branch has a weight. -/
  | weight (row : Row) (digits : String) (w : UInt64) (p : Position) :
    number digits ≤ 2 ^ 64 - 1 → w.toNat = number digits →
    Moves (.weight row) ⟨.digits digits, p⟩ (go (.colon row w))
  /-- Its target is to come. -/
  | colon (row : Row) (w : UInt64) (p : Position) :
    Moves (.colon row w) ⟨.colon, p⟩ (go (.target row w))
  /-- It has a target. -/
  | target (row : Row) (w : UInt64) (label : String) (p : Position) :
    Moves (.target row w) ⟨.word label, p⟩
      (go (.branchEnd { row with branches := ⟨w, label⟩ :: row.branches }))
  /-- Another branch follows. -/
  | plus (row : Row) (p : Position) : Moves (.branchEnd row) ⟨.plus, p⟩ (go (.weight row))
  /-- The transition is complete. -/
  | transition (row : Row) (p : Position) : Moves (.branchEnd row) ⟨.semicolon, p⟩
      ⟨some (row.position, .transition row.source row.action row.branches.reverse), .ok .source⟩
  /-- Nothing counts behind the end. -/
  | behind (t : Located) : Moves .nothing t (go .nothing)

/-- **The rules are what the reader does.** -/
theorem moves_next (e : Expecting) (t : Located) : Moves e t (e.next t) := by
  obtain ⟨token, p⟩ := t
  -- in each situation most tokens are out of place
  cases e with
  | header =>
    cases token with
    | states => exact .states p
    | _ => exact .fault _ _ _
  | stateName =>
    cases token with
    | word label => exact .stateName label p
    | _ => exact .fault _ _ _
  | stateRest start label =>
    by_cases hcolon : token = .colon
    · subst hcolon
      exact .stateColon start label p
    · rw [next_stateRest hcolon]
      exact .plain start label token p hcolon
  | reward start label =>
    cases token with
    | minus => exact .minus start label p
    | digits text =>
      change Moves _ _ (rewarded start label text 1)
      by_cases hle : number text ≤ 2 ^ 63 - 1
      · rw [rewarded_of_le hle, one_mul]
        exact .reward start label text p hle
      · rw [rewarded_of_not_le hle]
        exact .fault _ _ _
    | _ => exact .fault _ _ _
  | negative start label =>
    cases token with
    | digits text =>
      change Moves _ _ (rewarded start label text (-1))
      by_cases hle : number text ≤ 2 ^ 63 - 1
      · rw [rewarded_of_le hle, neg_one_mul]
        exact .negative start label text p hle
      · rw [rewarded_of_not_le hle]
        exact .fault _ _ _
    | _ => exact .fault _ _ _
  | stateEnd =>
    rw [next_stateEnd]
    exact .stateEnd token p
  | block =>
    cases token with
    | actions => exact .actions p
    | word label => exact .first label p
    | eof => exact .onlyBlocks p
    | _ => exact .fault _ _ _
  | actionName start labels =>
    cases token with
    | word label => exact .actionName start labels label p
    | _ => exact .fault _ _ _
  | actionEnd start labels =>
    cases token with
    | comma => exact .actionComma start labels p
    | semicolon => exact .blockEnd start labels p
    | _ => exact .fault _ _ _
  | source =>
    cases token with
    | word label => exact .later label p
    | eof => exact .eof p
    | _ => exact .fault _ _ _
  | action row =>
    cases token with
    | openBracket => exact .openBracket row p
    | arrow => exact .plainArrow row p
    | _ => exact .fault _ _ _
  | bracketed row =>
    cases token with
    | word label => exact .bracketed row label p
    | _ => exact .fault _ _ _
  | closing row =>
    cases token with
    | closeBracket => exact .closeBracket row p
    | _ => exact .fault _ _ _
  | arrow row =>
    cases token with
    | arrow => exact .arrow row p
    | _ => exact .fault _ _ _
  | weight row =>
    cases token with
    | digits text =>
      by_cases hle : number text ≤ 2 ^ 64 - 1
      · have hlt : number text < 2 ^ 64 := by omega
        have hw : (UInt64.ofNat (number text)).toNat = number text := UInt64.toNat_ofNat_of_lt' hlt
        rw [next_weight_of_le hle hw]
        exact .weight row text _ p hle hw
      · rw [next_weight_of_not_le hle]
        exact .fault _ _ _
    | _ => exact .fault _ _ _
  | colon row w =>
    cases token with
    | colon => exact .colon row w p
    | _ => exact .fault _ _ _
  | target row w =>
    cases token with
    | word label => exact .target row w label p
    | _ => exact .fault _ _ _
  | branchEnd row =>
    cases token with
    | plus => exact .plus row p
    | semicolon => exact .transition row p
    | _ => exact .fault _ _ _
  | nothing => exact .behind _

end Expecting

/-! ### What a situation has behind it -/

namespace Grammar

/-- The states and the blocks of actions. -/
def Preamble (ts : List Token) (ds : List Declaration) : Prop :=
  ∃ us vs states blocks, Separated State .comma us states ∧ Repeated Block vs blocks ∧
    ts = .states :: us ++ .semicolon :: vs ∧ ds = states ++ blocks

/-- A description without its end. -/
def Body (ts : List Token) (ds : List Declaration) : Prop :=
  ∃ us vs pre rows, Preamble us pre ∧ Repeated Transition vs rows ∧ ts = us ++ vs ∧ ds = pre ++ rows

variable {ts us hs : List Token} {ds rows : List Declaration}

theorem preamble_of_states (h : Separated State .comma ts ds) :
    Preamble (.states :: ts ++ [.semicolon]) ds :=
  ⟨ts, [], ds, [], h, .none, rfl, (List.append_nil ds).symm⟩

theorem Preamble.block (h : Preamble ts ds) {d : Declaration} (hd : Block us d) :
    Preamble (ts ++ us) (ds ++ [d]) := by
  obtain ⟨ws, vs, states, blocks, hstates, hblocks, rfl, rfl⟩ := h
  exact ⟨ws, vs ++ us, states, blocks ++ [d], hstates, hblocks.snoc hd, by simp, by simp⟩

theorem Preamble.body (h : Preamble ts ds) : Body ts ds :=
  ⟨ts, [], ds, [], h, .none, (List.append_nil ts).symm, (List.append_nil ds).symm⟩

theorem Body.transition (h : Body ts ds) {d : Declaration} (hd : Transition us d) :
    Body (ts ++ us) (ds ++ [d]) := by
  obtain ⟨ws, vs, pre, rows, hpre, hrows, rfl, rfl⟩ := h
  exact ⟨ws, vs ++ us, pre, rows ++ [d], hpre, hrows.snoc hd, by simp, by simp⟩

theorem Body.description (h : Body ts ds) : Description (ts ++ [.eof]) ds := by
  obtain ⟨_, vs, _, rows, hhead, hrows, rfl, rfl⟩ := h
  obtain ⟨us, ws, states, blocks, hstates, hblocks, rfl, rfl⟩ := hhead
  simpa using Description.parts hstates hblocks hrows

end Grammar

namespace Expecting

/-- **What a situation has behind it**: the tokens that were read, and the declarations that have
been completed. -/
def Past : Expecting → List Token → List Declaration → Prop
  | .header, ts, ds => ts = [] ∧ ds = []
  | .stateName, ts, ds => ∃ us, Open State .comma us ds ∧ ts = .states :: us
  | .stateRest _ label, ts, ds =>
    ∃ us, Open State .comma us ds ∧ ts = .states :: us ++ [.word label]
  | .reward _ label, ts, ds =>
    ∃ us, Open State .comma us ds ∧ ts = .states :: us ++ [.word label, .colon]
  | .negative _ label, ts, ds =>
    ∃ us, Open State .comma us ds ∧ ts = .states :: us ++ [.word label, .colon, .minus]
  | .stateEnd, ts, ds => ∃ us, Separated State .comma us ds ∧ ts = .states :: us
  | .block, ts, ds => Preamble ts ds
  | .actionName _ labels, ts, ds =>
    ∃ us vs, Preamble us ds ∧ Open Name .comma vs labels.reverse ∧ ts = us ++ .actions :: vs
  | .actionEnd _ labels, ts, ds =>
    ∃ us vs, Preamble us ds ∧ Separated Name .comma vs labels.reverse ∧ ts = us ++ .actions :: vs
  | .source, ts, ds => Body ts ds
  | .action row, ts, ds => ∃ us, Body us ds ∧ row.action = none ∧ row.branches = [] ∧
    ts = us ++ [.word row.source]
  | .bracketed row, ts, ds => ∃ us, Body us ds ∧ row.branches = [] ∧
    ts = us ++ [.word row.source, .openBracket]
  | .closing row, ts, ds => ∃ us label, Body us ds ∧ row.action = some label ∧
    row.branches = [] ∧ ts = us ++ [.word row.source, .openBracket, .word label]
  | .arrow row, ts, ds => ∃ us label, Body us ds ∧ row.action = some label ∧
    row.branches = [] ∧ ts = us ++ [.word row.source, .openBracket, .word label, .closeBracket]
  | .weight row, ts, ds => ∃ us hs vs, Body us ds ∧ Head hs row.source row.action ∧
    Open Arm .plus vs row.branches.reverse ∧ ts = us ++ (hs ++ vs)
  | .colon row w, ts, ds => ∃ us hs vs digits, Body us ds ∧ Head hs row.source row.action ∧
    Open Arm .plus vs row.branches.reverse ∧
    (number digits ≤ 2 ^ 64 - 1 ∧ w.toNat = number digits) ∧
    ts = us ++ (hs ++ (vs ++ [.digits digits]))
  | .target row w, ts, ds => ∃ us hs vs digits, Body us ds ∧ Head hs row.source row.action ∧
    Open Arm .plus vs row.branches.reverse ∧
    (number digits ≤ 2 ^ 64 - 1 ∧ w.toNat = number digits) ∧
    ts = us ++ (hs ++ (vs ++ [.digits digits, .colon]))
  | .branchEnd row, ts, ds => ∃ us hs vs, Body us ds ∧ Head hs row.source row.action ∧
    Separated Arm .plus vs row.branches.reverse ∧ ts = us ++ (hs ++ vs)
  | .nothing, ts, ds => ∃ us vs, Body us ds ∧ ts = us ++ .eof :: vs

variable {e next : Expecting} {token : Token} {ts us : List Token} {ds : List Declaration}

/-- A state that is whole, and the token behind it. -/
theorem Past.afterState (h : Separated State .comma us ds) (hnext : afterState token = .ok next) :
    next.Past (.states :: us ++ [token]) ds := by
  cases token with
  | comma =>
    obtain rfl := Except.ok.inj hnext
    exact ⟨us ++ [.comma], h.reopen, rfl⟩
  | semicolon =>
    obtain rfl := Except.ok.inj hnext
    exact preamble_of_states h
  | _ => cases hnext

/-- **One token more**: whatever the situation, its past goes on. -/
theorem Past.step {t : Located} (hpast : e.Past ts ds) (h : (e.next t).next = .ok next) :
    next.Past (ts ++ [t.token]) (ds ++ (e.next t).declarations) := by
  -- a move that completes nothing leaves the declarations as they were
  have hnothing : ∀ {next : Expecting} {ts : List Token}, next.Past ts ds →
      next.Past ts (ds ++ (go next).declarations) :=
    fun h => (List.append_nil ds).symm ▸ h
  have hmove := moves_next e t
  generalize e.next t = move at h hmove
  cases hmove with
  | fault => cases h
  | states p =>
    cases h
    obtain ⟨rfl, rfl⟩ := hpast
    exact ⟨[], open_nil, rfl⟩
  | stateName label p =>
    cases h
    obtain ⟨us, hopen, rfl⟩ := hpast
    exact hnothing ⟨us, hopen, rfl⟩
  | stateColon start label p =>
    cases h
    obtain ⟨us, hopen, rfl⟩ := hpast
    exact hnothing ⟨us, hopen, by simp⟩
  | plain start label token p =>
    obtain ⟨us, hopen, rfl⟩ := hpast
    exact Past.afterState (hopen.close (State.plain label)) h
  | minus start label p =>
    cases h
    obtain ⟨us, hopen, rfl⟩ := hpast
    exact hnothing ⟨us, hopen, by simp⟩
  | reward start label digits p hle =>
    cases h
    obtain ⟨us, hopen, rfl⟩ := hpast
    exact ⟨_, hopen.close (.reward label hle), by simp⟩
  | negative start label digits p hle =>
    cases h
    obtain ⟨us, hopen, rfl⟩ := hpast
    exact ⟨_, hopen.close (.negative label hle), by simp⟩
  | stateEnd token p =>
    obtain ⟨us, hstates, rfl⟩ := hpast
    exact (List.append_nil ds).symm ▸ Past.afterState hstates h
  | actions p =>
    cases h
    exact hnothing ⟨ts, [], hpast, open_nil, rfl⟩
  | first label p =>
    cases h
    exact hnothing ⟨ts, Preamble.body hpast, rfl, rfl, rfl⟩
  | onlyBlocks p =>
    cases h
    exact hnothing ⟨ts, [], Preamble.body hpast, rfl⟩
  | actionName start labels label p =>
    cases h
    obtain ⟨us, vs, hpreamble, hopen, rfl⟩ := hpast
    refine hnothing ⟨us, vs ++ [.word label], hpreamble, ?_, by simp⟩
    rw [List.reverse_cons]
    exact hopen.close (.word label)
  | actionComma start labels p =>
    cases h
    obtain ⟨us, vs, hpreamble, hnames, rfl⟩ := hpast
    exact hnothing ⟨us, vs ++ [.comma], hpreamble, hnames.reopen, by simp⟩
  | blockEnd start labels p =>
    cases h
    obtain ⟨us, vs, hpreamble, hnames, rfl⟩ := hpast
    rw [List.append_assoc]
    exact hpreamble.block (.names hnames)
  | later label p =>
    cases h
    exact hnothing ⟨ts, hpast, rfl, rfl, rfl⟩
  | eof p =>
    cases h
    exact hnothing ⟨ts, [], hpast, rfl⟩
  | openBracket row p =>
    cases h
    obtain ⟨us, hbody, haction, hbranches, rfl⟩ := hpast
    exact hnothing ⟨us, hbody, hbranches, by simp⟩
  | plainArrow row p =>
    cases h
    obtain ⟨us, hbody, haction, hbranches, rfl⟩ := hpast
    refine hnothing ⟨us, [.word row.source, .arrow], [], hbody, ?_, ?_, by simp⟩
    · rw [haction]
      exact .plain row.source
    · rw [hbranches]
      exact open_nil
  | bracketed row label p =>
    cases h
    obtain ⟨us, hbody, hbranches, rfl⟩ := hpast
    exact hnothing ⟨us, label, hbody, rfl, hbranches, by simp⟩
  | closeBracket row p =>
    cases h
    obtain ⟨us, label, hbody, haction, hbranches, rfl⟩ := hpast
    exact hnothing ⟨us, label, hbody, haction, hbranches, by simp⟩
  | arrow row p =>
    cases h
    obtain ⟨us, label, hbody, haction, hbranches, rfl⟩ := hpast
    refine hnothing ⟨us, [.word row.source, .openBracket, .word label, .closeBracket, .arrow], [],
      hbody, ?_, ?_, by simp⟩
    · rw [haction]
      exact .action row.source label
    · rw [hbranches]
      exact open_nil
  | weight row digits w p hle hw =>
    cases h
    obtain ⟨us, hs, vs, hbody, hhead, hopen, rfl⟩ := hpast
    exact hnothing ⟨us, hs, vs, digits, hbody, hhead, hopen, ⟨hle, hw⟩, by simp⟩
  | colon row w p =>
    cases h
    obtain ⟨us, hs, vs, digits, hbody, hhead, hopen, hweight, rfl⟩ := hpast
    exact hnothing ⟨us, hs, vs, digits, hbody, hhead, hopen, hweight, by simp⟩
  | target row w label p =>
    cases h
    obtain ⟨us, hs, vs, digits, hbody, hhead, hopen, hweight, rfl⟩ := hpast
    refine hnothing ⟨us, hs, vs ++ [.digits digits, .colon, .word label], hbody, hhead, ?_, by simp⟩
    rw [List.reverse_cons]
    exact hopen.close (.weighted label hweight.1 hweight.2)
  | plus row p =>
    cases h
    obtain ⟨us, hs, vs, hbody, hhead, hbranches, rfl⟩ := hpast
    exact hnothing ⟨us, hs, vs ++ [.plus], hbody, hhead, hbranches.reopen, by simp⟩
  | transition row p =>
    cases h
    obtain ⟨us, hs, vs, hbody, hhead, hbranches, rfl⟩ := hpast
    rw [List.append_assoc]
    exact hbody.transition (.branches hhead hbranches)
  | behind t =>
    cases h
    obtain ⟨us, vs, hbody, rfl⟩ := hpast
    exact hnothing ⟨us, vs ++ [t.token], hbody, by simp⟩

end Expecting

/-- **All tokens**: a reader that starts at a past carries it on. -/
theorem Reads.past {e last : Expecting} {l : List Located} {ds es : List Declaration}
    (h : Reads e l ds last) {ts : List Token} (hpast : e.Past ts es) :
    last.Past (ts ++ l.map Located.token) (es ++ ds) := by
  induction h generalizing ts es with
  | done e => simpa using hpast
  | step hnext _ ih =>
    have hrest := ih (Expecting.Past.step hpast hnext)
    rw [List.append_assoc, List.append_assoc] at hrest
    exact hrest

end MarkovDecision
