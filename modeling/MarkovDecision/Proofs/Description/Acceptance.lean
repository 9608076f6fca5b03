import MarkovDecision.Proofs.Description.Lexemes
import MarkovDecision.Proofs.Description.Reading

/-!
# A reader accepts exactly the descriptions

`MarkovDecision.Proofs.Description.Reading` shows that nothing else is accepted: what
a reader has behind it is the beginning of a description. Here the tokens of every
nonterminal are shown to lead on, wherever they stand in a text (`Leads`), by
induction on the derivation; and the two are put together.

The statements about a nonterminal have the rest of the description in them: if the
rest leads on from the situation behind the nonterminal, then the nonterminal and the
rest do so from the situation before it. For a state this is not a matter of taste. A
state without a reward is complete only when the token behind it is seen, so the
tokens of a state by themselves lead to no situation in which it has been declared.

After the end of the text a reader would go on reading anything. That does not matter,
because the scanner puts the end there once, and last (`exists_of_tokens`).
-/

namespace MarkovDecision

open Grammar

/-! ### Every description leads to the end -/

/-- Tokens lead from one situation to another, wherever they stand. -/
def Leads (e : Expecting) (ts : List Token) (ds : List Declaration) (last : Expecting) : Prop :=
  ∀ l : List Located, l.map Located.token = ts → Reads e l ds last

section Leads

variable {e last : Expecting} {t : Token} {ts us : List Token} {ds : List Declaration}

theorem leads_nil (e : Expecting) : Leads e [] [] e := by
  intro l hl
  obtain rfl := List.map_eq_nil_iff.mp hl
  exact .done e

/-- A token that completes nothing. -/
theorem Leads.shift {after : Position → Expecting} (h : ∀ p, Leads (after p) ts ds last)
    (ht : ∀ p, e.next ⟨t, p⟩ = Expecting.go (after p)) : Leads e (t :: ts) ds last := by
  intro l hl
  obtain ⟨⟨_, p⟩, rest, rfl, rfl, hrest⟩ := List.map_eq_cons_iff.mp hl
  have hstep := Reads.step (congrArg Move.next (ht p)) (h p rest hrest)
  rwa [ht p] at hstep

/-- A token that completes a declaration. -/
theorem Leads.declare {after : Expecting} {d : Declaration} (h : Leads after ts ds last)
    (start : Position) (ht : ∀ p, e.next ⟨t, p⟩ = ⟨some (start, d), .ok after⟩) :
    Leads e (t :: ts) (d :: ds) last := by
  intro l hl
  obtain ⟨⟨_, p⟩, rest, rfl, rfl, hrest⟩ := List.map_eq_cons_iff.mp hl
  have hstep := Reads.step (congrArg Move.next (ht p)) (h rest hrest)
  rwa [ht p] at hstep

/-- The mark behind a state that has been declared. -/
theorem Leads.afterState {after : Expecting} (h : Leads after ts ds last)
    (hmark : Expecting.afterState t = .ok after) : Leads .stateEnd (t :: ts) ds last := by
  refine .shift (fun _ => h) fun p => ?_
  rw [Expecting.next_stateEnd, hmark]
  rfl

/-- **A state, and the mark behind it.** -/
theorem leads_state {after : Expecting} {d : Declaration} (hd : State us d)
    (hmark : Expecting.afterState t = .ok after) (h : Leads after ts ds last) :
    Leads .stateName (us ++ t :: ts) (d :: ds) last := by
  cases hd with
  | plain label =>
    refine .shift (fun start => ?_) fun _ => rfl
    refine h.declare start fun p => ?_
    have hcolon : t ≠ .colon := by
      rintro rfl
      cases hmark
    rw [Expecting.next_stateRest hcolon, hmark]
  | reward label hle =>
    refine .shift (fun start => ?_) fun _ => rfl
    refine .shift (fun _ => ?_) fun _ => rfl
    refine (h.afterState hmark).declare start fun _ => ?_
    exact (Expecting.rewarded_of_le hle 1).trans (by rw [one_mul])
  | negative label hle =>
    refine .shift (fun start => ?_) fun _ => rfl
    refine .shift (fun _ => ?_) fun _ => rfl
    refine .shift (fun _ => ?_) fun _ => rfl
    refine (h.afterState hmark).declare start fun _ => ?_
    exact (Expecting.rewarded_of_le hle (-1)).trans (by rw [neg_one_mul])

/-- The states, and what comes after them. -/
theorem leads_states {states : List Declaration} (hstates : Separated State .comma us states)
    (h : Leads .block ts ds last) :
    Leads .stateName (us ++ .semicolon :: ts) (states ++ ds) last := by
  induction hstates with
  | last hd => exact leads_state hd rfl h
  | more hd _ ih =>
    rw [List.append_assoc]
    exact leads_state hd rfl ih

/-- The names of a block, after those that have been read. -/
theorem leads_names {labels : List String} (hnames : Separated Name .comma us labels)
    (h : Leads .block ts ds last) (start : Position) (read : List String) :
    Leads (.actionName start read) (us ++ .semicolon :: ts)
      (.actions (read.reverse ++ labels) :: ds) last := by
  induction hnames generalizing read with
  | last hlabel =>
    obtain ⟨label⟩ := hlabel
    refine .shift (fun _ => ?_) fun _ => rfl
    refine h.declare start fun _ => ?_
    rw [← List.reverse_cons]
    rfl
  | more hlabel _ ih =>
    obtain ⟨label⟩ := hlabel
    rw [List.append_cons read.reverse, ← List.reverse_cons]
    refine .shift (fun _ => ?_) fun _ => rfl
    exact .shift (fun _ => ih (_ :: read)) fun _ => rfl

/-- The blocks of actions, and what comes after them. -/
theorem leads_blocks {blocks : List Declaration} (hblocks : Repeated Grammar.Block us blocks)
    (h : Leads .block ts ds last) : Leads .block (us ++ ts) (blocks ++ ds) last := by
  induction hblocks with
  | none => exact h
  | more hblock _ ih =>
    obtain ⟨hnames⟩ := hblock
    rw [List.append_assoc, List.cons_append, List.cons_append, List.append_assoc]
    exact .shift (fun start => leads_names hnames ih start []) fun _ => rfl

/-- The branches of a transition, after those that have been read. -/
theorem leads_branches {branches : List Branch} (hbranches : Separated Arm .plus us branches)
    (h : Leads .source ts ds last) (row : Row) :
    Leads (.weight row) (us ++ .semicolon :: ts)
      (.transition row.source row.action (row.branches.reverse ++ branches) :: ds) last := by
  induction hbranches generalizing row with
  | last harm =>
    obtain ⟨label, hle, hw⟩ := harm
    refine .shift (fun _ => ?_) (Expecting.next_weight_of_le hle hw row)
    refine .shift (fun _ => ?_) fun _ => rfl
    refine .shift (fun _ => ?_) fun _ => rfl
    refine h.declare row.position fun _ => ?_
    rw [← List.reverse_cons]
    rfl
  | more harm _ ih =>
    obtain ⟨label, hle, hw⟩ := harm
    rw [List.append_cons row.branches.reverse, ← List.reverse_cons]
    refine .shift (fun _ => ?_) (Expecting.next_weight_of_le hle hw row)
    refine .shift (fun _ => ?_) fun _ => rfl
    refine .shift (fun _ => ?_) fun _ => rfl
    refine .shift (fun _ => ?_) fun _ => rfl
    exact ih { row with branches := _ :: row.branches }

/-- The head of a transition, and what comes after it, where a transition may begin. -/
theorem leads_head {source : String} {action : Option String} (hhead : Head us source action)
    (hsource : ∀ label p, e.next ⟨.word label, p⟩
      = Expecting.go (.action { position := p, source := label }))
    (h : ∀ position, Leads (.weight { position, source, action }) ts ds last) :
    Leads e (us ++ ts) ds last := by
  cases hhead with
  | plain source =>
    refine .shift (fun p => ?_) (hsource source)
    exact .shift (fun _ => h p) fun _ => rfl
  | action source label =>
    refine .shift (fun p => ?_) (hsource source)
    refine .shift (fun _ => ?_) fun _ => rfl
    refine .shift (fun _ => ?_) fun _ => rfl
    refine .shift (fun _ => ?_) fun _ => rfl
    exact .shift (fun _ => h p) fun _ => rfl

/-- The transitions up to the end, where a transition may begin. -/
theorem leads_transitions {rows : List Declaration} (hrows : Repeated Transition us rows)
    (hsource : e = .block ∨ e = .source) : Leads e (us ++ [.eof]) rows .nothing := by
  induction hrows generalizing e with
  | none =>
    refine .shift (fun _ => leads_nil .nothing) fun _ => ?_
    rcases hsource with rfl | rfl <;> rfl
  | more hrow _ ih =>
    obtain ⟨hhead, hbranches⟩ := hrow
    rw [List.append_assoc, List.append_assoc, List.append_assoc]
    refine leads_head hhead (fun label p => ?_) fun p =>
      leads_branches hbranches (ih (.inr rfl)) _
    rcases hsource with rfl | rfl <;> rfl

/-- **Every description leads to the end**, and declares what it derives. -/
theorem leads_description (h : Description ts ds) : Leads .header ts ds .nothing := by
  obtain ⟨hstates, hblocks, hrows⟩ := h
  rw [List.append_assoc, List.append_assoc]
  refine .shift (fun _ => leads_states hstates ?_) fun _ => rfl
  exact leads_blocks hblocks (leads_transitions hrows (.inl rfl))

end Leads

/-! ### Acceptance -/

/-- **The tokens of a text have the end once, and last.** -/
theorem exists_of_tokens {text : String} {ts : List Located} (h : tokens text = .ok ts) :
    ∃ us p, ts = us ++ [⟨.eof, p⟩] ∧ ∀ t ∈ us, t.token ≠ .eof := by
  obtain ⟨us, p, rfl, hus⟩ := exists_lexemes_of_tokens h
  refine ⟨us, p, rfl, fun t ht => ?_⟩
  obtain ⟨cs, hcs⟩ := hus t ht
  exact hcs.ne_eof

/-- Only where a transition may begin can the end of the text come next. -/
theorem Expecting.eq_nothing_of_eof {e next : Expecting} {p : Position}
    (h : (e.next ⟨.eof, p⟩).next = .ok next) : next = .nothing := by
  cases e <;> first | exact (Except.ok.inj h).symm | cases h

theorem Reads.eq_nothing {e last : Expecting} {us : List Located} {p : Position}
    {ds : List Declaration} (h : Reads e (us ++ [Located.mk .eof p]) ds last) :
    last = .nothing := by
  induction us generalizing e ds with
  | nil =>
    obtain _ | ⟨hnext, ⟨⟩⟩ := h
    exact Expecting.eq_nothing_of_eof hnext
  | cons t us ih =>
    obtain _ | ⟨_, hrest⟩ := h
    exact ih hrest

/-- **Tokens with the end last are read to their end exactly if they are a description**, and what
is declared on the way is what the description derives. -/
theorem exists_reads_iff {us : List Located} {p : Position} (hus : ∀ t ∈ us, t.token ≠ .eof)
    {ds : List Declaration} :
    (∃ last, Reads .header (us ++ [Located.mk .eof p]) ds last) ↔
      Description ((us ++ [Located.mk .eof p]).map Located.token) ds := by
  constructor
  · rintro ⟨last, hreads⟩
    obtain rfl := hreads.eq_nothing
    have hpast : Expecting.nothing.Past ([] ++ _) ([] ++ ds) := hreads.past ⟨rfl, rfl⟩
    obtain ⟨vs, ws, hbody, heq⟩ := hpast
    rw [List.nil_append, List.map_append] at heq
    -- the end that the reader has seen is the last token, as there is no other
    rcases List.eq_nil_or_concat ws with rfl | ⟨ws, t, rfl⟩
    · rw [List.map_append, heq]
      exact hbody.description
    · rw [List.concat_eq_append, ← List.cons_append, ← List.append_assoc] at heq
      have hmem : Token.eof ∈ us.map Located.token := by
        rw [(List.append_inj' heq rfl).1]
        exact List.mem_append_right vs List.mem_cons_self
      obtain ⟨t, ht, heof⟩ := List.mem_map.mp hmem
      exact absurd heof (hus t ht)
  · intro h
    exact ⟨.nothing, leads_description h _ rfl⟩

section Acceptance

variable {σ ε : Type}

/-- A computation whose result is not needed ends in the same state. -/
theorem discard_eq_ok_iff {α : Type} {x : EStateM ε σ α} {s s' : σ} :
    discard x s = .ok () s' ↔ ∃ a, x s = .ok a s' := by
  have hdiscard : discard x s = EStateM.map (fun _ => ()) x s := rfl
  rw [hdiscard, EStateM.map]
  rcases x s with ⟨a, t⟩ | ⟨e, t⟩
  · constructor
    · rintro ⟨⟩
      exact ⟨a, rfl⟩
    · rintro ⟨_, ⟨⟩⟩
      rfl
  · constructor
    · rintro ⟨⟩
    · rintro ⟨_, ⟨⟩⟩

/-- **A reader accepts exactly the descriptions.** Into a sink that accepts every declaration, a
text is read without a fault if and only if it falls into tokens and these are derived by the
grammar; and then the sink has been handed what the derivation declares, in order and nothing
else. -/
theorem readDescription_iff (take : Declaration → σ → σ) (text : String) (s s' : σ) :
    readDescription (ε := ε) (.accepting take) text s = .ok () s' ↔
      ∃ ts ds, tokens text = .ok ts ∧ Description (ts.map Located.token) ds ∧
        s' = ds.foldl (fun s d => take d s) s := by
  rw [readDescription]
  rcases htokens : tokens text with stray | ts
  · constructor
    · intro h
      cases h
    · rintro ⟨ts, _, hts, -⟩
      cases hts
  · obtain ⟨us, p, rfl, hus⟩ := exists_of_tokens htokens
    refine discard_eq_ok_iff.trans ?_
    constructor
    · rintro ⟨last, hlast⟩
      obtain ⟨ds, hreads, rfl⟩ := (foldlM_feedToken_iff take).mp hlast
      exact ⟨_, ds, rfl, (exists_reads_iff hus).mp ⟨last, hreads⟩, rfl⟩
    · rintro ⟨_, ds, hts, hds, rfl⟩
      obtain rfl := Except.ok.inj hts
      obtain ⟨last, hreads⟩ := (exists_reads_iff hus).mpr hds
      exact ⟨last, (foldlM_feedToken_iff take).mpr ⟨ds, hreads, rfl⟩⟩

/-- The recorder is such a sink. -/
example : (recorder : Sink (List Declaration) ε) = .accepting List.cons := rfl

end Acceptance

end MarkovDecision
