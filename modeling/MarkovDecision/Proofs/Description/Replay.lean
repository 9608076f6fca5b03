import MarkovDecision.Proofs.Description.Reading

/-!
# Reading is replaying

Parsing and handing over are interleaved: a declaration goes to the sink as soon as it
is complete, and the reader looks at the next token only after the sink has accepted
it. Still the sink has no say in what it is handed. The declarations of a text, the
places where they begin and the fault at the end are a matter of the text alone (its
`Transcript`), and reading into a sink is feeding it the declarations in order, up to
the first one that it refuses (`readDescription_eq`).

What takes an argument is the places. A refusal is reported where the declaration
begins, and by then the reader has gone past that token: it has kept the place along
with what it holds of the declaration. `Expecting.Keeps` says that it has kept the
right one: the place of the token that stood next when everything declared before had
been handed over, and a declaration could begin. One token keeps this true
(`Expecting.Keeps.step`), so it holds of every event of a transcript
(`placed_of_transcript`).
-/

namespace MarkovDecision

/-! ### The transcript of a text -/

/-- What comes of a text: the declarations that it completes, each with the place where it begins,
and what is wrong in the end. -/
structure Transcript where
  /-- The declarations, in order. -/
  events : List (Position × Declaration)
  /-- The fault that ends the text, and its place. -/
  fault : Option (Position × SyntaxFault)

namespace Transcript

/-- A transcript with a declaration before it, if there is one. -/
def after (event : Option (Position × Declaration)) (script : Transcript) : Transcript :=
  { script with events := event.toList ++ script.events }

/-- The transcript of tokens that are read from a situation on. -/
def ofTokens (e : Expecting) : List Located → Transcript
  | [] => ⟨[], none⟩
  | t :: ts =>
    match (e.next t).next with
    | .ok next => (ofTokens next ts).after (e.next t).declared
    | .error fault => ⟨(e.next t).declared.toList, some (t.position, fault)⟩

/-- **A transcript ends with the tokens, or with the first one that is out of place.** Its
declarations are those that the tokens have completed by then, the last one of them included. -/
theorem ofTokens_eq_or (e : Expecting) (ts : List Located) :
    (∃ last, (ofTokens e ts).fault = none ∧
      Reads e ts ((ofTokens e ts).events.map Prod.snd) last) ∨
    ∃ us t vs ds mid fault, ts = us ++ t :: vs ∧ Reads e us ds mid ∧
      (mid.next t).next = .error fault ∧ (ofTokens e ts).fault = some (t.position, fault) ∧
      (ofTokens e ts).events.map Prod.snd = ds ++ (mid.next t).declarations := by
  induction ts generalizing e with
  | nil => exact .inl ⟨e, rfl, .done e⟩
  | cons t ts ih =>
    have hmap : (e.next t).declared.toList.map Prod.snd = (e.next t).declarations := by
      rw [Move.declarations]
      cases (e.next t).declared <;> rfl
    rw [ofTokens]
    cases hnext : (e.next t).next with
    | ok next =>
      simp only [after, List.map_append, hmap]
      rcases ih next with ⟨last, hfault, hreads⟩ |
        ⟨us, t', vs, ds, mid, fault, rfl, hreads, hmid, hfault, hevents⟩
      · exact .inl ⟨last, hfault, .step hnext hreads⟩
      · refine .inr ⟨t :: us, t', vs, _, mid, fault, rfl, .step hnext hreads, hmid, hfault, ?_⟩
        rw [hevents, List.append_assoc]
    | error fault => exact .inr ⟨[], t, ts, [], e, fault, rfl, .done e, hnext, rfl, hmap⟩

/-- **The transcript of a text.** A character that is part of no token comes before everything. -/
def ofText (text : String) : Transcript :=
  match tokens text with
  | .error stray => ⟨[], some (stray.position, .strayChar stray.char)⟩
  | .ok ts => ofTokens .header ts

end Transcript

section Replay

variable {σ ε : Type}

/-- What a reader ends with when everything has been handed over. -/
def conclude (fault : Option (Position × SyntaxFault)) (s : σ) :
    EStateM.Result (ReadError ε) σ Unit :=
  match fault with
  | none => .ok () s
  | some (position, fault) => .error (.syntactic position fault) s

/-- **Feeding a sink**, one declaration after the other. The first that is refused ends it, and the
refusal is reported where the declaration begins; if none is, the fault of the text counts. -/
def replay (sink : Sink σ ε) (fault : Option (Position × SyntaxFault)) :
    List (Position × Declaration) → σ → EStateM.Result (ReadError ε) σ Unit
  | [], s => conclude fault s
  | (position, d) :: rest, s =>
    match sink d s with
    | .ok _ s' => replay sink fault rest s'
    | .error e s' => .error (.declaration position e) s'

/-- A sink that accepts everything is fed to the end. -/
theorem replay_accepting (take : Declaration → σ → σ) (fault : Option (Position × SyntaxFault))
    (events : List (Position × Declaration)) (s : σ) :
    replay (ε := ε) (.accepting take) fault events s
      = conclude fault (events.foldl (fun s event => take event.2 s) s) := by
  induction events generalizing s with
  | nil => rfl
  | cons event rest ih =>
    obtain ⟨position, d⟩ := event
    exact ih (take d s)

/-- One declaration more at the beginning, if there is one. -/
theorem replay_append (sink : Sink σ ε) (fault : Option (Position × SyntaxFault))
    (event : Option (Position × Declaration)) (events : List (Position × Declaration)) (s : σ) :
    replay sink fault (event.toList ++ events) s =
      match deliver sink event s with
      | .ok _ s' => replay sink fault events s'
      | .error refusal s' => .error refusal s' := by
  rcases event with _ | ⟨position, d⟩
  · rfl
  · simp only [Option.toList_some, List.singleton_append, replay, deliver, EStateM.adaptExcept]
    cases sink d s <;> rfl

/-- **One token**: what it completes is handed over, and unless that is refused, the reader goes on
or finds its fault. -/
theorem feedToken_eq (sink : Sink σ ε) (e : Expecting) (t : Located) (s : σ) :
    feedToken sink e t s =
      match deliver sink (e.next t).declared s with
      | .error refusal s' => .error refusal s'
      | .ok _ s' =>
        match (e.next t).next with
        | .ok next => .ok next s'
        | .error fault => .error (.syntactic t.position fault) s' := by
  simp only [feedToken, bind, EStateM.bind]
  cases deliver sink (e.next t).declared s with
  | error refusal s' => rfl
  | ok _ s' => cases (e.next t).next <;> rfl

/-- **All tokens**: reading them is replaying their transcript. -/
theorem discard_foldlM_feedToken (sink : Sink σ ε) (e : Expecting) (ts : List Located) (s : σ) :
    discard (ts.foldlM (feedToken sink) e) s
      = replay sink (Transcript.ofTokens e ts).fault (Transcript.ofTokens e ts).events s := by
  induction ts generalizing e s with
  | nil => rfl
  | cons t ts ih =>
    have hcons : discard ((t :: ts).foldlM (feedToken sink) e) s =
        match feedToken sink e t s with
        | .ok next s' => discard (ts.foldlM (feedToken sink) next) s'
        | .error fault s' => .error fault s' := by
      rw [List.foldlM_cons]
      simp only [discard, Functor.discard, Functor.mapConst, bind, EStateM.bind, Function.comp,
        EStateM.map]
      cases feedToken sink e t s <;> rfl
    rw [hcons, feedToken_eq, Transcript.ofTokens]
    cases (e.next t).next with
    | ok next =>
      dsimp only [Transcript.after]
      rw [replay_append]
      cases deliver sink (e.next t).declared s with
      | ok _ s' => exact ih next s'
      | error refusal s' => rfl
    | error fault =>
      have hlast := replay_append sink (some (t.position, fault)) (e.next t).declared [] s
      rw [List.append_nil] at hlast
      dsimp only
      rw [hlast]
      cases deliver sink (e.next t).declared s <;> rfl

/-- **Reading a text is replaying its transcript.** -/
theorem readDescription_eq (sink : Sink σ ε) (text : String) (s : σ) :
    readDescription sink text s
      = replay sink (Transcript.ofText text).fault (Transcript.ofText text).events s := by
  rw [readDescription, Transcript.ofText]
  cases tokens text with
  | error stray => rfl
  | ok ts => exact discard_foldlM_feedToken sink .header ts s

end Replay

/-! ### Where declarations begin -/

/-- The token that a declaration begins with, and the situation in which it stands. -/
inductive Begins : Expecting → Token → Declaration → Prop
  /-- A state begins with its name. -/
  | state (label : String) (reward : Option ℤ) :
      Begins .stateName (.word label) (.state label reward)
  /-- A block begins with the word that opens it. -/
  | actions (labels : List String) : Begins .block .actions (.actions labels)
  /-- The first transition begins with its source, where a block could stand. -/
  | first (source : String) (action : Option String) (branches : List Branch) :
      Begins .block (.word source) (.transition source action branches)
  /-- A later one begins with its source, too. -/
  | later (source : String) (action : Option String) (branches : List Branch) :
      Begins .source (.word source) (.transition source action branches)

/-- **A declaration begins at a place**, after certain others: a reader that has gone through the
tokens before that place has completed these and nothing else, and the token there is one that the
declaration begins with. -/
def Placed (ts : List Located) (ds : List Declaration) (place : Position) (d : Declaration) :
    Prop :=
  ∃ us t vs e, ts = us ++ t :: vs ∧ Reads .header us ds e ∧ t.position = place ∧ Begins e t.token d

section Places

variable {ts : List Located} {ds : List Declaration} {e next : Expecting} {t : Located}
  {place : Position} {d : Declaration}

/-- One token more. -/
theorem Reads.snoc {start : Expecting} (h : Reads start ts ds e) (ht : (e.next t).next = .ok next) :
    Reads start (ts ++ [t]) (ds ++ (e.next t).declarations) next := by
  induction h with
  | done e =>
    have hlast := Reads.step ht (.done next)
    rwa [List.append_nil] at hlast
  | step hnext _ ih =>
    rw [List.append_assoc]
    exact .step hnext (ih ht)

/-- What stands behind does not matter. -/
theorem Placed.append (h : Placed ts ds place d) (ws : List Located) :
    Placed (ts ++ ws) ds place d := by
  obtain ⟨us, t, vs, e, rfl, hreads, hplace, hbegins⟩ := h
  exact ⟨us, t, vs ++ ws, e, by simp, hreads, hplace, hbegins⟩

/-- A token that completes nothing. -/
theorem Placed.shift (h : Placed ts ds place d) : Placed (ts ++ [t]) (ds ++ []) place d := by
  rw [List.append_nil]
  exact h.append [t]

/-- A declaration begins with a token that completes nothing. -/
theorem placed_shift (h : Reads .header ts ds e) (ht : Begins e t.token d) :
    Placed (ts ++ [t]) (ds ++ []) t.position d := by
  rw [List.append_nil]
  exact ⟨ts, t, [], e, rfl, h, rfl, ht⟩

namespace Expecting

/-- **What a reader keeps of the declaration it is in**: the place where that declaration begins,
whatever comes of it. -/
def Keeps (ts : List Located) (ds : List Declaration) : Expecting → Prop
  | .stateRest start label | .reward start label | .negative start label =>
    ∀ reward, Placed ts ds start (.state label reward)
  | .actionName start _ | .actionEnd start _ => ∀ labels, Placed ts ds start (.actions labels)
  | .action row | .bracketed row | .closing row | .arrow row | .weight row | .colon row _
  | .target row _ | .branchEnd row =>
    ∀ action branches, Placed ts ds row.position (.transition row.source action branches)
  | .header | .stateName | .stateEnd | .block | .source | .nothing => True

/-- **What is completed is reported where it begins.** -/
theorem Keeps.placed (h : e.Keeps ts ds) (hdeclared : (e.next t).declared = some (place, d)) :
    Placed ts ds place d := by
  have hmove := moves_next e t
  generalize e.next t = move at hdeclared hmove
  cases hmove with
  | plain | reward | negative =>
    cases hdeclared
    exact h _
  | blockEnd =>
    cases hdeclared
    exact h _
  | transition =>
    cases hdeclared
    exact h _ _
  | _ => cases hdeclared

/-- After a state another one may begin, or a block: nothing is kept. -/
theorem keeps_of_afterState {token : Token} (h : afterState token = .ok next) :
    next.Keeps ts ds := by
  cases token with
  | comma | semicolon =>
    cases h
    trivial
  | _ => cases h

/-- **One token more**: the reader goes on with its declaration, begins one, or is between two. -/
theorem Keeps.step (hreads : Reads .header ts ds e) (h : e.Keeps ts ds)
    (hnext : (e.next t).next = .ok next) :
    next.Keeps (ts ++ [t]) (ds ++ (e.next t).declarations) := by
  have hmove := moves_next e t
  generalize e.next t = move at hnext hmove
  cases hmove with
  | fault => cases hnext
  -- between two declarations nothing is kept
  | states | reward | negative | onlyBlocks | eof | blockEnd | transition | behind =>
    cases hnext
    trivial
  | plain | stateEnd => exact keeps_of_afterState hnext
  -- a declaration begins
  | stateName label =>
    cases hnext
    exact fun reward => placed_shift hreads (.state label reward)
  | actions =>
    cases hnext
    exact fun labels => placed_shift hreads (.actions labels)
  | first label =>
    cases hnext
    exact fun action branches => placed_shift hreads (.first label action branches)
  | later label =>
    cases hnext
    exact fun action branches => placed_shift hreads (.later label action branches)
  -- the reader goes on with it
  | stateColon | minus | actionName | actionComma =>
    cases hnext
    exact fun held => (h held).shift
  | openBracket | plainArrow | bracketed | closeBracket | arrow | weight | colon | target | plus =>
    cases hnext
    exact fun action branches => (h action branches).shift

end Expecting

/-- **Every event of a transcript is reported where it begins**, the events before it having been
handed over by then. -/
theorem placed_of_transcript (hreads : Reads .header ts ds e) (h : e.Keeps ts ds)
    (l : List Located) {before after : List (Position × Declaration)}
    (hevents : (Transcript.ofTokens e l).events = before ++ (place, d) :: after) :
    Placed (ts ++ l) (ds ++ before.map Prod.snd) place d := by
  induction l generalizing ts ds e before with
  | nil => cases before <;> cases hevents
  | cons t l ih =>
    -- the events are the one that the token completes, if any, and those of the tokens behind it
    obtain ⟨rest, hsplit, hrest⟩ : ∃ rest,
        (Transcript.ofTokens e (t :: l)).events = (e.next t).declared.toList ++ rest ∧
        ∀ before, rest = before ++ (place, d) :: after →
          Placed (ts ++ t :: l) (ds ++ (e.next t).declarations ++ before.map Prod.snd) place d := by
      rw [Transcript.ofTokens]
      cases hnext : (e.next t).next with
      | ok next =>
        refine ⟨_, rfl, fun before hbefore => ?_⟩
        rw [List.append_cons]
        exact ih (hreads.snoc hnext) (h.step hreads hnext) hbefore
      | error fault =>
        refine ⟨[], (List.append_nil _).symm, fun before hbefore => ?_⟩
        cases before <;> cases hbefore
    rw [hsplit] at hevents
    rw [Move.declarations] at hrest
    cases hdeclared : (e.next t).declared with
    | none =>
      rw [hdeclared] at hevents hrest
      simpa using hrest before hevents
    | some event =>
      rw [hdeclared] at hevents hrest
      cases before with
      | nil =>
        cases hevents
        simpa using (h.placed hdeclared).append (t :: l)
      | cons first before =>
        obtain ⟨rfl, htail⟩ := List.cons.inj hevents
        simpa using hrest before htail

end Places

/-- **Reading into any sink is replaying the transcript of the text**, its declarations with their
places and perhaps a fault:

* a sink that accepts everything is handed the declarations, in order, and the result is the fault;
* any other sink is handed them up to the first one it refuses, and stays as that leaves it; the
  refusal is reported at the place of the declaration, and if there is none the result is the fault;
* if there is no fault, the declarations are those that the tokens of the text complete, and a fault
  that is not the one of a character is the one of the first token out of place, the declarations
  being those completed before it or by it;
* the place of a declaration is the one of the token it begins with – the name of a state, the word
  that opens a block, the source of a transition – where a reader stands that has handed over the
  declarations before it;
* a character that is part of no token leaves every sink as it was. -/
theorem readDescription_replays (text : String) :
    let script := Transcript.ofText text
    (∀ (σ ε : Type) (take : Declaration → σ → σ) (s : σ),
      readDescription (ε := ε) (.accepting take) text s
        = conclude script.fault (script.events.foldl (fun s event => take event.2 s) s)) ∧
    (∀ (σ ε : Type) (sink : Sink σ ε) (s : σ),
      readDescription sink text s = replay sink script.fault script.events s) ∧
    (∀ ts, tokens text = .ok ts →
      (∃ last, script.fault = none ∧ Reads .header ts (script.events.map Prod.snd) last) ∨
      ∃ us t vs ds mid fault, ts = us ++ t :: vs ∧ Reads .header us ds mid ∧
        (mid.next t).next = .error fault ∧ script.fault = some (t.position, fault) ∧
        script.events.map Prod.snd = ds ++ (mid.next t).declarations) ∧
    (∀ before place d after, script.events = before ++ (place, d) :: after →
      ∃ ts, tokens text = .ok ts ∧ Placed ts (before.map Prod.snd) place d) ∧
    ∀ stray, tokens text = .error stray → script.events = [] ∧
      ∀ (σ ε : Type) (sink : Sink σ ε) (s : σ), readDescription sink text s
        = .error (.syntactic stray.position (.strayChar stray.char)) s := by
  intro script
  have hok : ∀ {ts}, tokens text = .ok ts → script = Transcript.ofTokens .header ts := by
    intro ts htokens
    simp only [script, Transcript.ofText, htokens]
  have hstray : ∀ {stray}, tokens text = .error stray →
      script = ⟨[], some (stray.position, .strayChar stray.char)⟩ := by
    intro stray htokens
    simp only [script, Transcript.ofText, htokens]
  refine ⟨fun σ ε take s => ?_, fun σ ε sink s => readDescription_eq sink text s,
    fun ts htokens => ?_, fun before place d after hevents => ?_, fun stray htokens => ?_⟩
  · rw [readDescription_eq, replay_accepting]
  · rw [hok htokens]
    exact Transcript.ofTokens_eq_or .header ts
  · cases htokens : tokens text with
    | error stray =>
      rw [hstray htokens] at hevents
      cases before <;> cases hevents
    | ok ts =>
      rw [hok htokens] at hevents
      exact ⟨ts, rfl, placed_of_transcript (.done .header) trivial ts hevents⟩
  · refine ⟨by rw [hstray htokens], fun σ ε sink s => ?_⟩
    have hreplay : readDescription sink text s = replay sink script.fault script.events s :=
      readDescription_eq sink text s
    rw [hreplay, hstray htokens]
    rfl

end MarkovDecision
