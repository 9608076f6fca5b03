import MarkovDecision.Proofs.Description.Faults
import MarkovDecision.Proofs.Description.Replay
import MarkovDecision.Proofs.Description.Writing

/-!
# The first token that is out of place

A reader that finds a fault reports the place of a token. This module says that it is the
right one (`readDescription_first_impossible`): what stands before that token is the
beginning of a text that is accepted, and together with that token it is the beginning of
nothing that is accepted.

For the first half, every situation has a way out (`Expecting.remainder`): a few tokens
that lead from it to the end (`exists_leads_remainder`). They have lexemes, and so have
the tokens before the fault, since they come from a text; hence there is a text that has
just these tokens.

For the second half it has to be seen that nothing else could have been done with the
tokens before: whether a token is in its place depends on them, but neither on where they
stand nor on how a number is spelt. So a reader is compared with one that forgets all it
holds (`Expecting.blank`), takes the same tokens for what they mean (`Token.sense`), and
goes the same way (`Reads.foldlM_onward`). That one is a function of what the tokens mean,
and where it fails it fails for every continuation. The first half needs this as well, for
in the new text the tokens stand elsewhere (`Reads.congr`).
-/

namespace MarkovDecision

open Grammar

/-! ### Ways out -/

namespace Expecting

/-- The tokens of a branch and of the end of a transition. -/
def lastBranch : List Token := [.digits "1", .colon, .word "s", .semicolon]

/-- **A way out**: tokens that lead from a situation to where the text may end. -/
def remainder : Expecting → List Token
  | .header => [.states, .word "s", .semicolon]
  | .stateName | .actionName _ _ | .target _ _ => [.word "s", .semicolon]
  | .reward _ _ | .negative _ _ => [.digits "1", .semicolon]
  | .stateRest _ _ | .stateEnd | .actionEnd _ _ | .branchEnd _ => [.semicolon]
  | .action _ | .arrow _ => .arrow :: lastBranch
  | .bracketed _ => .word "a" :: .closeBracket :: .arrow :: lastBranch
  | .closing _ => .closeBracket :: .arrow :: lastBranch
  | .weight _ => lastBranch
  | .colon _ _ => [.colon, .word "s", .semicolon]
  | .block | .source | .nothing => []

end Expecting

section Remainders

variable {e : Expecting}

/-- The text may end. -/
theorem leads_eof (he : ∀ p, e.next ⟨.eof, p⟩ = Expecting.go .nothing) :
    Leads e [.eof] [] .nothing :=
  .shift (fun _ => leads_nil .nothing) he

theorem exists_leads_branchEnd (row : Row) :
    ∃ ds, Leads (.branchEnd row) [.semicolon, .eof] ds .nothing :=
  ⟨_, (leads_eof fun _ => rfl).declare row.position fun _ => rfl⟩

theorem exists_leads_target (row : Row) (w : UInt64) :
    ∃ ds, Leads (.target row w) [.word "s", .semicolon, .eof] ds .nothing := by
  obtain ⟨ds, h⟩ := exists_leads_branchEnd { row with branches := ⟨w, "s"⟩ :: row.branches }
  exact ⟨ds, .shift (fun _ => h) fun _ => rfl⟩

theorem exists_leads_weight (row : Row) :
    ∃ ds, Leads (.weight row) (Expecting.lastBranch ++ [.eof]) ds .nothing := by
  obtain ⟨ds, h⟩ := exists_leads_target row 1
  have hweight : ∀ p, (Expecting.weight row).next ⟨.digits "1", p⟩ = Expecting.go (.colon row 1) :=
    Expecting.next_weight_of_le (by decide +kernel) (by decide +kernel) row
  exact ⟨ds, .shift (fun _ => .shift (fun _ => h) fun _ => rfl) hweight⟩

/-- **Every situation has a way out.** -/
theorem exists_leads_remainder (e : Expecting) :
    ∃ ds, Leads e (e.remainder ++ [.eof]) ds .nothing := by
  have hblock : Leads .block [.eof] [] .nothing := leads_eof fun _ => rfl
  have hend : Leads .stateEnd [.semicolon, .eof] [] .nothing := hblock.afterState rfl
  have hname : Leads .stateName ([.word "s"] ++ .semicolon :: [.eof]) [.state "s" none] .nothing :=
    leads_state (.plain "s") rfl hblock
  have hone : number "1" ≤ 2 ^ 63 - 1 := by decide +kernel
  cases e with
  | header => exact ⟨_, .shift (fun _ => hname) fun _ => rfl⟩
  | stateName => exact ⟨_, hname⟩
  | stateRest start label => exact ⟨_, hblock.declare start fun _ => rfl⟩
  | reward start label =>
    exact ⟨_, hend.declare start fun _ => Expecting.rewarded_of_le hone 1⟩
  | negative start label =>
    exact ⟨_, hend.declare start fun _ => Expecting.rewarded_of_le hone (-1)⟩
  | stateEnd => exact ⟨_, hend⟩
  | actionName start labels =>
    exact ⟨_, .shift (fun _ => hblock.declare start fun _ => rfl) fun _ => rfl⟩
  | actionEnd start labels => exact ⟨_, hblock.declare start fun _ => rfl⟩
  | action row =>
    obtain ⟨ds, h⟩ := exists_leads_weight row
    exact ⟨ds, .shift (fun _ => h) fun _ => rfl⟩
  | bracketed row =>
    obtain ⟨ds, h⟩ := exists_leads_weight { row with action := some "a" }
    refine ⟨ds, .shift (fun _ => ?_) fun _ => rfl⟩
    exact .shift (fun _ => .shift (fun _ => h) fun _ => rfl) fun _ => rfl
  | closing row =>
    obtain ⟨ds, h⟩ := exists_leads_weight row
    exact ⟨ds, .shift (fun _ => .shift (fun _ => h) fun _ => rfl) fun _ => rfl⟩
  | arrow row =>
    obtain ⟨ds, h⟩ := exists_leads_weight row
    exact ⟨ds, .shift (fun _ => h) fun _ => rfl⟩
  | weight row => exact exists_leads_weight row
  | colon row w =>
    obtain ⟨ds, h⟩ := exists_leads_target row w
    exact ⟨ds, .shift (fun _ => h) fun _ => rfl⟩
  | target row w => exact exists_leads_target row w
  | branchEnd row => exact exists_leads_branchEnd row
  | block | source | nothing => exact ⟨_, leads_eof fun _ => rfl⟩

/-- The tokens of a way out have lexemes. -/
theorem exists_lexeme_remainder (e : Expecting) : ∀ t ∈ e.remainder, ∃ cs, Lexeme cs t := by
  have hend : ∀ t ∈ [Token.semicolon], ∃ cs, Lexeme cs t :=
    List.forall_mem_singleton.mpr ⟨[';'], .mark rfl⟩
  have hname : ∀ t ∈ [.word "s", Token.semicolon], ∃ cs, Lexeme cs t :=
    List.forall_mem_cons.mpr ⟨⟨['s'], .word (run_singleton rfl)⟩, hend⟩
  have hcolon : ∀ t ∈ [.colon, .word "s", Token.semicolon], ∃ cs, Lexeme cs t :=
    List.forall_mem_cons.mpr ⟨⟨[':'], .mark rfl⟩, hname⟩
  have hone : Lexeme ['1'] (.digits "1") := .digits (run_singleton rfl)
  have hbranch : ∀ t ∈ Expecting.lastBranch, ∃ cs, Lexeme cs t :=
    List.forall_mem_cons.mpr ⟨⟨['1'], hone⟩, hcolon⟩
  have harrow : ∀ t ∈ .arrow :: Expecting.lastBranch, ∃ cs, Lexeme cs t :=
    List.forall_mem_cons.mpr ⟨⟨['-', '>'], .arrow⟩, hbranch⟩
  have hclosing : ∀ t ∈ .closeBracket :: .arrow :: Expecting.lastBranch, ∃ cs, Lexeme cs t :=
    List.forall_mem_cons.mpr ⟨⟨[']'], .mark rfl⟩, harrow⟩
  cases e with
  | header =>
    have hstates : Lexeme ['S', 't', 'a', 't', 'e', 's'] .states :=
      .word ⟨rfl, List.all_eq_true.mp rfl⟩
    exact List.forall_mem_cons.mpr ⟨⟨_, hstates⟩, hname⟩
  | stateName | actionName | target => exact hname
  | reward | negative => exact List.forall_mem_cons.mpr ⟨⟨['1'], hone⟩, hend⟩
  | stateRest | stateEnd | actionEnd | branchEnd => exact hend
  | action | arrow => exact harrow
  | bracketed => exact List.forall_mem_cons.mpr ⟨⟨['a'], .word (run_singleton rfl)⟩, hclosing⟩
  | closing => exact hclosing
  | weight => exact hbranch
  | colon => exact hcolon
  | block | source | nothing => exact fun t ht => absurd ht List.not_mem_nil

end Remainders

/-! ### What matters of a token -/

/-- **What a token means**: a number counts by its value, not by its digits. -/
def Token.sense : Token → Token
  | .digits text => .digits (number text).repr
  | t => t

/-- What a token means, wherever it stands. -/
def Located.sense (t : Located) : Token := t.token.sense

namespace Expecting

/-- A transition of which nothing is known. -/
def blankRow : Row := { position := {}, source := "" }

/-- **A situation, without what is held of the declaration.** -/
def blank : Expecting → Expecting
  | .stateRest _ _ => .stateRest {} ""
  | .reward _ _ => .reward {} ""
  | .negative _ _ => .negative {} ""
  | .actionName _ _ => .actionName {} []
  | .actionEnd _ _ => .actionEnd {} []
  | .action _ => .action blankRow
  | .bracketed _ => .bracketed blankRow
  | .closing _ => .closing blankRow
  | .arrow _ => .arrow blankRow
  | .weight _ => .weight blankRow
  | .colon _ _ => .colon blankRow 0
  | .target _ _ => .target blankRow 0
  | .branchEnd _ => .branchEnd blankRow
  | e => e

/-- Nothing that is held matters for the way out. -/
theorem remainder_blank (e : Expecting) : e.blank.remainder = e.remainder := by
  cases e <;> rfl

/-- Where a token leads to, as far as it does, and without what is held. -/
def onward (e : Expecting) (t : Token) : Option Expecting :=
  (e.next ⟨t, {}⟩).next.toOption.map blank

/-- Whether a reward is accepted is a matter of its value. -/
theorem toOption_rewarded (start : Position) (label digits : String) (sign : ℤ) :
    (rewarded start label digits sign).next.toOption
      = if number digits ≤ 2 ^ 63 - 1 then some .stateEnd else none := by
  split_ifs with h
  · rw [rewarded_of_le h]
    rfl
  · rw [rewarded_of_not_le h]
    rfl

/-- So it is with a weight. -/
theorem map_blank_weight (row : Row) (digits : String) (p : Position) :
    ((weight row).next ⟨.digits digits, p⟩).next.toOption.map blank
      = if number digits ≤ 2 ^ 64 - 1 then some (.colon blankRow 0) else none := by
  split_ifs with h
  · have hlt : number digits < 2 ^ 64 := by omega
    have hw : (UInt64.ofNat (number digits)).toNat = number digits :=
      UInt64.toNat_ofNat_of_lt' hlt
    rw [next_weight_of_le h hw]
    rfl
  · rw [next_weight_of_not_le h]
    rfl

/-- **Only what a token means matters**, and nothing of what is held. -/
theorem onward_blank (e : Expecting) (t : Located) :
    e.blank.onward t.sense = (e.next t).next.toOption.map blank := by
  obtain ⟨token, p⟩ := t
  cases token with
  | digits text =>
    cases e with
    | reward start label =>
      have hblank := toOption_rewarded {} "" (number text).repr 1
      rw [number_repr, ← toOption_rewarded start label text 1] at hblank
      exact congrArg (Option.map blank) hblank
    | negative start label =>
      have hblank := toOption_rewarded {} "" (number text).repr (-1)
      rw [number_repr, ← toOption_rewarded start label text (-1)] at hblank
      exact congrArg (Option.map blank) hblank
    | weight row =>
      have hblank := map_blank_weight blankRow (number text).repr {}
      rwa [number_repr, ← map_blank_weight row text p] at hblank
    | _ => rfl
  | _ => cases e <;> rfl

end Expecting

section Readers

open Expecting

variable {e mid last : Expecting} {l l' : List Located} {t : Located} {ds : List Declaration}
  {fault : SyntaxFault}

/-- **A reader goes the way of the one that holds nothing.** -/
theorem foldlM_onward_iff {b : Expecting} :
    (l.map Located.sense).foldlM onward e.blank = some b ↔
      ∃ ds last, Reads e l ds last ∧ last.blank = b := by
  induction l generalizing e with
  | nil =>
    constructor
    · intro h
      exact ⟨[], e, .done e, Option.some.inj h⟩
    · rintro ⟨ds, last, ⟨⟩, rfl⟩
      rfl
  | cons t l ih =>
    rw [List.map_cons, List.foldlM_cons, onward_blank]
    constructor
    · intro h
      cases hnext : (e.next t).next with
      | error fault =>
        rw [hnext] at h
        cases h
      | ok next =>
        rw [hnext] at h
        obtain ⟨ds, last, hreads, hb⟩ := ih.mp h
        exact ⟨_, last, .step hnext hreads, hb⟩
    · rintro ⟨_, last, _ | ⟨hnext, hreads⟩, hb⟩
      rw [hnext]
      exact ih.mpr ⟨_, last, hreads, hb⟩

theorem Reads.foldlM_onward (h : Reads e l ds last) :
    (l.map Located.sense).foldlM onward e.blank = some last.blank :=
  foldlM_onward_iff.mpr ⟨ds, last, h, rfl⟩

/-- **Tokens that mean the same are read alike.** -/
theorem Reads.congr (h : Reads e l ds last) (hl : l'.map Located.sense = l.map Located.sense) :
    ∃ ds' last', Reads e l' ds' last' ∧ last'.blank = last.blank :=
  foldlM_onward_iff.mp (hl ▸ h.foldlM_onward)

/-- A fault ends that way. -/
theorem Reads.foldlM_onward_fault (h : Reads e l ds mid) (ht : (mid.next t).next = .error fault) :
    ((l ++ [t]).map Located.sense).foldlM onward e.blank = none := by
  rw [List.map_append, List.foldlM_append, h.foldlM_onward]
  have hlast : mid.blank.onward t.sense = none := by
    rw [onward_blank, ht]
    rfl
  rw [List.map_singleton]
  simp [hlast]

/-- **What leads to a fault is the beginning of nothing that is read.** -/
theorem Reads.not_prefix (h : Reads e l ds mid) (ht : (mid.next t).next = .error fault)
    {ds' : List Declaration} (h' : Reads e l' ds' last) :
    ¬(l ++ [t]).map Located.sense <+: l'.map Located.sense := by
  rintro ⟨rest, hrest⟩
  have hread := h'.foldlM_onward
  rw [← hrest, List.foldlM_append, h.foldlM_onward_fault ht] at hread
  cases hread

end Readers

/-! ### The place of a fault -/

/-- The fault of a transcript is the one of a token, after others that have been read. -/
theorem Transcript.exists_of_fault {e : Expecting} {ts : List Located} {p : Position}
    {fault : SyntaxFault} (h : (ofTokens e ts).fault = some (p, fault)) :
    ∃ before t behind ds mid, ts = before ++ t :: behind ∧ Reads e before ds mid ∧
      (mid.next t).next = .error fault ∧ t.position = p := by
  rcases ofTokens_eq_or e ts with ⟨last, hnone, -⟩ |
    ⟨before, t, behind, ds, mid, reason, hsplit, hreads, hmid, hfault, -⟩
  · rw [h] at hnone
    cases hnone
  · rw [h] at hfault
    cases hfault
    exact ⟨before, t, behind, ds, mid, hsplit, hreads, hmid, rfl⟩

section Texts

variable {σ ε : Type} {take : Declaration → σ → σ} {text : String} {ts : List Located} {s s' : σ}

/-- A sink that accepts everything is told the fault of the transcript. -/
theorem Transcript.fault_of_readDescription {p : Position} {fault : SyntaxFault}
    (h : readDescription (ε := ε) (.accepting take) text s = .error (.syntactic p fault) s') :
    (ofText text).fault = some (p, fault) := by
  rw [readDescription_eq, replay_accepting] at h
  rcases hfault : (ofText text).fault with _ | ⟨p', fault'⟩
  · rw [hfault] at h
    cases h
  · rw [hfault] at h
    cases h
    rfl

/-- **The beginning of tokens that are read is the beginning of a text that is accepted.** -/
theorem exists_text_of_reads {l : List Located} {ds : List Declaration} {mid : Expecting}
    (h : Reads .header l ds mid) (hl : ∀ t ∈ l, ∃ cs, Lexeme cs t.token)
    (take : Declaration → σ → σ) (s : σ) :
    ∃ text ls final, tokens text = .ok ls ∧
      l.map Located.token <+: ls.map Located.token ∧
      readDescription (ε := ε) (.accepting take) text s = .ok () final := by
  have hlexemes : ∀ t ∈ l.map Located.token ++ mid.remainder, ∃ cs, Lexeme cs t := by
    intro t ht
    rcases List.mem_append.mp ht with ht | ht
    · obtain ⟨u, hu, rfl⟩ := List.mem_map.mp ht
      exact hl u hu
    · exact exists_lexeme_remainder mid t ht
  obtain ⟨text, ls, hls, hmap⟩ := exists_text hlexemes
  rw [List.append_assoc] at hmap
  obtain ⟨l₀, l₁, rfl, h₀, h₁⟩ := List.map_eq_append_iff.mp hmap
  -- the tokens stand elsewhere in the new text, and lead to a situation with the same way out
  have hsense : l₀.map Located.sense = l.map Located.sense := by
    have hmeant := congrArg (List.map Token.sense) h₀
    rwa [List.map_map, List.map_map] at hmeant
  obtain ⟨ds₀, mid₀, hreads, hblank⟩ := h.congr hsense
  obtain ⟨ds₁, hleads⟩ := exists_leads_remainder mid₀
  rw [← Expecting.remainder_blank, hblank, Expecting.remainder_blank] at hleads
  have hall := hreads.append (hleads l₁ h₁)
  have haccepted : readDescription (ε := ε) (.accepting take) text s
      = .ok () ((ds₀ ++ ds₁).foldl (fun s d => take d s) s) := by
    rw [readDescription, hls]
    exact discard_eq_ok_iff.mpr ⟨.nothing, (foldlM_feedToken_iff take).mpr ⟨_, hall, rfl⟩⟩
  refine ⟨text, l₀ ++ l₁, _, hls, ?_, haccepted⟩
  rw [List.map_append, h₀]
  exact List.prefix_append _ _

/-- **A fault is reported at the first token that is out of place.** If a text falls into tokens
and a reader whose sink accepts everything finds a fault in it, then the place is the one of a token
such that

* the tokens before it are the beginning of the tokens of some text that is accepted;
* together with it they are the beginning of no tokens that a reader goes through, even if these
  stand in other places, are those of no text, and have numbers of the same value in other
  digits. -/
theorem readDescription_first_impossible {p : Position} {fault : SyntaxFault}
    (htokens : tokens text = .ok ts)
    (h : readDescription (ε := ε) (.accepting take) text s = .error (.syntactic p fault) s') :
    ∃ i t, ts[i]? = some t ∧ t.position = p ∧
      (∃ other us final, tokens other = .ok us ∧
        (ts.take i).map Located.token <+: us.map Located.token ∧
        readDescription (ε := ε) (.accepting take) other s = .ok () final) ∧
      ∀ (us : List Located) start last final,
        us.foldlM (feedToken (ε := ε) (.accepting take)) .header start = .ok last final →
        ¬(ts.take (i + 1)).map Located.sense <+: us.map Located.sense := by
  have hscript := Transcript.fault_of_readDescription h
  rw [Transcript.ofText, htokens] at hscript
  obtain ⟨before, t, behind, ds, mid, rfl, hreads, hfault, hp⟩ :=
    Transcript.exists_of_fault hscript
  have htake : (before ++ t :: behind).take (before.length + 1) = before ++ [t] := by
    rw [List.take_length_add_append]
    rfl
  refine ⟨before.length, t, by simp, hp, ?_, fun us start last final hus => ?_⟩
  · rw [List.take_left]
    refine exists_text_of_reads hreads (fun u hu => ?_) take s
    -- the end of the text is the last token, and so it is not before the fault
    obtain ⟨vs, q, hvs, hlexemes⟩ := exists_lexemes_of_tokens htokens
    have hinit := congrArg List.dropLast hvs
    rw [List.dropLast_append_cons, List.dropLast_concat] at hinit
    exact hlexemes u (hinit ▸ List.mem_append_left _ hu)
  · obtain ⟨ds', hus', -⟩ := (foldlM_feedToken_iff take).mp hus
    rw [htake]
    exact hreads.not_prefix hfault hus'

end Texts

/-- The fault that a reading ends with, and its place. -/
def syntaxFault {σ ε : Type} :
    EStateM.Result (ReadError ε) σ Unit → Option (Position × SyntaxFault)
  | .error (.syntactic p fault) _ => some (p, fault)
  | _ => none

/-- A text in which the colon of a branch is missing. -/
def colonless : String := "States A, B;\nA -> 1 B;\n"

/-- Where the colon is missing the target is reported: what stands before it is the beginning of a
text that is accepted, and no tokens are read that begin as these do and have it next. -/
theorem readDescription_first_impossible_colonless : ∃ ts s', tokens colonless = .ok ts ∧
    readDescription (ε := Unit) recorder colonless []
      = .error (.syntactic ⟨2, 8⟩ (.unexpected (.token .colon) (.word "B"))) s' ∧
    ∃ i t, ts[i]? = some t ∧ t.position = ⟨2, 8⟩ ∧
      (∃ other us final, tokens other = .ok us ∧
        (ts.take i).map Located.token <+: us.map Located.token ∧
        readDescription (ε := Unit) recorder other [] = .ok () final) ∧
      ∀ (us : List Located) start last final,
        us.foldlM (feedToken (ε := Unit) recorder) .header start = .ok last final →
        ¬(ts.take (i + 1)).map Located.sense <+: us.map Located.sense := by
  obtain ⟨ts, hts⟩ : ∃ ts, tokens colonless = .ok ts := ⟨_, by cbv⟩
  have htest : syntaxFault (readDescription (ε := Unit) recorder colonless [])
      = some (⟨2, 8⟩, .unexpected (.token .colon) (.word "B")) := by decide +kernel
  rcases hread : readDescription (ε := Unit) recorder colonless [] with
    ⟨_, s'⟩ | ⟨⟨p, fault⟩ | ⟨p, fault⟩, s'⟩
  · rw [hread] at htest
    cases htest
  · rw [hread] at htest
    obtain ⟨rfl, rfl⟩ := Prod.mk.inj (Option.some.inj htest)
    exact ⟨ts, s', hts, rfl, readDescription_first_impossible hts hread⟩
  · rw [hread] at htest
    cases htest

end MarkovDecision
