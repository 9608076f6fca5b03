import MarkovDecision.Proofs.Description.Scanning
import MarkovDecision.Proofs.Outcome

/-!
# The tokens that texts have

Not every token can come out of a text: a word is never one of the two that open a part,
a number is never empty, and the end of the text comes once. What a text can say is told
by its *lexemes*, the characters that make up a token (`Lexeme`). Every token of a text
except the last has a lexeme, and the last one is the end (`exists_lexemes_of_tokens`);
and tokens with lexemes, in any number and in any order, are those of the text that has
the lexemes with a blank behind each (`exists_text`). So the sequences of tokens that texts
have are known (`exists_tokens_iff`).

The first half is an invariant of the scanner (`Scanner.Lexical`). A word or a number that is
pending is not a token yet, but it has to be a lexeme already, for the next character may
complete it. The invariant also says where the lexemes stand: every token that has been
completed has its own among the characters that have been read, from the place where it begins
to the place where it ends.
-/

namespace MarkovDecision

/-! ### Lexemes -/

/-- Characters of which the first begins something, and the others go on with it. -/
def Run (begins goesOn : Char → Bool) : List Char → Prop
  | [] => False
  | c :: w => begins c = true ∧ ∀ x ∈ w, goesOn x = true

/-- **The characters that make up a token.** -/
inductive Lexeme : List Char → Token → Prop
  /-- A word, also one that opens a part. -/
  | word {cs : List Char} : Run beginsWord continuesWord cs →
      Lexeme cs (.ofWord (String.ofList cs))
  /-- A number. -/
  | digits {cs : List Char} : Run Char.isDigit Char.isDigit cs →
      Lexeme cs (.digits (String.ofList cs))
  /-- A mark. -/
  | mark {c : Char} {t : Token} : markToken c = some t → Lexeme [c] t
  /-- An arrow. -/
  | arrow : Lexeme ['-', '>'] .arrow
  /-- A minus sign. -/
  | minus : Lexeme ['-'] .minus

section Lexemes

variable {begins goesOn : Char → Bool} {c : Char} {cs rest : List Char} {t : Token}
  {ts : List Token}

theorem run_singleton (hc : begins c = true) : Run begins goesOn [c] :=
  ⟨hc, fun _ hx => absurd hx List.not_mem_nil⟩

/-- One character more. -/
theorem Run.concat (h : Run begins goesOn cs) (hc : goesOn c = true) :
    Run begins goesOn (cs ++ [c]) := by
  rcases cs with _ | ⟨d, w⟩
  · exact h.elim
  · refine ⟨h.1, fun x hx => ?_⟩
    rcases List.mem_append.mp hx with hx | hx
    · exact h.2 x hx
    · rwa [List.mem_singleton.mp hx]

/-- The end of the text has no lexeme. -/
theorem Lexeme.ne_eof (h : Lexeme cs t) : t ≠ .eof := by
  cases h with
  | word _ =>
    unfold Token.ofWord
    split_ifs <;> exact Token.noConfusion
  | mark hmark =>
    rintro rfl
    unfold markToken at hmark
    split at hmark <;> cases hmark
  | _ => exact Token.noConfusion

/-- **A lexeme with a blank behind it spells its token.** -/
theorem Lexeme.spelled (h : Lexeme cs t) (hrest : Spelled rest ts) :
    Spelled (cs ++ ' ' :: rest) (t :: ts) := by
  have hbreak : Breaks (' ' :: rest) := breaks_cons rfl rest
  cases h with
  | word hrun =>
    rcases cs with _ | ⟨c, w⟩
    · exact hrun.elim
    · intro p
      obtain ⟨ls, hls, rfl⟩ := hrest.space (p.afterAll (c :: w))
      exact ⟨_, hls.word hrun.1 hrun.2 hbreak, rfl⟩
  | digits hrun =>
    rcases cs with _ | ⟨c, w⟩
    · exact hrun.elim
    · intro p
      obtain ⟨ls, hls, rfl⟩ := hrest.space (p.afterAll (c :: w))
      exact ⟨_, hls.digits hrun.1 hrun.2 hbreak.not_digit, rfl⟩
  | mark hmark => exact hrest.space.mark hmark
  | arrow => exact hrest.space.arrow
  | minus => exact hrest.space.minus (by simp)

/-- **Tokens with lexemes are those of a text.** -/
theorem exists_text {us : List Token} (h : ∀ t ∈ us, ∃ cs, Lexeme cs t) :
    ∃ text ls, tokens text = .ok ls ∧ ls.map Located.token = us ++ [.eof] := by
  obtain ⟨cs, hcs⟩ : ∃ cs, Spelled cs (us ++ [.eof]) := by
    induction us with
    | nil => exact ⟨[], spelled_nil⟩
    | cons t us ih =>
      obtain ⟨⟨cs, hlexeme⟩, hus⟩ := List.forall_mem_cons.mp h
      obtain ⟨rest, hrest⟩ := ih hus
      exact ⟨_, hlexeme.spelled hrest⟩
  obtain ⟨ls, hls, hmap⟩ := hcs {}
  refine ⟨String.ofList cs, ls, Scans.tokens_eq ?_, hmap⟩
  rwa [String.toList_ofList]

end Lexemes

/-! ### What a scanner completes -/

/-- **A token is cut out of some characters**: its lexeme stands among them, from the one place to
the other. -/
def StandsIn (cs : List Char) (cut : Cut) : Prop :=
  ∃ front w rest, cs = front ++ (w ++ rest) ∧ Lexeme w cut.token ∧ cut.start = .behind front ∧
    cut.stop = .behind (front ++ w)

theorem StandsIn.append {cs : List Char} {cut : Cut} (h : StandsIn cs cut) (more : List Char) :
    StandsIn (cs ++ more) cut := by
  obtain ⟨front, w, rest, rfl, hw⟩ := h
  refine ⟨front, w, rest ++ more, ?_, hw⟩
  rw [List.append_assoc, List.append_assoc]

namespace Scanner

/-- Characters begun at a place stand at the end of what has been read. -/
def EndsWith (read : List Char) (start : Cursor) (w : List Char) : Prop :=
  ∃ front, read = front ++ w ∧ start = .behind front

/-- What is pending has been read last, and could be completed: a word or a number is a lexeme
already. -/
def Whole (read : List Char) : Pending → Prop
  | .dash start => EndsWith read start ['-']
  | .word start chars =>
    EndsWith read start chars.reverse ∧ Run beginsWord continuesWord chars.reverse
  | .digits start chars =>
    EndsWith read start chars.reverse ∧ Run Char.isDigit Char.isDigit chars.reverse
  | _ => True

/-- **A scanner goes by lexemes**: the tokens that it has completed have theirs among the characters
that have been read, and so will the one that is pending. -/
structure Lexical (read : List Char) (s : Scanner) : Prop where
  /-- The place has been counted right. -/
  cursor : s.cursor = .behind read
  /-- The tokens that have been completed. -/
  cuts : ∀ cut ∈ s.cuts, StandsIn read cut
  /-- What is pending. -/
  pending : Whole read s.pending

variable {s s' : Scanner} {c : Char} {token : Token} {read w : List Char} {start : Cursor}

theorem EndsWith.concat (h : EndsWith read start w) (c : Char) :
    EndsWith (read ++ [c]) start (w ++ [c]) := by
  obtain ⟨front, rfl, rfl⟩ := h
  exact ⟨front, List.append_assoc front w [c], rfl⟩

theorem Lexical.past (h : s.Lexical read) {pending : Pending}
    (hpending : Whole (read ++ [c]) pending) : (s.past c pending).Lexical (read ++ [c]) where
  cursor := by
    rw [Cursor.behind_concat, ← h.cursor]
    rfl
  cuts cut hcut := (h.cuts cut hcut).append [c]
  pending := hpending

theorem Lexical.emit (h : s.Lexical read) (htoken : Lexeme w token)
    (hends : EndsWith read start w) : (s.emit token start).Lexical read := by
  refine ⟨h.cursor, fun cut hcut => ?_, h.pending⟩
  rcases List.mem_cons.mp hcut with rfl | hcut
  · obtain ⟨front, rfl, hstart⟩ := hends
    exact ⟨front, w, [], by rw [List.append_nil], htoken, hstart, h.cursor⟩
  · exact h.cuts cut hcut

/-- What begins here stands at the end when its first character has been read. -/
theorem Lexical.endsWith (h : s.Lexical read) (c : Char) :
    EndsWith (read ++ [c]) s.cursor [c] := ⟨read, rfl, h.cursor⟩

theorem Lexical.complete (h : s.Lexical read) (hs : s.complete = .ok s') : s'.Lexical read := by
  have hpending := h.pending
  unfold Scanner.complete at hs
  split at hs
  · exact Except.ok.inj hs ▸ h
  · exact Except.ok.inj hs ▸ h
  · cases hs
  all_goals
    rename_i heq
    rw [heq] at hpending
    obtain rfl := Except.ok.inj hs
  · exact h.emit .minus hpending
  · exact h.emit (.word hpending.2) hpending.1
  · exact h.emit (.digits hpending.2) hpending.1

theorem Lexical.begin (h : s.Lexical read) (hs : s.begin c = .ok s') :
    s'.Lexical (read ++ [c]) := by
  unfold Scanner.begin at hs
  split_ifs at hs with _ _ hdash hdigit hword
  · exact Except.ok.inj hs ▸ h.past trivial
  · exact Except.ok.inj hs ▸ h.past trivial
  · exact Except.ok.inj hs ▸ h.past (hdash ▸ h.endsWith c)
  · exact Except.ok.inj hs ▸ h.past ⟨h.endsWith c, run_singleton hdigit⟩
  · exact Except.ok.inj hs ▸ h.past ⟨h.endsWith c, run_singleton hword⟩
  · split at hs
    · rename_i token hmark
      have hpast : (s.past c .nothing).Lexical (read ++ [c]) := h.past trivial
      exact Except.ok.inj hs ▸ hpast.emit (.mark hmark) (h.endsWith c)
    · cases hs

theorem Lexical.extend (h : s.Lexical read) (hs : s.extend c = some s') :
    s'.Lexical (read ++ [c]) := by
  have hpending := h.pending
  unfold Scanner.extend at hs
  split at hs
  · cases hs
  all_goals
    rename_i heq
    split_ifs at hs with hc
    obtain rfl := Option.some.inj hs
    rw [heq] at hpending
  · exact h.past trivial
  · exact h.past trivial
  · have hpast : (s.past c .nothing).Lexical (read ++ [c]) := h.past trivial
    subst hc
    exact hpast.emit .arrow (hpending.concat '>')
  · refine h.past ?_
    rw [Whole, List.reverse_cons]
    exact ⟨hpending.1.concat c, hpending.2.concat hc⟩
  · refine h.past ?_
    rw [Whole, List.reverse_cons]
    exact ⟨hpending.1.concat c, hpending.2.concat hc⟩

/-- **One character** keeps to lexemes. -/
theorem Lexical.feed (h : s.Lexical read) (hs : s.feed c = .ok s') :
    s'.Lexical (read ++ [c]) := by
  unfold Scanner.feed at hs
  split at hs
  · rename_i hextend
    exact Except.ok.inj hs ▸ h.extend hextend
  · obtain ⟨mid, hmid, hbegin⟩ := exists_of_bind_eq_ok hs
    exact (h.complete hmid).begin hbegin

/-- **All characters** do so. -/
theorem Lexical.foldlM_feed (h : s.Lexical read) {cs : List Char}
    (hs : cs.foldlM Scanner.feed s = .ok s') : s'.Lexical (read ++ cs) := by
  induction cs generalizing s read with
  | nil =>
    rw [List.append_nil]
    exact Except.ok.inj hs ▸ h
  | cons c cs ih =>
    obtain ⟨mid, hmid, hrest⟩ := exists_of_bind_eq_ok hs
    have hlexical := ih (h.feed hmid) hrest
    rwa [List.append_assoc] at hlexical

/-- A scanner that has read some characters goes by lexemes. -/
theorem lexical_of_foldlM {cs : List Char} (hs : cs.foldlM Scanner.feed {} = .ok s) :
    s.Lexical cs := by
  have hstart : ({} : Scanner).Lexical [] := ⟨rfl, fun t ht => absurd ht List.not_mem_nil, trivial⟩
  exact hstart.foldlM_feed hs

end Scanner

/-- **Every token of a text has a lexeme, except the end**, which is the last. -/
theorem exists_lexemes_of_tokens {text : String} {ts : List Located} (h : tokens text = .ok ts) :
    ∃ us p, ts = us ++ [⟨.eof, p⟩] ∧ ∀ t ∈ us, ∃ cs, Lexeme cs t.token := by
  obtain ⟨s, hs, hfinish⟩ := exists_of_bind_eq_ok h
  obtain ⟨s', hs', hts⟩ := exists_of_bind_eq_ok hfinish
  have hend := (Scanner.lexical_of_foldlM hs).complete hs'
  refine ⟨(s'.cuts.map Cut.located).reverse, s'.cursor.toPosition, ?_, fun t ht => ?_⟩
  · rw [← List.reverse_cons]
    exact (Except.ok.inj hts).symm
  · obtain ⟨cut, hcut, rfl⟩ := List.mem_map.mp (List.mem_reverse.mp ht)
    obtain ⟨_, w, _, -, hw, -⟩ := hend.cuts cut hcut
    exact ⟨w, hw⟩

/-- **The sequences of tokens that texts have**: tokens with lexemes, and the end behind them. -/
theorem exists_tokens_iff {ts : List Token} :
    (∃ text ls, tokens text = .ok ls ∧ ls.map Located.token = ts) ↔
      ∃ us, ts = us ++ [.eof] ∧ ∀ t ∈ us, ∃ cs, Lexeme cs t := by
  constructor
  · rintro ⟨text, ls, hls, rfl⟩
    obtain ⟨us, p, rfl, hus⟩ := exists_lexemes_of_tokens hls
    refine ⟨us.map Located.token, List.map_append, fun t ht => ?_⟩
    obtain ⟨l, hl, rfl⟩ := List.mem_map.mp ht
    exact hus l hl
  · rintro ⟨us, rfl, hus⟩
    exact exists_text hus

end MarkovDecision
