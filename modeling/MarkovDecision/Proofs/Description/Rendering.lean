import MarkovDecision.Proofs.Description.Lexemes

/-!
# Scanning undoes writing

A text that is written from tokens has their lexemes one behind the other, with something
between them that separates: blanks, line breaks, and comments of any characters at all.
Between some lexemes nothing has to stand. `Renders` says which texts come about in this
way, and where their tokens begin; it does not speak of the scanner.

The scanner returns exactly the tokens of such a text, and it fails exactly at a text that
is one up to a character which can stand nowhere (`Stray`). So there are two halves. What a
rendering is scanned as follows from one equation per thing that can stand in front
(`Renders.scan_eq`), whatever stands behind it; and every text is a rendering to its end or
to a stray character (`rendered`), because the longest lexeme in front can always be taken.

A place is counted out from the characters in front of it (`Cursor.behind`), in bytes. The
scanner keeps where a token begins and ends as such places, and a text is cut only there, or
at a stray character. As the characters in front of a place are a text of their own, it lies
between two characters, and from one end of a lexeme to the other every byte is a character
(`StandsIn.fits`). That the scanner keeps no other places is its invariant
(`Scanner.Lexical`).
-/

namespace MarkovDecision

open Scanner

/-! ### Where lexemes meet -/

namespace Token

/-- A word, also one that opens a part. -/
def IsWord : Token → Prop
  | .states | .actions | .word _ => True
  | _ => False

/-- A number. -/
def IsDigits : Token → Prop
  | .digits _ => True
  | _ => False

/-- **Tokens that have to be separated**: a word from a word or a number behind it, and a number
from a number. -/
def Fuses (t t' : Token) : Prop := t.IsWord ∧ (t'.IsWord ∨ t'.IsDigits) ∨ t.IsDigits ∧ t'.IsDigits

theorem isWord_ofWord (text : String) : (ofWord text).IsWord := by
  unfold ofWord
  split_ifs <;> trivial

theorem not_isDigits_ofWord (text : String) : ¬(ofWord text).IsDigits := by
  unfold ofWord
  split_ifs <;> exact id

end Token

section Lexemes

variable {c d : Char} {w v : List Char} {t t' u : Token}

theorem continuesWord_iff : continuesWord c = true ↔ beginsWord c = true ∨ c.isDigit = true := by
  simp only [continuesWord, beginsWord, Char.isAlphanum, Bool.or_eq_true, decide_eq_true_eq]
  tauto

/-- A mark is neither a word nor a number, and nothing that a word could go on with. -/
theorem of_markToken (h : markToken c = some t) :
    ¬t.IsWord ∧ ¬t.IsDigits ∧ continuesWord c = false := by
  unfold markToken at h
  split at h
  all_goals cases h
  all_goals exact ⟨id, id, rfl⟩

theorem Lexeme.ne_nil (h : Lexeme w t) : w ≠ [] := by
  rintro rfl
  cases h with
  | word hrun => exact hrun
  | digits hrun => exact hrun

/-- A lexeme is a word if it begins like one. -/
theorem Lexeme.isWord_iff (h : Lexeme (c :: w) t) : t.IsWord ↔ beginsWord c = true := by
  cases h with
  | word hrun => exact iff_of_true (Token.isWord_ofWord _) hrun.1
  | digits hrun =>
    exact iff_of_false id fun hc =>
      Bool.false_ne_true ((isDigit_of_beginsWord hc).symm.trans hrun.1)
  | mark hmark =>
    obtain ⟨hword, -, hc⟩ := of_markToken hmark
    exact iff_of_false hword fun hbegin =>
      Bool.false_ne_true (hc.symm.trans (continuesWord_iff.mpr (.inl hbegin)))
  | arrow => exact iff_of_false id Bool.false_ne_true
  | minus => exact iff_of_false id Bool.false_ne_true

/-- A lexeme is a number if it begins like one. -/
theorem Lexeme.isDigits_iff (h : Lexeme (c :: w) t) : t.IsDigits ↔ c.isDigit = true := by
  cases h with
  | word hrun =>
    exact iff_of_false (Token.not_isDigits_ofWord _)
      (Bool.eq_false_iff.mp (isDigit_of_beginsWord hrun.1))
  | digits hrun => exact iff_of_true trivial hrun.1
  | mark hmark =>
    obtain ⟨-, hdigits, hc⟩ := of_markToken hmark
    exact iff_of_false hdigits fun hdigit =>
      Bool.false_ne_true (hc.symm.trans (continuesWord_iff.mpr (.inr hdigit)))
  | arrow => exact iff_of_false id Bool.false_ne_true
  | minus => exact iff_of_false id Bool.false_ne_true

/-- What a lexeme consists of that has more than one character. -/
theorem Lexeme.long (h : Lexeme (d :: w) t) (hw : w ≠ []) :
    (beginsWord d = true ∧ ∀ x ∈ w, continuesWord x = true) ∨
      (d.isDigit = true ∧ ∀ x ∈ w, x.isDigit = true) ∨ d = '-' ∧ w = ['>'] := by
  cases h with
  | word hrun => exact .inl hrun
  | digits hrun => exact .inr (.inl hrun)
  | mark => exact absurd rfl hw
  | arrow => exact .inr (.inr ⟨rfl, rfl⟩)
  | minus => exact absurd rfl hw

/-- **How a lexeme goes on**, if one character more is a lexeme again. -/
theorem Lexeme.of_concat (h : Lexeme w t) (hc : Lexeme (w ++ [c]) u) :
    (t.IsWord ∧ continuesWord c = true) ∨ (t.IsDigits ∧ c.isDigit = true) ∨
      w = ['-'] ∧ c = '>' := by
  rcases w with _ | ⟨d, w⟩
  · exact absurd rfl h.ne_nil
  have hmem : c ∈ w ++ [c] := List.mem_append_right _ (List.mem_singleton_self c)
  rcases hc.long (List.append_ne_nil_of_right_ne_nil w (List.cons_ne_nil c [])) with
    ⟨hd, hall⟩ | ⟨hd, hall⟩ | ⟨rfl, hw⟩
  · exact .inl ⟨h.isWord_iff.mpr hd, hall c hmem⟩
  · exact .inr (.inl ⟨h.isDigits_iff.mpr hd, hall c hmem⟩)
  · rcases w with _ | ⟨e, w⟩
    · exact .inr (.inr ⟨rfl, (List.cons.inj hw).1⟩)
    · simp at hw

/-- **What goes on with a lexeme fuses with it**, if it begins a lexeme of its own. -/
theorem Lexeme.fuses (h : Lexeme w t) (hc : Lexeme (w ++ [c]) u) (h' : Lexeme (c :: v) t') :
    t.Fuses t' := by
  rcases h.of_concat hc with ⟨ht, hgoes⟩ | ⟨ht, hgoes⟩ | ⟨-, rfl⟩
  · exact .inl ⟨ht, (continuesWord_iff.mp hgoes).imp h'.isWord_iff.mpr h'.isDigits_iff.mpr⟩
  · exact .inr ⟨ht, h'.isDigits_iff.mpr hgoes⟩
  · cases h' with
    | word hrun => cases hrun.1
    | digits hrun => cases hrun.1
    | mark hmark => cases hmark

/-- **What fuses with a lexeme goes on with it.** -/
theorem Lexeme.exists_concat (h : Lexeme w t) (h' : Lexeme (c :: v) t') (hfuse : t.Fuses t') :
    ∃ u, Lexeme (w ++ [c]) u := by
  have ht' : t'.IsWord ∨ t'.IsDigits := hfuse.elim (·.2) fun hdigits => .inr hdigits.2
  have hgoes := continuesWord_iff.mpr (ht'.imp h'.isWord_iff.mp h'.isDigits_iff.mp)
  cases h with
  | word hrun => exact ⟨_, .word (hrun.concat hgoes)⟩
  | digits hrun =>
    rcases hfuse with ⟨⟨⟩, -⟩ | ⟨-, ht'⟩
    exact ⟨_, .digits (hrun.concat (h'.isDigits_iff.mp ht'))⟩
  | mark hmark =>
    obtain ⟨hword, hdigits, -⟩ := of_markToken hmark
    rcases hfuse with ⟨ht, -⟩ | ⟨ht, -⟩
    · exact absurd ht hword
    · exact absurd ht hdigits
  | arrow => exact (hfuse.elim (·.1) (·.1)).elim
  | minus => exact (hfuse.elim (·.1) (·.1)).elim

/-- No lexeme goes on with what separates. -/
theorem Lexeme.not_concat (h : Lexeme w t) (hc : Blank c ∨ c = '/') : ¬Lexeme (w ++ [c]) u := by
  intro hu
  rcases h.of_concat hu with ⟨-, hgoes⟩ | ⟨-, hgoes⟩ | ⟨-, hgoes⟩
  all_goals
    rcases hc with (rfl | rfl | rfl | rfl) | rfl
    all_goals cases hgoes

/-- Only a minus sign ends with a dash. -/
theorem Lexeme.eq_of_getLast? (h : Lexeme w t) (hlast : w.getLast? = some '-') : w = ['-'] := by
  rcases w with _ | ⟨d, w⟩
  · cases hlast
  rcases eq_or_ne w [] with rfl | hw
  · exact congrArg (fun x => [x]) (Option.some.inj hlast)
  -- a longer one would end with a character that goes on
  rw [List.getLast?_cons_of_ne_nil hw] at hlast
  have hmem := List.mem_of_getLast? hlast
  rcases h.long hw with ⟨-, hall⟩ | ⟨-, hall⟩ | ⟨-, rfl⟩
  · cases hall _ hmem
  · cases hall _ hmem
  · cases hlast

/-- What begins a lexeme is one, and the longest one can be taken. -/
theorem Lexeme.exists_longest (h : Lexeme w t) (rest : List Char) :
    ∃ v behind u, rest = v ++ behind ∧ Lexeme (w ++ v) u ∧
      ∀ x ∈ behind.head?, ∀ u', ¬Lexeme (w ++ v ++ [x]) u' := by
  induction rest generalizing w t with
  | nil =>
    refine ⟨[], [], t, rfl, ?_, nofun⟩
    rwa [List.append_nil]
  | cons x rest ih =>
    by_cases hx : ∃ u, Lexeme (w ++ [x]) u
    · obtain ⟨u, hu⟩ := hx
      obtain ⟨v, behind, u', rfl, hlexeme, hstop⟩ := ih hu
      refine ⟨x :: v, behind, u', rfl, ?_, ?_⟩
      · rwa [List.append_cons]
      · rwa [List.append_cons w x v]
    · push Not at hx
      refine ⟨[], x :: rest, t, rfl, ?_, fun y hy => ?_⟩
      · rwa [List.append_nil]
      · obtain rfl := Option.some.inj hy
        rwa [List.append_nil]

/-- The first character of a lexeme is one by itself. -/
theorem Lexeme.exists_singleton (h : Lexeme (c :: w) t) : ∃ u, Lexeme [c] u := by
  cases h with
  | word hrun => exact ⟨_, .word (run_singleton hrun.1)⟩
  | digits hrun => exact ⟨_, .digits (run_singleton hrun.1)⟩
  | mark hmark => exact ⟨_, .mark hmark⟩
  | arrow => exact ⟨_, .minus⟩
  | minus => exact ⟨_, .minus⟩

theorem Run.forall_mem {begins goesOn : Char → Bool} (h : Run begins goesOn w)
    (hbegins : ∀ x, begins x = true → goesOn x = true) : ∀ x ∈ w, goesOn x = true := by
  rcases w with _ | ⟨d, w⟩
  · exact h.elim
  · exact List.forall_mem_cons.mpr ⟨hbegins d h.1, h.2⟩

theorem utf8Size_of_continuesWord (h : continuesWord c = true) : c.utf8Size = 1 := by
  simp only [continuesWord, Char.isAlphanum, Char.isAlpha, Char.isUpper, Char.isLower,
    Char.isDigit, Bool.or_eq_true, Bool.and_eq_true, decide_eq_true_eq, ge_iff_le,
    UInt32.le_iff_toNat_le] at h
  rw [Char.utf8Size_eq_one_iff, UInt32.le_iff_toNat_le]
  rcases h with ((⟨-, hle⟩ | ⟨-, hle⟩) | ⟨-, hle⟩) | rfl
  · exact hle.trans (by decide)
  · exact hle.trans (by decide)
  · exact hle.trans (by decide)
  · decide

/-- **The characters of a lexeme have one byte each.** -/
theorem Lexeme.utf8Size_eq_one (h : Lexeme w t) : ∀ x ∈ w, x.utf8Size = 1 := by
  intro x hx
  cases h with
  | word hrun =>
    have hall := hrun.forall_mem fun d hd => continuesWord_iff.mpr (.inl hd)
    exact utf8Size_of_continuesWord (hall x hx)
  | digits hrun =>
    have hall := hrun.forall_mem fun d hd => hd
    exact utf8Size_of_continuesWord (continuesWord_iff.mpr (.inr (hall x hx)))
  | mark hmark =>
    obtain rfl := List.mem_singleton.mp hx
    unfold markToken at hmark
    split at hmark
    all_goals first | rfl | cases hmark
  | arrow =>
    rcases List.mem_cons.mp hx with rfl | hx
    · rfl
    · obtain rfl := List.mem_singleton.mp hx
      rfl
  | minus =>
    obtain rfl := List.mem_singleton.mp hx
    rfl

end Lexemes

/-! ### Texts that come of tokens -/

/-- **A text that is written from tokens**, standing behind the characters `before`, the last of
which may be the lexeme of a token: blanks, comments and lexemes one behind the other, with the
tokens of the lexemes at their places. -/
inductive Renders : List Char → Option Token → List Char → List Located → Prop
  /-- Nothing. -/
  | nil {before : List Char} {last : Option Token} : Renders before last [] []
  /-- A blank or the end of a line. -/
  | blank {before cs : List Char} {last : Option Token} {ls : List Located} {c : Char} :
      Blank c → Renders (before ++ [c]) none cs ls → Renders before last (c :: cs) ls
  /-- A comment to the end of its line. -/
  | comment {before cs w : List Char} {last : Option Token} {ls : List Located} : '\n' ∉ w →
      Renders (before ++ ('/' :: '/' :: (w ++ ['\n']))) none cs ls →
      Renders before last ('/' :: '/' :: (w ++ ['\n']) ++ cs) ls
  /-- A lexeme. Directly behind another one it must not fuse with it. -/
  | token {before cs w : List Char} {last : Option Token} {ls : List Located} {t : Token} :
      Lexeme w t → (∀ t' ∈ last, ¬t'.Fuses t) → Renders (before ++ w) (some t) cs ls →
      Renders before last (w ++ cs) (⟨t, .behind before⟩ :: ls)

/-- What may stand behind all tokens and separators: nothing, or a comment that does not end. -/
def Unended (tail : List Char) : Prop := tail = [] ∨ ∃ w, '\n' ∉ w ∧ tail = '/' :: '/' :: w

/-- A character that goes on with a lexeme in front of it. -/
def GoesOn (before : List Char) (c : Char) : Prop :=
  ∃ front w t u, before = front ++ w ∧ Lexeme w t ∧ Lexeme (w ++ [c]) u

/-- **A character that can stand nowhere**: it begins neither a separator nor a lexeme, and does
not go on with a lexeme in front of it. -/
structure Stray (before : List Char) (c : Char) (rest : List Char) : Prop where
  /-- It is not a blank. -/
  not_blank : ¬Blank c
  /-- It does not begin a comment. -/
  not_comment : c = '/' → '/' ∉ rest.head?
  /-- It does not begin a lexeme. -/
  not_lexeme : ∀ w t, ¬Lexeme (c :: w) t
  /-- It does not go on with one. -/
  not_goesOn : ¬GoesOn before c

/-! ### What a rendering is scanned as -/

namespace Scanner

variable {p : Cursor} {c : Char} {cs w : List Char} {done : List Cut} {t : Token}

/-- **A lexeme is scanned as its token**, where the text behind it does not go on with it. -/
theorem scan_lexeme (h : Lexeme w t) (hstop : ∀ c ∈ cs.head?, ∀ u, ¬Lexeme (w ++ [c]) u) :
    (⟨p, .nothing, done⟩ : Scanner).scan (w ++ cs)
      = (⟨p.afterAll w, .nothing, ⟨t, p, p.afterAll w⟩ :: done⟩ : Scanner).scan cs := by
  cases h with
  | word hrun =>
    rcases w with _ | ⟨d, w⟩
    · exact hrun.elim
    · exact scan_word hrun.1 hrun.2 fun x hx =>
        Bool.eq_false_iff.mpr fun hgoes => hstop x hx _ (.word (hrun.concat hgoes))
  | digits hrun =>
    rcases w with _ | ⟨d, w⟩
    · exact hrun.elim
    · exact scan_digits hrun.1 hrun.2 fun x hx =>
        Bool.eq_false_iff.mpr fun hgoes => hstop x hx _ (.digits (hrun.concat hgoes))
  | mark hmark => exact scan_mark hmark
  | arrow => exact scan_arrow
  | minus => exact scan_minus fun hx => hstop '>' hx _ .arrow

/-- A comment takes in everything up to the end of its line, … -/
theorem scan_open (hw : '\n' ∉ w) :
    (⟨p, .nothing, done⟩ : Scanner).scan ('/' :: '/' :: (w ++ cs))
      = (⟨p.afterAll ('/' :: '/' :: w), .comment, done⟩ : Scanner).scan cs := by
  have hopen : (⟨p, .nothing, done⟩ : Scanner).scan ('/' :: '/' :: (w ++ cs))
      = (⟨(p.after '/').after '/', .comment, done⟩ : Scanner).scan (w ++ cs) := rfl
  have hextend : ∀ x ∈ w, ∀ (q : Cursor) (_ : List Char),
      (⟨q, .comment, done⟩ : Scanner).extend x = some ⟨q.after x, .comment, done⟩ :=
    fun x hx q _ => if_neg fun heq : x = '\n' => hw (heq ▸ hx)
  exact hopen.trans (@scan_of_run _ cs w done (fun _ => .comment) [] hextend)

/-- … and leaves nothing behind. -/
theorem scan_comment (hw : '\n' ∉ w) :
    (⟨p, .nothing, done⟩ : Scanner).scan ('/' :: '/' :: (w ++ ['\n']) ++ cs)
      = (⟨p.afterAll ('/' :: '/' :: (w ++ ['\n'])), .nothing, done⟩ : Scanner).scan cs := by
  have hbreak (q : Cursor) : (⟨q, .comment, done⟩ : Scanner).scan ('\n' :: cs)
      = (⟨q.after '\n', .nothing, done⟩ : Scanner).scan cs := rfl
  have hafter : p.afterAll ('/' :: '/' :: (w ++ ['\n']))
      = (p.afterAll ('/' :: '/' :: w)).after '\n' := List.foldl_append
  rw [hafter, ← hbreak, ← scan_open hw, List.cons_append, List.cons_append, List.append_assoc,
    List.singleton_append]

/-- **A stray character is reported**, at its place. -/
theorem scan_stray {before : List Char} (h : Stray before c cs) :
    (⟨p, .nothing, done⟩ : Scanner).scan (c :: cs) = .error ⟨c, p⟩ := by
  by_cases hc : c = '/'
  · subst hc
    have hslash : (⟨p, .nothing, done⟩ : Scanner).scan ('/' :: cs)
        = (⟨p.after '/', .slash p, done⟩ : Scanner).scan cs := rfl
    rw [hslash]
    rcases cs with _ | ⟨x, cs⟩
    · rfl
    · have hx : x ≠ '/' := fun hx => h.not_comment rfl (congrArg some hx)
      have hfeed : (⟨p.after '/', .slash p, done⟩ : Scanner).feed x = .error ⟨'/', p⟩ := by
        rw [feed, extend, if_neg hx]
        rfl
      rw [scan, List.foldlM_cons, hfeed]
      rfl
  · have hdash : c ≠ '-' := by
      rintro rfl
      exact h.not_lexeme [] _ .minus
    have hdigit : ¬c.isDigit = true := fun hd => h.not_lexeme [] _ (.digits (run_singleton hd))
    have hword : ¬beginsWord c = true := fun hb => h.not_lexeme [] _ (.word (run_singleton hb))
    have hmark : markToken c = none := by
      cases hmark : markToken c with
      | none => rfl
      | some t => exact absurd (.mark hmark) (h.not_lexeme [] t)
    have hblank : ¬(c = ' ' || c = '\t' || c = '\r' || c = '\n') = true := by
      simpa [Blank, or_assoc] using h.not_blank
    have hbegin : (⟨p, .nothing, done⟩ : Scanner).begin c = .error ⟨c, p⟩ := by
      rw [begin, if_neg hblank, if_neg hc, if_neg hdash, if_neg hdigit, if_neg hword, hmark]
    have hfeed : (⟨p, .nothing, done⟩ : Scanner).feed c = .error ⟨c, p⟩ := hbegin
    rw [scan, List.foldlM_cons, hfeed]
    rfl

end Scanner

section Renders

variable {before cs rest tail : List Char} {last : Option Token} {ls : List Located} {c : Char}
  {w front : List Char} {t : Token}

/-- What stands behind a lexeme does not go on with it. -/
theorem Renders.stops (h : Renders (front ++ w) (some t) cs ls) (hw : Lexeme w t)
    (hrest : ∀ c ∈ rest.head?, ¬GoesOn (front ++ w ++ cs) c) :
    ∀ c ∈ (cs ++ rest).head?, ∀ u, ¬Lexeme (w ++ [c]) u := by
  intro c hc u hu
  cases h with
  | nil =>
    refine hrest c hc ⟨front, w, t, u, ?_, hw, hu⟩
    rw [List.append_nil]
  | blank hblank =>
    obtain rfl := Option.some.inj hc
    exact hw.not_concat (.inl hblank) hu
  | comment =>
    obtain rfl := Option.some.inj hc
    exact hw.not_concat (.inr rfl) hu
  | @token _ _ v _ _ _ hv hfuse =>
    rcases v with _ | ⟨d, v⟩
    · exact hv.ne_nil rfl
    · obtain rfl := Option.some.inj hc
      exact hfuse t rfl (hw.fuses hu hv)

/-- **A rendering is read to its end**, and its tokens are completed, whatever stands behind it
that does not go on with the last of them. -/
theorem Renders.scan_eq (h : Renders before last cs ls)
    (hrest : ∀ c ∈ rest.head?, ¬GoesOn (before ++ cs) c) (done : List Cut) :
    ∃ done', done'.map Cut.located = ls.reverse ++ done.map Cut.located ∧
      (⟨.behind before, .nothing, done⟩ : Scanner).scan (cs ++ rest)
        = (⟨.behind (before ++ cs), .nothing, done'⟩ : Scanner).scan rest := by
  induction h generalizing done with
  | nil =>
    rw [List.append_nil]
    exact ⟨done, rfl, rfl⟩
  | @blank before cs _ _ c hblank _ ih =>
    rw [List.append_cons] at hrest ⊢
    rw [List.cons_append, scan_blank hblank, ← Cursor.behind_concat]
    exact ih hrest done
  | @comment before cs w _ _ hw _ ih =>
    rw [← List.append_assoc] at hrest ⊢
    rw [List.append_assoc _ cs rest, scan_comment hw, Cursor.afterAll_behind]
    exact ih hrest done
  | @token before cs w _ ls t hw _ hcs ih =>
    rw [← List.append_assoc] at hrest ⊢
    rw [List.append_assoc, scan_lexeme hw (hcs.stops hw hrest), Cursor.afterAll_behind,
      List.reverse_cons, List.append_assoc ls.reverse, List.singleton_append]
    exact ih hrest (⟨t, .behind before, .behind (before ++ w)⟩ :: done)

/-- Nothing goes on with a comment, and a comment goes on with nothing. -/
theorem Unended.not_goesOn (h : Unended tail) (before : List Char) :
    ∀ c ∈ tail.head?, ¬GoesOn before c := by
  rintro c hc ⟨front, w, t, u, -, hw, hu⟩
  rcases h with rfl | ⟨v, -, rfl⟩
  · cases hc
  · obtain rfl := Option.some.inj hc
    exact hw.not_concat (.inr rfl) hu

/-- **The tokens of a rendering** are those that it is written from, and the end behind them. -/
theorem Renders.scan_tail (h : Renders [] none cs ls) (htail : Unended tail) :
    ({} : Scanner).scan (cs ++ tail) = .ok (ls ++ [⟨.eof, .behind (cs ++ tail)⟩]) := by
  obtain ⟨done, hdone, hscan⟩ := h.scan_eq (htail.not_goesOn _) []
  rw [List.map_nil, List.append_nil] at hdone
  refine hscan.trans ?_
  rw [List.nil_append]
  rcases htail with rfl | ⟨w, hw, rfl⟩
  · rw [List.append_nil, scans_nil (.behind cs) done, hdone, List.reverse_reverse]
    rfl
  · have hfinish (q : Cursor) : (⟨q, .comment, done⟩ : Scanner).scan []
        = .ok (⟨.eof, q.toPosition⟩ :: done.map Cut.located).reverse := rfl
    have hopen := @scan_open (.behind cs) [] w done hw
    rw [List.append_nil] at hopen
    rw [hopen, hfinish, Cursor.afterAll_behind, hdone, List.reverse_cons, List.reverse_reverse]
    rfl

/-- **A rendering with a stray character behind it** is not scanned any further. -/
theorem Renders.scan_stray (h : Renders [] none cs ls) (hc : Stray cs c rest) :
    ({} : Scanner).scan (cs ++ c :: rest) = .error ⟨c, .behind cs⟩ := by
  have hrest : ∀ x ∈ (c :: rest).head?, ¬GoesOn ([] ++ cs) x := fun x hx =>
    Option.some.inj hx ▸ hc.not_goesOn
  obtain ⟨done, -, hscan⟩ := h.scan_eq hrest []
  exact hscan.trans (Scanner.scan_stray hc)

/-! ### Every text is read -/

/-- **A text is a rendering**, to its end or to a stray character. -/
def Rendered (before : List Char) (last : Option Token) (text : List Char) : Prop :=
  (∃ cs ls tail, text = cs ++ tail ∧ Renders before last cs ls ∧ Unended tail) ∨
    ∃ cs ls c rest, text = cs ++ c :: rest ∧ Renders before last cs ls ∧ Stray (before ++ cs) c rest

/-- What stands in front is read first. -/
theorem Rendered.prepend {last' : Option Token} {text : List Char}
    (h : Rendered (before ++ w) last' text)
    (hfront : ∀ cs ls, Renders (before ++ w) last' cs ls →
      ∃ ls', Renders before last (w ++ cs) ls') :
    Rendered before last (w ++ text) := by
  rcases h with ⟨cs, ls, tail, rfl, hcs, htail⟩ | ⟨cs, ls, c, rest, rfl, hcs, hc⟩
  · obtain ⟨ls', hls'⟩ := hfront cs ls hcs
    exact .inl ⟨w ++ cs, ls', tail, (List.append_assoc w cs tail).symm, hls', htail⟩
  · obtain ⟨ls', hls'⟩ := hfront cs ls hcs
    rw [List.append_assoc] at hc
    exact .inr ⟨w ++ cs, ls', c, rest, (List.append_assoc w cs _).symm, hls', hc⟩

/-- What goes on with a lexeme begins one, except for the head of an arrow. -/
theorem GoesOn.exists_lexeme_or (h : GoesOn before c) :
    (∃ w t, Lexeme (c :: w) t) ∨ before.getLast? = some '-' ∧ c = '>' := by
  obtain ⟨front, w, t, u, rfl, hw, hu⟩ := h
  rcases hw.of_concat hu with ⟨-, hc⟩ | ⟨-, hc⟩ | ⟨rfl, rfl⟩
  · rcases continuesWord_iff.mp hc with hc | hc
    · exact .inl ⟨[], _, .word (run_singleton hc)⟩
    · exact .inl ⟨[], _, .digits (run_singleton hc)⟩
  · exact .inl ⟨[], _, .digits (run_singleton hc)⟩
  · exact .inr ⟨List.getLast?_concat, rfl⟩

/-- A text that does not go on with what stands in front of it. -/
structure Parted (before : List Char) (last : Option Token) (text : List Char) : Prop where
  /-- No lexeme at its head fuses with the token in front. -/
  not_fuses : ∀ t ∈ last, ∀ c ∈ text.head?, ∀ w u, Lexeme (c :: w) u → ¬t.Fuses u
  /-- It does not make an arrow of a dash. -/
  not_arrow : '>' ∈ text.head? → before.getLast? ≠ some '-'

theorem parted_of_ne (before text : List Char) (hc : c ≠ '-') :
    Parted (before ++ [c]) none text := by
  refine ⟨fun t ht => absurd ht (Option.not_mem_none t), fun _ hlast => ?_⟩
  rw [List.getLast?_concat] at hlast
  exact hc (Option.some.inj hlast)

/-- Behind the longest lexeme there is nothing that goes on with it. -/
theorem Lexeme.parted {text : List Char} (hw : Lexeme w t)
    (hstop : ∀ c ∈ text.head?, ∀ u, ¬Lexeme (w ++ [c]) u) (before : List Char) :
    Parted (before ++ w) (some t) text := by
  refine ⟨fun t' ht' c hc v u hu hfuse => ?_, fun hhead hlast => ?_⟩
  · obtain rfl := Option.some.inj ht'
    obtain ⟨u', hu'⟩ := hw.exists_concat hu hfuse
    exact hstop c hc u' hu'
  · rw [List.getLast?_append_of_ne_nil before hw.ne_nil] at hlast
    have harrow := hstop '>' hhead .arrow
    rw [hw.eq_of_getLast? hlast] at harrow
    exact harrow .arrow

/-- **Every text is read**, behind what it does not go on with. -/
theorem rendered_of_parted (n : ℕ) {text : List Char} (hn : text.length < n)
    (h : Parted before last text) : Rendered before last text := by
  induction n generalizing before last text with
  | zero => exact absurd hn (Nat.not_lt_zero _)
  | succ n ih =>
    rcases text with _ | ⟨c, text⟩
    · exact .inl ⟨[], [], [], rfl, .nil, .inl rfl⟩
    rw [List.length_cons, Nat.succ_lt_succ_iff] at hn
    by_cases hblank : Blank c
    · have hc : c ≠ '-' := by
        rintro rfl
        rcases hblank with h | h | h | h <;> cases h
      exact (ih hn (parted_of_ne before text hc)).prepend fun cs ls hcs => ⟨ls, .blank hblank hcs⟩
    by_cases hlexeme : ∃ w t, Lexeme (c :: w) t
    · -- the longest lexeme in front
      obtain ⟨v, t, hv⟩ := hlexeme
      obtain ⟨t, hc⟩ := hv.exists_singleton
      obtain ⟨w, rest, u, rfl, hu, hstop⟩ := hc.exists_longest text
      have hshort : rest.length < n := (Nat.le_add_left _ _).trans_lt (List.length_append ▸ hn)
      exact (ih hshort (hu.parted hstop before)).prepend fun cs ls hcs =>
        ⟨_, .token hu (fun t ht => h.not_fuses t ht c rfl w u hu) hcs⟩
    by_cases hcomment : c = '/' ∧ '/' ∈ text.head?
    · -- a comment up to the end of its line, if that has one
      obtain ⟨rfl, hhead⟩ := hcomment
      obtain ⟨text, rfl⟩ : ∃ text', text = '/' :: text' := ⟨_, List.eq_cons_of_mem_head? hhead⟩
      by_cases hbreak : '\n' ∈ text
      · obtain ⟨w, rest, rfl, hw⟩ := List.eq_append_cons_of_mem hbreak
        have hshort : rest.length < n := by
          simp only [List.length_cons, List.length_append] at hn
          omega
        have hparted : Parted (before ++ '/' :: '/' :: w ++ ['\n']) none rest :=
          parted_of_ne _ rest (by decide)
        rw [List.append_assoc] at hparted
        have hrendered : Rendered before last ('/' :: '/' :: (w ++ ['\n']) ++ rest) :=
          (ih hshort hparted).prepend fun cs ls hcs => ⟨ls, .comment hw hcs⟩
        simpa using hrendered
      · exact .inl ⟨[], [], _, rfl, .nil, .inr ⟨text, hbreak, rfl⟩⟩
    · refine .inr ⟨[], [], c, text, rfl, .nil, hblank, fun hc hhead => hcomment ⟨hc, hhead⟩,
        fun w t ht => hlexeme ⟨w, t, ht⟩, fun hgoes => ?_⟩
      rw [List.append_nil] at hgoes
      rcases hgoes.exists_lexeme_or with hc | ⟨hlast, rfl⟩
      · exact hlexeme hc
      · exact h.not_arrow rfl hlast

/-! ### Where a text is cut -/

/-- A text has a position between any two parts of it, and it is one between characters. -/
theorem exists_splits {text start rest : String} (h : text = start ++ rest) :
    ∃ i : text.Pos, i.Splits start rest := by
  subst h
  have hvalid : start.rawEndPos.IsValid (start ++ rest) :=
    String.Pos.Raw.isValid_append.mpr (.inl String.Pos.Raw.isValid_rawEndPos)
  exact ⟨⟨start.rawEndPos, hvalid⟩, rfl, rfl⟩

/-- The bytes from one position to another are the text that stands between them. -/
theorem extract_eq_of_splits {text front between rest : String} {i j : text.Pos}
    (hi : i.Splits front (between ++ rest)) (hj : j.Splits (front ++ between) rest) :
    String.extract i j = between := by
  have hbytes :
      text.toByteArray = front.toByteArray ++ between.toByteArray ++ rest.toByteArray := by
    rw [hj.eq_append, String.toByteArray_append, String.toByteArray_append]
  have hstart : i.offset.byteIdx = front.toByteArray.size :=
    congrArg String.Pos.Raw.byteIdx hi.offset_eq_rawEndPos
  have hstop : j.offset.byteIdx = front.toByteArray.size + between.toByteArray.size := by
    rw [hj.offset_eq_rawEndPos, ← ByteArray.size_append, ← String.toByteArray_append]
    rfl
  rw [← String.toByteArray_inj]
  change text.toByteArray.extract i.offset.byteIdx j.offset.byteIdx = between.toByteArray
  rw [hbytes, hstart, ByteArray.extract_append, ByteArray.extract_append_eq_right rfl hstop, hstop,
    ByteArray.size_append]
  simp

/-- **A token is cut between characters**: the offsets that are kept of it are positions of the
text, and the bytes from the one to the other are its lexeme, one for each character. -/
def Cut.Fits (text : String) (cut : Cut) : Prop :=
  ∃ (front lexeme remainder : String) (i j : text.Pos),
    i.offset = cut.start.offset ∧ j.offset = cut.stop.offset ∧ String.extract i j = lexeme ∧
      i.Splits front (lexeme ++ remainder) ∧ j.Splits (front ++ lexeme) remainder ∧
      (∀ x ∈ lexeme.toList, x.utf8Size = 1) ∧ Lexeme lexeme.toList cut.token ∧
      cut.located.position = .behind front.toList

/-- **What stands in a text fits it**, whatever characters stand in front of it and behind. -/
theorem StandsIn.fits {text : String} {cut : Cut} (h : StandsIn cs cut)
    (htext : text.toList = cs ++ rest) : cut.Fits text := by
  obtain ⟨front, w, behind, rfl, hw, hstart, hstop⟩ := h
  have happend :
      text = String.ofList front ++ (String.ofList w ++ String.ofList (behind ++ rest)) := by
    rw [← String.ofList_append, ← String.ofList_append, ← String.ofList_toList (s := text), htext]
    simp only [List.append_assoc]
  obtain ⟨i, hi⟩ := exists_splits happend
  obtain ⟨j, hj⟩ := exists_splits (happend.trans (String.append_assoc).symm)
  refine ⟨_, _, _, i, j, ?_, ?_, extract_eq_of_splits hi hj, hi, hj, ?_, ?_, ?_⟩
  · rw [hi.offset_eq_rawEndPos, hstart]
    rfl
  · rw [hj.offset_eq_rawEndPos, hstop, ← String.ofList_append]
    rfl
  · rw [String.toList_ofList]
    exact hw.utf8Size_eq_one
  · rwa [String.toList_ofList]
  · rw [String.toList_ofList]
    exact congrArg Cursor.toPosition hstart

/-! ### The whole of scanning -/

theorem tokens_eq_scan (text : String) : tokens text = ({} : Scanner).scan text.toList := rfl

/-- Every text is a rendering to its end or to a stray character. -/
theorem rendered (text : List Char) : Rendered [] none text :=
  rendered_of_parted (text.length + 1) (Nat.lt_succ_self _)
    ⟨fun _ ht => absurd ht (Option.not_mem_none _), fun _ hlast => nomatch hlast⟩

/-- **Scanning undoes writing, and places are right.** -/
theorem tokens_eq_ok_iff {text : String} {ts : List Located} :
    tokens text = .ok ts ↔ ∃ cs tail ls, text.toList = cs ++ tail ∧ Renders [] none cs ls ∧
      Unended tail ∧ ts = ls ++ [⟨.eof, .behind text.toList⟩] := by
  rw [tokens_eq_scan]
  constructor
  · intro h
    rcases rendered text.toList with
      ⟨cs, ls, tail, htext, hcs, htail⟩ | ⟨cs, ls, c, rest, htext, hcs, hc⟩
    · rw [htext, hcs.scan_tail htail] at h
      exact ⟨cs, tail, ls, htext, hcs, htail, htext ▸ (Except.ok.inj h).symm⟩
    · rw [htext, hcs.scan_stray hc] at h
      cases h
  · rintro ⟨cs, tail, ls, htext, hcs, htail, rfl⟩
    rw [htext]
    exact hcs.scan_tail htail

/-- **Scanning fails at a stray character behind a rendering**, and says so. -/
theorem tokens_eq_error_iff {text : String} {c : Char} {p : Cursor} :
    tokens text = .error ⟨c, p⟩ ↔ ∃ cs rest ls, text.toList = cs ++ c :: rest ∧
      Renders [] none cs ls ∧ Stray cs c rest ∧ p = .behind cs := by
  rw [tokens_eq_scan]
  constructor
  · intro h
    rcases rendered text.toList with
      ⟨cs, ls, tail, htext, hcs, htail⟩ | ⟨cs, ls, d, rest, htext, hcs, hd⟩
    · rw [htext, hcs.scan_tail htail] at h
      cases h
    · rw [htext, hcs.scan_stray hd] at h
      obtain ⟨rfl, rfl⟩ := StrayChar.mk.inj (Except.error.inj h)
      exact ⟨cs, rest, ls, htext, hcs, hd, rfl⟩
  · rintro ⟨cs, rest, ls, htext, hcs, hc, rfl⟩
    rw [htext]
    exact hcs.scan_stray hc

/-- **A text has one stray character at most**, as there is one place only that is reported. -/
theorem Stray.unique {cs' rest' : List Char} {c' : Char} {ls' : List Located}
    (hcs : Renders [] none cs ls) (hc : Stray cs c rest) (hcs' : Renders [] none cs' ls')
    (hc' : Stray cs' c' rest') (h : cs ++ c :: rest = cs' ++ c' :: rest') : cs = cs' := by
  have hreported := (hcs.scan_stray hc).symm.trans (h ▸ hcs'.scan_stray hc')
  have hplace := congrArg StrayChar.cursor (Except.error.inj hreported)
  -- one of them is the beginning of the other
  rcases List.append_eq_append_iff.mp h with ⟨w, rfl, -⟩ | ⟨w, rfl, -⟩
  · rw [Cursor.eq_nil_of_behind_append hplace.symm, List.append_nil]
  · rw [Cursor.eq_nil_of_behind_append hplace, List.append_nil]

/-- **Scanning undoes writing.** The tokens of a text are those that it is written from, each at
its place, with the end behind them; a text that is not written from tokens is so up to a stray
character, and the scanner reports that one, of which there is no other, at its place. Whatever the
scanner has completed, after any number of characters and whether or not it fails later, has been
cut out of the text between characters, at the offsets that it keeps; and so is a stray
character. -/
theorem tokens_of_rendering :
    (∀ text ts, tokens text = .ok ts ↔ ∃ cs tail ls, text.toList = cs ++ tail ∧
      Renders [] none cs ls ∧ Unended tail ∧ ts = ls ++ [⟨.eof, .behind text.toList⟩]) ∧
    (∀ text c p, tokens text = .error ⟨c, p⟩ ↔ ∃ cs rest ls, text.toList = cs ++ c :: rest ∧
      Renders [] none cs ls ∧ Stray cs c rest ∧ p = .behind cs) ∧
    (∀ cs cs' c c' rest rest' ls ls', cs ++ c :: rest = cs' ++ c' :: rest' →
      Renders [] none cs ls → Stray cs c rest → Renders [] none cs' ls' → Stray cs' c' rest' →
      cs = cs') ∧
    (∀ (text : String) cs rest s s', text.toList = cs ++ rest →
      cs.foldlM Scanner.feed {} = .ok s → s.complete = .ok s' → ∀ cut ∈ s'.cuts, cut.Fits text) ∧
    ∀ text c p, tokens text = .error ⟨c, p⟩ → ∃ (front remainder : String) (i : text.Pos),
      i.offset = p.offset ∧ i.Splits front (String.singleton c ++ remainder) ∧
        p.toPosition = .behind front.toList := by
  refine ⟨fun _ _ => tokens_eq_ok_iff, fun _ _ _ => tokens_eq_error_iff,
    fun _ _ _ _ _ _ _ _ h hcs hc hcs' hc' => Stray.unique hcs hc hcs' hc' h,
    fun text cs rest s s' htext hs hs' cut hcut => ?_, fun text c p h => ?_⟩
  · exact (((lexical_of_foldlM hs).complete hs').cuts cut hcut).fits htext
  · obtain ⟨cs, rest, ls, htext, -, -, rfl⟩ := tokens_eq_error_iff.mp h
    have happend :
        text = String.ofList cs ++ (String.singleton c ++ String.ofList rest) := by
      rw [String.singleton_eq_ofList, ← String.ofList_append, ← String.ofList_append,
        List.singleton_append, ← htext, String.ofList_toList]
    obtain ⟨i, hi⟩ := exists_splits happend
    refine ⟨_, _, i, hi.offset_eq_rawEndPos, hi, ?_⟩
    rw [String.toList_ofList]
    rfl

/-- The sign in the comment has two bytes, and the end comes behind both of them. -/
example : tokens "a//é" = .ok [⟨.word "a", ⟨1, 1⟩⟩, ⟨.eof, ⟨1, 6⟩⟩] := by decide +kernel

end Renders

end MarkovDecision
