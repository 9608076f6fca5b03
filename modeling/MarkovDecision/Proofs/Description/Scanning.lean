import Mathlib
import MarkovDecision.Description.Scanner

/-!
# What a text is scanned as

A scanner is fed from the left, and what it makes of a character depends on what it is
in the middle of. What a text *says* is better told from the right: a character that
stands before a text, or a word, or a number, adds its token to the tokens of that text.
`Scans p cs ls` says that the characters `cs`, begun at the place `p`, are scanned as the
tokens `ls`, with the end of the text for the last of them; and there is one rule for
each kind of thing that can stand in front.

Where one token ends and another begins takes a condition. A word or a number takes in
as many characters as it can, so the text behind it must not go on with it; and a dash is
a sign only if no arrow head follows. Then the scanner completes what is pending when it
comes to the text behind, and treats that as if nothing had been pending
(`Scanner.scan_of_complete`).

The rules stand there twice. As equations between scanners they say how far the text in
front has been read, whatever becomes of the text behind; for texts that are scanned to
their end the rules of `Scans` follow.
-/

namespace MarkovDecision

/-! ### Places -/

/-- **The place behind some characters**: its line is one more than there are line breaks, and its
column one more than there are bytes behind the last of them. -/
def Position.behind (cs : List Char) : Position :=
  ⟨1 + cs.count '\n', 1 + (String.ofList (cs.rtakeWhile (· ≠ '\n'))).utf8ByteSize⟩

theorem Position.behind_concat (cs : List Char) (c : Char) :
    behind (cs ++ [c]) = (behind cs).after c := by
  by_cases hc : c = '\n'
  · subst hc
    have hline : (cs ++ ['\n']).rtakeWhile (· ≠ '\n') = [] :=
      List.rtakeWhile_concat_neg _ _ _ (by simp)
    rw [behind, hline, List.count_append]
    rfl
  · have hline : (cs ++ [c]).rtakeWhile (· ≠ '\n') = cs.rtakeWhile (· ≠ '\n') ++ [c] :=
      List.rtakeWhile_concat_pos _ _ _ (by simpa using hc)
    have hsize : (String.ofList [c]).utf8ByteSize = c.utf8Size := by simp
    have hcount : [c].count '\n' = 0 := List.count_eq_zero.mpr (by simpa using Ne.symm hc)
    rw [after, if_neg hc, behind, hline, String.ofList_append, String.utf8ByteSize_append, hsize,
      List.count_append, hcount, Nat.add_zero, ← Nat.add_assoc]
    rfl

namespace Cursor

/-- The cursor after some characters. -/
def afterAll (k : Cursor) (cs : List Char) : Cursor := cs.foldl Cursor.after k

/-- **The cursor behind some characters**: all of their bytes are in front of it. -/
def behind (cs : List Char) : Cursor := ⟨.behind cs, (String.ofList cs).rawEndPos⟩

theorem behind_concat (cs : List Char) (c : Char) : behind (cs ++ [c]) = (behind cs).after c := by
  have hoffset : (String.ofList (cs ++ [c])).rawEndPos = (String.ofList cs).rawEndPos + c := by
    rw [String.ofList_append, String.Pos.Raw.ext_iff]
    simp
  rw [behind, hoffset, Position.behind_concat]
  rfl

theorem afterAll_behind (cs w : List Char) : (behind cs).afterAll w = behind (cs ++ w) := by
  induction w generalizing cs with
  | nil => rw [List.append_nil]; rfl
  | cons c w ih =>
    have hstep : (behind cs).afterAll (c :: w) = ((behind cs).after c).afterAll w := rfl
    rw [hstep, ← behind_concat, ih, List.append_assoc, List.singleton_append]

/-- **A place is come to once only**: what leads from it to itself has no bytes. -/
theorem eq_nil_of_behind_append {cs w : List Char} (h : behind (cs ++ w) = behind cs) :
    w = [] := by
  have hbytes : (String.ofList (cs ++ w)).utf8ByteSize = (String.ofList cs).utf8ByteSize :=
    congrArg (fun k => k.offset.byteIdx) h
  rw [String.ofList_append, String.utf8ByteSize_append, Nat.add_eq_left,
    String.utf8ByteSize_eq_zero_iff, String.ofList_eq_empty_iff] at hbytes
  exact hbytes

end Cursor

/-! ### Scanning on -/

namespace Scanner

variable {s s' : Scanner} {p q : Cursor} {c : Char} {cs w : List Char} {done : List Cut}

/-- What becomes of a text from a scanner on. -/
def scan (s : Scanner) (cs : List Char) : Except StrayChar (List Located) := do
  (← cs.foldlM feed s).finish

theorem scan_of_feed (h : s.feed c = .ok s') : s.scan (c :: cs) = s'.scan cs := by
  rw [scan, List.foldlM_cons, h]
  rfl

/-- Where nothing is pending, a character begins something of its own. -/
theorem scan_of_begin (h : (⟨p, .nothing, done⟩ : Scanner).begin c = .ok s') :
    (⟨p, .nothing, done⟩ : Scanner).scan (c :: cs) = s'.scan cs :=
  scan_of_feed h

/-- **What is pending is completed**, where the text behind it does not go on with it, and the text
is then scanned as if nothing had been pending. -/
theorem scan_of_complete (hstop : ∀ c ∈ cs.head?, s.extend c = none) (hs : s.complete = .ok s') :
    s.scan cs = (⟨s'.cursor, .nothing, s'.cuts⟩ : Scanner).scan cs := by
  rcases cs with _ | ⟨c, cs⟩
  · have hfinish : s.finish = (⟨s'.cursor, .nothing, s'.cuts⟩ : Scanner).finish := by
      rw [finish, hs]
      rfl
    exact hfinish
  · have hfeed : s.feed c = (⟨s'.cursor, .nothing, s'.cuts⟩ : Scanner).feed c := by
      rw [feed, hstop c rfl, hs]
      rfl
    rw [scan, List.foldlM_cons, hfeed]
    rfl

/-! ### How a token begins -/

/-- A blank, a tabulator or the end of a line. -/
def Blank (c : Char) : Prop := c = ' ' ∨ c = '\t' ∨ c = '\r' ∨ c = '\n'

instance : DecidablePred Blank := fun _ => inferInstanceAs (Decidable (_ ∨ _))

theorem begin_of_blank (h : Blank c) : s.begin c = .ok (s.past c .nothing) := by
  rcases h with rfl | rfl | rfl | rfl <;> rfl

theorem begin_of_mark {token : Token} (h : markToken c = some token) :
    s.begin c = .ok ((s.past c .nothing).emit token s.cursor) := by
  unfold markToken at h
  split at h <;> cases h <;> rfl

theorem begin_of_digit (h : c.isDigit = true) :
    s.begin c = .ok (s.past c (.digits s.cursor [c])) := by
  have hne : ∀ x : Char, x.isDigit = false → c ≠ x := by
    rintro x hx rfl
    exact Bool.false_ne_true (hx.symm.trans h)
  simp [begin, h, hne ' ' rfl, hne '\t' rfl, hne '\r' rfl, hne '\n' rfl, hne '/' rfl, hne '-' rfl]

/-- No word begins with a digit. -/
theorem isDigit_of_beginsWord (h : beginsWord c = true) : c.isDigit = false := by
  simp only [beginsWord, Char.isAlpha, Char.isUpper, Char.isLower, Bool.or_eq_true,
    Bool.and_eq_true, decide_eq_true_eq, ge_iff_le, UInt32.le_iff_toNat_le] at h
  rw [Bool.eq_false_iff, ne_eq, Char.isDigit_iff_toNat]
  rintro ⟨-, hnine⟩
  -- the letters and the underscore come after the nine
  rcases h with (⟨hle, -⟩ | ⟨hle, -⟩) | rfl
  · exact absurd (Nat.le_trans hle hnine) (by decide)
  · exact absurd (Nat.le_trans hle hnine) (by decide)
  · exact absurd hnine (by decide)

theorem begin_of_word (h : beginsWord c = true) :
    s.begin c = .ok (s.past c (.word s.cursor [c])) := by
  have hne : ∀ x : Char, beginsWord x = false → c ≠ x := by
    rintro x hx rfl
    exact Bool.false_ne_true (hx.symm.trans h)
  simp [begin, h, isDigit_of_beginsWord h, hne ' ' rfl, hne '\t' rfl, hne '\r' rfl, hne '\n' rfl,
    hne '/' rfl, hne '-' rfl]

/-- **A run of characters is taken in** by what is pending, if it goes on with each of them. -/
theorem scan_of_run {run : List Char → Pending} {chars : List Char}
    (hw : ∀ x ∈ w, ∀ q chars, (⟨q, run chars, done⟩ : Scanner).extend x
      = some ⟨q.after x, run (x :: chars), done⟩) :
    (⟨p, run chars, done⟩ : Scanner).scan (w ++ cs)
      = (⟨p.afterAll w, run (w.reverse ++ chars), done⟩ : Scanner).scan cs := by
  induction w generalizing p chars with
  | nil => rfl
  | cons x w ih =>
    obtain ⟨hx, hw⟩ := List.forall_mem_cons.mp hw
    have hfeed : (⟨p, run chars, done⟩ : Scanner).feed x
        = .ok ⟨p.after x, run (x :: chars), done⟩ := by
      rw [feed, hx p chars]
    rw [List.cons_append, scan_of_feed hfeed, ih hw, List.reverse_cons, List.append_assoc]
    rfl

/-! ### What stands in front -/

section Front

variable {token : Token}

theorem scan_blank (hc : Blank c) : (⟨p, .nothing, done⟩ : Scanner).scan (c :: cs)
    = (⟨p.after c, .nothing, done⟩ : Scanner).scan cs :=
  scan_of_begin (begin_of_blank hc)

theorem scan_mark (hc : markToken c = some token) :
    (⟨p, .nothing, done⟩ : Scanner).scan (c :: cs)
      = (⟨p.after c, .nothing, ⟨token, p, p.after c⟩ :: done⟩ : Scanner).scan cs :=
  scan_of_begin (begin_of_mark hc)

theorem scan_arrow : (⟨p, .nothing, done⟩ : Scanner).scan ('-' :: '>' :: cs)
    = (⟨(p.after '-').after '>', .nothing, ⟨.arrow, p, (p.after '-').after '>'⟩ :: done⟩
        : Scanner).scan cs :=
  rfl

theorem scan_minus (hcs : '>' ∉ cs.head?) : (⟨p, .nothing, done⟩ : Scanner).scan ('-' :: cs)
    = (⟨p.after '-', .nothing, ⟨.minus, p, p.after '-'⟩ :: done⟩ : Scanner).scan cs := by
  have hbegin : (⟨p, .nothing, done⟩ : Scanner).begin '-' = .ok ⟨p.after '-', .dash p, done⟩ := rfl
  rw [scan_of_begin hbegin]
  refine scan_of_complete (s := ⟨p.after '-', .dash p, done⟩) (fun c hc => if_neg ?_) rfl
  rintro rfl
  exact hcs hc

/-- **A run takes in as many characters as it can**: a word and a number are scanned alike. -/
theorem scan_run {goesOn : Char → Bool} {spelt : String → Token} (run : List Char → Pending)
    (hbegin : (⟨p, .nothing, done⟩ : Scanner).begin c = .ok ⟨p.after c, run [c], done⟩)
    (hextend : ∀ q chars x, (⟨q, run chars, done⟩ : Scanner).extend x
      = if goesOn x then some ⟨q.after x, run (x :: chars), done⟩ else none)
    (hcomplete : ∀ q chars, (⟨q, run chars, done⟩ : Scanner).complete
      = .ok ⟨q, run chars, ⟨spelt (String.ofList chars.reverse), p, q⟩ :: done⟩)
    (hw : ∀ x ∈ w, goesOn x = true) (hcs : ∀ x ∈ cs.head?, goesOn x = false) :
    (⟨p, .nothing, done⟩ : Scanner).scan (c :: (w ++ cs))
      = (⟨p.afterAll (c :: w), .nothing,
          ⟨spelt (String.ofList (c :: w)), p, p.afterAll (c :: w)⟩ :: done⟩ : Scanner).scan cs := by
  rw [scan_of_begin hbegin,
    scan_of_run fun x hx q chars => (hextend q chars x).trans (if_pos (hw x hx))]
  have hs := hcomplete (p.afterAll (c :: w)) (w.reverse ++ [c])
  rw [List.reverse_append, List.reverse_reverse, List.reverse_singleton] at hs
  refine scan_of_complete (s := ⟨p.afterAll (c :: w), run (w.reverse ++ [c]), done⟩)
    (fun x hx => ?_) hs
  rw [hextend, hcs x hx]
  rfl

theorem scan_word (hc : beginsWord c = true) (hw : ∀ x ∈ w, continuesWord x = true)
    (hcs : ∀ x ∈ cs.head?, continuesWord x = false) :
    (⟨p, .nothing, done⟩ : Scanner).scan (c :: (w ++ cs))
      = (⟨p.afterAll (c :: w), .nothing,
          ⟨.ofWord (String.ofList (c :: w)), p, p.afterAll (c :: w)⟩ :: done⟩ : Scanner).scan cs :=
  scan_run (.word p) (begin_of_word hc) (fun _ _ _ => rfl) (fun _ _ => rfl) hw hcs

theorem scan_digits (hc : c.isDigit = true) (hw : ∀ x ∈ w, x.isDigit = true)
    (hcs : ∀ x ∈ cs.head?, x.isDigit = false) :
    (⟨p, .nothing, done⟩ : Scanner).scan (c :: (w ++ cs))
      = (⟨p.afterAll (c :: w), .nothing,
          ⟨.digits (String.ofList (c :: w)), p, p.afterAll (c :: w)⟩ :: done⟩ : Scanner).scan cs :=
  scan_run (.digits p) (begin_of_digit hc) (fun _ _ _ => rfl) (fun _ _ => rfl) hw hcs

end Front

end Scanner

/-! ### Texts that are scanned to their end -/

/-- **Characters are scanned as tokens** from a place on, where nothing is pending. -/
def Scans (p : Cursor) (cs : List Char) (ls : List Located) : Prop :=
  ∀ done, (⟨p, .nothing, done⟩ : Scanner).scan cs = .ok ((done.map Cut.located).reverse ++ ls)

section Scans

open Scanner

variable {p q : Cursor} {c : Char} {cs w : List Char} {ls : List Located} {token : Token}

/-- The tokens of a text are what it is scanned as from its beginning. -/
theorem Scans.tokens_eq {text : String} (h : Scans {} text.toList ls) : tokens text = .ok ls :=
  h []

theorem scans_nil (p : Cursor) : Scans p [] [⟨.eof, p.toPosition⟩] := by
  intro done
  have hfinish : (⟨p, .nothing, done⟩ : Scanner).finish
      = .ok (⟨.eof, p.toPosition⟩ :: done.map Cut.located).reverse := rfl
  exact hfinish.trans (congrArg Except.ok List.reverse_cons)

/-- **What stands in front adds its token.** -/
theorem Scans.of_front (h : Scans q cs ls)
    (hw : ∀ done, (⟨p, .nothing, done⟩ : Scanner).scan w
      = (⟨q, .nothing, ⟨token, p, q⟩ :: done⟩ : Scanner).scan cs) :
    Scans p w (⟨token, p.toPosition⟩ :: ls) := by
  intro done
  rw [hw, h, List.map_cons, List.reverse_cons, List.append_assoc, List.singleton_append]
  rfl

theorem Scans.blank (h : Scans (p.after c) cs ls) (hc : Blank c) : Scans p (c :: cs) ls :=
  fun done => (scan_blank hc).trans (h done)

theorem Scans.mark (h : Scans (p.after c) cs ls) (hc : markToken c = some token) :
    Scans p (c :: cs) (⟨token, p.toPosition⟩ :: ls) :=
  h.of_front fun _ => scan_mark hc

theorem Scans.arrow (h : Scans ((p.after '-').after '>') cs ls) :
    Scans p ('-' :: '>' :: cs) (⟨.arrow, p.toPosition⟩ :: ls) :=
  h.of_front fun _ => scan_arrow

theorem Scans.minus (h : Scans (p.after '-') cs ls) (hcs : '>' ∉ cs.head?) :
    Scans p ('-' :: cs) (⟨.minus, p.toPosition⟩ :: ls) :=
  h.of_front fun _ => scan_minus hcs

theorem Scans.word (h : Scans (p.afterAll (c :: w)) cs ls) (hc : beginsWord c = true)
    (hw : ∀ x ∈ w, continuesWord x = true) (hcs : ∀ x ∈ cs.head?, continuesWord x = false) :
    Scans p (c :: (w ++ cs)) (⟨.ofWord (String.ofList (c :: w)), p.toPosition⟩ :: ls) :=
  h.of_front fun _ => scan_word hc hw hcs

theorem Scans.digits (h : Scans (p.afterAll (c :: w)) cs ls) (hc : c.isDigit = true)
    (hw : ∀ x ∈ w, x.isDigit = true) (hcs : ∀ x ∈ cs.head?, x.isDigit = false) :
    Scans p (c :: (w ++ cs)) (⟨.digits (String.ofList (c :: w)), p.toPosition⟩ :: ls) :=
  h.of_front fun _ => scan_digits hc hw hcs

end Scans

/-! ### Places apart -/

/-- **Characters spell tokens**, whatever the place where they begin. -/
def Spelled (cs : List Char) (ts : List Token) : Prop :=
  ∀ p, ∃ ls, Scans p cs ls ∧ ls.map Located.token = ts

section Spelled

variable {c : Char} {cs : List Char} {ts : List Token} {t : Token}

theorem spelled_nil : Spelled [] [.eof] := fun p => ⟨_, scans_nil p, rfl⟩

theorem Spelled.blank (h : Spelled cs ts) (hc : Scanner.Blank c) : Spelled (c :: cs) ts := by
  intro p
  obtain ⟨ls, hls, rfl⟩ := h (p.after c)
  exact ⟨ls, hls.blank hc, rfl⟩

theorem Spelled.space (h : Spelled cs ts) : Spelled (' ' :: cs) ts := h.blank (.inl rfl)

theorem Spelled.mark (h : Spelled cs ts) (hc : markToken c = some t) :
    Spelled (c :: cs) (t :: ts) := by
  intro p
  obtain ⟨ls, hls, rfl⟩ := h (p.after c)
  exact ⟨_, hls.mark hc, rfl⟩

theorem Spelled.arrow (h : Spelled cs ts) : Spelled ('-' :: '>' :: cs) (.arrow :: ts) := by
  intro p
  obtain ⟨ls, hls, rfl⟩ := h ((p.after '-').after '>')
  exact ⟨_, hls.arrow, rfl⟩

theorem Spelled.minus (h : Spelled cs ts) (hcs : '>' ∉ cs.head?) :
    Spelled ('-' :: cs) (.minus :: ts) := by
  intro p
  obtain ⟨ls, hls, rfl⟩ := h (p.after '-')
  exact ⟨_, hls.minus hcs, rfl⟩

/-- A text that goes on neither with a word nor with a number. -/
def Breaks (cs : List Char) : Prop := ∀ c ∈ cs.head?, continuesWord c = false

theorem breaks_cons (hc : continuesWord c = false) (cs : List Char) : Breaks (c :: cs) := by
  intro x hx
  obtain rfl := Option.some.inj hx
  exact hc

theorem Breaks.not_digit (h : Breaks cs) : ∀ c ∈ cs.head?, c.isDigit = false := by
  intro c hc
  have hnot := h c hc
  rw [continuesWord, Char.isAlphanum, Bool.or_eq_false_iff, Bool.or_eq_false_iff] at hnot
  exact hnot.1.2

/-- A word of some letters is read to its end. -/
theorem Spelled.word (h : Spelled cs ts) (hcs : Breaks cs) (text : String)
    (htext : text.toList.head?.any beginsWord = true)
    (hrest : text.toList.tail.all continuesWord = true) :
    Spelled (text.toList ++ cs) (.ofWord text :: ts) := by
  intro p
  rcases hlist : text.toList with _ | ⟨c, w⟩
  · rw [hlist] at htext
    cases htext
  · rw [hlist] at htext hrest
    obtain ⟨ls, hls, rfl⟩ := h (p.afterAll (c :: w))
    refine ⟨_, hls.word htext (List.all_eq_true.mp hrest) hcs, ?_⟩
    rw [← hlist, String.ofList_toList]
    rfl

theorem Spelled.number (h : Spelled cs ts) (hcs : Breaks cs) (n : ℕ) :
    Spelled (n.repr.toList ++ cs) (.digits n.repr :: ts) := by
  intro p
  have hdigits : ∀ x ∈ n.repr.toList, x.isDigit = true := by
    rw [Nat.toList_repr]
    exact fun x hx => Nat.isDigit_of_mem_toDigits (by decide) (by decide) hx
  rcases hlist : n.repr.toList with _ | ⟨c, w⟩
  · exact absurd (Nat.toList_repr.symm.trans hlist) Nat.toDigits_ne_nil
  · rw [hlist] at hdigits
    obtain ⟨hc, hw⟩ := List.forall_mem_cons.mp hdigits
    obtain ⟨ls, hls, rfl⟩ := h (p.afterAll (c :: w))
    refine ⟨_, hls.digits hc hw hcs.not_digit, ?_⟩
    rw [← hlist, String.ofList_toList]
    rfl

end Spelled

end MarkovDecision
