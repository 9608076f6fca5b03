import Mathlib.Data.List.Induction
import Mathlib.Data.Nat.Digits.Defs
import MarkovDecision.Description.Reader

/-!
# The grammar of descriptions

Which sequences of tokens are descriptions, and what each of them declares. Every
nonterminal is a relation between the tokens it derives and what they stand for:

    description  =  'States' state (',' state)* ';' block* transition* end
    state        =  word [':' ['-'] number]
    block        =  'Actions' word (',' word)* ';'
    transition   =  head branch ('+' branch)* ';'
    head         =  word ['[' word ']'] '->'
    branch       =  number ':' word

The number of a reward is at most `2⁶³ - 1`, also where it is negative, and that of a
branch at most `2⁶⁴ - 1`. Nothing here refers to how a description is read.

Both kinds of repetition are defined from the left, as derivations are written down;
whoever reads a description builds them up from the right, one item after the other,
and `Separated.snoc` and `Repeated.snoc` are what that needs.
-/

namespace MarkovDecision

namespace Grammar

/-- The number that a run of digits denotes in base ten. -/
def number (digits : String) : ℕ :=
  Nat.ofDigits 10 (digits.toList.reverse.map fun c => c.toNat - '0'.toNat)

/-- The running value of a reader is that number. -/
theorem ofDigits_eq_number (digits : String) :
    Decimal.ofDigits digits.toList = number digits := by
  rw [number, Decimal.ofDigits]
  induction digits.toList using List.reverseRecOn with
  | nil => rfl
  | append_singleton cs c ih =>
    rw [List.foldl_append, ih, List.reverse_append, List.reverse_singleton, List.singleton_append,
      List.map_cons, Nat.ofDigits_cons, Nat.add_comm]
    rfl

/-! ### Repetitions -/

section Repetitions

variable {α : Type}

/-- One item or several, with a mark between any two. -/
inductive Separated (item : List Token → α → Prop) (mark : Token) : List Token → List α → Prop
  /-- A single item. -/
  | last {ts : List Token} {a : α} : item ts a → Separated item mark ts [a]
  /-- An item, the mark, and the items after it. -/
  | more {ts us : List Token} {a : α} {as : List α} :
      item ts a → Separated item mark us as → Separated item mark (ts ++ mark :: us) (a :: as)

/-- Any number of items. -/
inductive Repeated (item : List Token → α → Prop) : List Token → List α → Prop
  /-- No item. -/
  | none : Repeated item [] []
  /-- An item, and the items after it. -/
  | more {ts us : List Token} {a : α} {as : List α} :
      item ts a → Repeated item us as → Repeated item (ts ++ us) (a :: as)

/-- What may stand before an item of a separated list: nothing, or items with a mark after each. -/
def Open (item : List Token → α → Prop) (mark : Token) (ts : List Token) (as : List α) : Prop :=
  (ts = [] ∧ as = []) ∨ ∃ us, Separated item mark us as ∧ ts = us ++ [mark]

variable {item : List Token → α → Prop} {mark : Token} {ts us : List Token} {a : α} {as : List α}

theorem Separated.snoc (h : Separated item mark ts as) (ha : item us a) :
    Separated item mark (ts ++ mark :: us) (as ++ [a]) := by
  induction h with
  | last hb => exact .more hb (.last ha)
  | more hb _ ih =>
    rw [List.append_assoc, List.cons_append, List.cons_append]
    exact .more hb ih

theorem Repeated.snoc (h : Repeated item ts as) (ha : item us a) :
    Repeated item (ts ++ us) (as ++ [a]) := by
  induction h with
  | none => simpa using Repeated.more ha .none
  | more hb _ ih =>
    rw [List.append_assoc, List.cons_append]
    exact .more hb ih

theorem open_nil : Open item mark [] [] := Or.inl ⟨rfl, rfl⟩

/-- A mark opens a list again. -/
theorem Separated.reopen (h : Separated item mark ts as) : Open item mark (ts ++ [mark]) as :=
  Or.inr ⟨ts, h, rfl⟩

/-- An item closes what is open. -/
theorem Open.close (h : Open item mark ts as) (ha : item us a) :
    Separated item mark (ts ++ us) (as ++ [a]) := by
  rcases h with ⟨rfl, rfl⟩ | ⟨vs, hvs, rfl⟩
  · exact .last ha
  · rw [List.append_assoc, List.singleton_append]
    exact hvs.snoc ha

end Repetitions

/-! ### The nonterminals -/

/-- A word by itself. -/
inductive Name : List Token → String → Prop
  /-- Its text. -/
  | word (label : String) : Name [.word label] label

/-- A state, with or without a reward. -/
inductive State : List Token → Declaration → Prop
  /-- No reward. -/
  | plain (label : String) : State [.word label] (.state label none)
  /-- A reward that is not negative. -/
  | reward (label : String) {digits : String} : number digits ≤ 2 ^ 63 - 1 →
      State [.word label, .colon, .digits digits] (.state label (some (number digits)))
  /-- A reward with a sign. -/
  | negative (label : String) {digits : String} : number digits ≤ 2 ^ 63 - 1 →
      State [.word label, .colon, .minus, .digits digits]
        (.state label (some (-(number digits : ℤ))))

/-- A block of actions. -/
inductive Block : List Token → Declaration → Prop
  /-- The names of the actions. -/
  | names {ts : List Token} {labels : List String} : Separated Name .comma ts labels →
      Block (.actions :: ts ++ [.semicolon]) (.actions labels)

/-- A weighted target. -/
inductive Arm : List Token → Branch → Prop
  /-- Its weight and the name of the target. -/
  | weighted {digits : String} {weight : UInt64} (label : String) : number digits ≤ 2 ^ 64 - 1 →
      weight.toNat = number digits → Arm [.digits digits, .colon, .word label] ⟨weight, label⟩

/-- The head of a transition: its source and perhaps an action. -/
inductive Head : List Token → String → Option String → Prop
  /-- No action. -/
  | plain (source : String) : Head [.word source, .arrow] source none
  /-- An action in brackets. -/
  | action (source label : String) :
      Head [.word source, .openBracket, .word label, .closeBracket, .arrow] source (some label)

/-- A transition. -/
inductive Transition : List Token → Declaration → Prop
  /-- The head and the branches. -/
  | branches {hs ts : List Token} {source : String} {action : Option String}
      {branches : List Branch} : Head hs source action → Separated Arm .plus ts branches →
      Transition (hs ++ ts ++ [.semicolon]) (.transition source action branches)

/-- **A description**: its states, its blocks of actions, its transitions and the end of the
text. -/
inductive Description : List Token → List Declaration → Prop
  /-- The three parts. -/
  | parts {ts us vs : List Token} {states blocks rows : List Declaration} :
      Separated State .comma ts states → Repeated Block us blocks → Repeated Transition vs rows →
      Description (.states :: ts ++ .semicolon :: (us ++ vs ++ [.eof])) (states ++ blocks ++ rows)

end Grammar

end MarkovDecision
