import MarkovDecision.Decimal.Shortest

/-!
# Decimals with a fixed number of places

The exact value of a double, rounded to a number of decimal places. A value
half-way between two of them goes to the even neighbour, and a negative value
keeps its sign even where it rounds to zero.
-/

namespace MarkovDecision.Decimal

/-- The natural number nearest to a quotient, the even one half-way between two. -/
def roundDiv (num den : Nat) : Nat :=
  let quotient := num / den
  let rest := 2 * (num % den)
  if rest > den || (rest == den && quotient % 2 == 1) then quotient + 1 else quotient

/-- The text of a double with the given number of decimal places. -/
def fixed (places : Nat) (x : Float) : String :=
  match Binary.ofFloat x with
  | .nan => "NaN"
  | .infinite negative => sign negative ++ "inf"
  | .finite negative m q =>
    let (num, den) := scaled m q (-places)
    let rounded : Scientific := ⟨roundDiv num den, -places⟩
    sign negative ++ rounded.positional

/-- Probabilities and values are reported with six places. -/
def reported (x : Float) : String := fixed 6 x

end MarkovDecision.Decimal
