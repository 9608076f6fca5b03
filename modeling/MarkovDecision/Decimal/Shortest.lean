import MarkovDecision.Decimal.Binary

/-!
# The shortest decimal of a double

A double is written with the fewest digits that read back to it. The reals that
round to `m · 2 ^ q` form an interval around it, closed when `m` is even and open
when it is odd. For one digit, two digits, and so on, the two neighbours of the
value on the grid of decimals with that many digits are held against the
interval; the first grid with a hit decides the length, and of two hits the nearer
is taken, the upper one in a tie. If any point of a grid lies in the interval then
one of these two neighbours does, so nothing shorter is missed. Seventeen digits
always suffice.

Everything is scaled to integers, so that a test is a comparison of naturals. The
text is positional whatever the size of the number.
-/

namespace MarkovDecision.Decimal

/-- A number written `digits · 10 ^ exponent`. -/
structure Scientific where
  /-- The digits, as a natural number. -/
  digits : Nat
  /-- The place of the last digit. -/
  exponent : Int
  deriving DecidableEq, Repr

/-- A fraction of naturals scaled so that powers of two and ten with either sign become factors:
`scaled m two ten` is the pair of `m · 2 ^ two / 10 ^ ten`. -/
def scaled (m : Nat) (two ten : Int) : Nat × Nat :=
  (m * pow2 two.toNat * pow10 (-ten).toNat, pow2 (-two).toNat * pow10 ten.toNat)

/-- The place of the leading digit of `m · 2 ^ q`: the least `k` such that the value is below
`10 ^ k`, found by trying upwards from a bound below it. -/
def leadingPlace (m : Nat) (q : Int) : Int :=
  let estimate := ((Nat.log2 m : Int) + q) * 30103 / 100000 - 1
  let below (k : Int) : Bool := let (num, den) := scaled m q k; num < den
  if below estimate then estimate
  else if below (estimate + 1) then estimate + 1
  else if below (estimate + 2) then estimate + 2
  else estimate + 3

/-- The best decimal with last digit at `place` among those that read back, if any. -/
def onGrid (m : Nat) (q place : Int) : Option Scientific :=
  -- All quantities are quarters of a unit in the last binary place, over one denominator.
  let (unit, den) := scaled 1 (q - 2) place
  let value := 4 * m * unit
  let low := value - (if Binary.atBoundary m q then 1 else 2) * unit
  let high := value + 2 * unit
  let inside (x : Nat) : Bool :=
    if m % 2 == 0 then low ≤ x && x ≤ high else low < x && x < high
  let lower := value / den
  let upper := lower + 1
  match inside (lower * den), inside (upper * den) with
  | false, false => none
  | true, false => some ⟨lower, place⟩
  | false, true => some ⟨upper, place⟩
  | true, true =>
    if value - lower * den < upper * den - value then some ⟨lower, place⟩ else some ⟨upper, place⟩

/-- The shortest decimal that reads back to `m · 2 ^ q`. -/
def shortest (m : Nat) (q : Int) : Scientific :=
  let k := leadingPlace m q
  ((List.range 17).findSome? fun (d : Nat) => onGrid m q (k - (d + 1))).getD ⟨0, 0⟩

/-- Positional notation: zeros fill the places up to the units, and a point stands before the
first place after them. -/
def Scientific.positional (x : Scientific) : String :=
  if x.exponent ≥ 0 then toString (x.digits * pow10 x.exponent.toNat)
  else
    let places := (-x.exponent).toNat
    let digits := (toString x.digits).toList
    let padded := List.replicate (places + 1 - digits.length) '0' ++ digits
    let whole := padded.take (padded.length - places)
    let fraction := padded.drop (padded.length - places)
    String.ofList (whole ++ '.' :: fraction)

/-- Removes zeros at the end that positional notation does not need. -/
def Scientific.trimmed (x : Scientific) : Nat → Scientific
  | 0 => x
  | fuel + 1 =>
    if x.digits != 0 && x.digits % 10 == 0 then
      Scientific.trimmed ⟨x.digits / 10, x.exponent + 1⟩ fuel
    else x

/-- The text of a sign. -/
def sign (negative : Bool) : String := if negative then "-" else ""

/-- **The text of a double**: the fewest digits that read back, in positional notation, and zero
with its sign. -/
def text (x : Float) : String :=
  match Binary.ofFloat x with
  | .nan => "NaN"
  | .infinite negative => sign negative ++ "inf"
  | .finite negative 0 _ => sign negative ++ "0"
  | .finite negative m q => sign negative ++ ((shortest m q).trimmed 17).positional

end MarkovDecision.Decimal
