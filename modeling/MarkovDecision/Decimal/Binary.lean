import MarkovDecision.Numeric.Powers

/-!
# What a double stands for

Printing never asks the arithmetic for digits. A double is taken apart, once, into
a sign, a natural number and a power of two, and from there on everything is
exact integer arithmetic.

The interval that matters for printing is also a matter of the parts: the reals
that round to a given double reach half-way to its neighbours, and the lower
neighbour is only half as far away when the significand is a power of two
(`Binary.atBoundary`).
-/

namespace MarkovDecision

/-- The parts of a double. -/
inductive Binary where
  /-- Not a number. -/
  | nan
  /-- An infinity, negative or not. -/
  | infinite (negative : Bool)
  /-- The number `significand · 2 ^ exponent`, negative or not. -/
  | finite (negative : Bool) (significand : Nat) (exponent : Int)
  deriving DecidableEq

namespace Binary

/-- Takes a double apart. -/
def ofFloat (x : Float) : Binary :=
  let bits := x.toBits.toNat
  let negative := bits / pow2 63 == 1
  let biased : Nat := bits / pow2 52 % pow2 11
  let fraction : Nat := bits % pow2 52
  if biased == 2047 then
    if fraction == 0 then .infinite negative else .nan
  else if biased == 0 then .finite negative fraction (-1074)
  else .finite negative (pow2 52 + fraction) ((biased : Int) - 1075)

/-- Whether the neighbour below is nearer than the one above: the significand is the least one of
its exponent, and the exponent is not the least of all. -/
def atBoundary (significand : Nat) (exponent : Int) : Bool :=
  significand == pow2 52 && exponent > -1074

end Binary

end MarkovDecision
