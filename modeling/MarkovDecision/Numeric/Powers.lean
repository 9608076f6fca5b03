/-!
# Powers of two and of ten

Binary words and decimal digits are counted by powers of two bases only, and they
get names of their own: the words of `n` bits are the numbers below `pow2 n`, and
moving a decimal point by `n` places is a factor `pow10 n`.
-/

namespace MarkovDecision

/-- A power of two. -/
def pow2 (n : Nat) : Nat := Nat.pow 2 n

/-- A power of ten. -/
def pow10 (n : Nat) : Nat := Nat.pow 10 n

end MarkovDecision
