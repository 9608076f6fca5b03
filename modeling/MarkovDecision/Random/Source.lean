import MarkovDecision.Numeric.Powers
import MarkovDecision.Scalar

/-!
# Drawing at random

Two draws are made by whatever has to do with chance: a point of the unit interval,
and a number below a bound. A *source* of randomness is a state that offers the two
and goes on to a new state with each of them. Nothing else is known of it, so a
statement about every source is a statement about every stream of draws.

The sources that are there yield words of 64 or of 32 bits, and make the draws out
of these. A unit draw takes the upper 53 bits of a long word for a fraction, one of
the `2 ^ 53` equally spaced points of the half-open unit interval. A draw below `n`
scales a short word to `n` and looks at a second one only where the first leaves the
result in doubt, which is how the values come out evenly without a loop.
-/

namespace MarkovDecision

/-- A state from which draws are made. -/
class RandomSource (G : Type) where
  /-- The next point of the unit interval. -/
  unit : {K : Type} → [Scalar K] → G → K × G
  /-- The next number below a bound. -/
  below : Nat → G → Nat × G

/-- Programs that can draw at random. -/
class RandomMonad (M : Type → Type) where
  /-- Draws a point of the unit interval. -/
  drawUnit : {K : Type} → [Scalar K] → M K
  /-- Draws a number below a bound. -/
  drawBelow : Nat → M Nat

export RandomMonad (drawUnit drawBelow)

section Programs

variable {M : Type → Type} [Monad M]

/-- A source kept as the state of a program. -/
instance RandomMonad.ofSource {G : Type} [RandomSource G] : RandomMonad (StateT G M) where
  drawUnit := fun g => pure (RandomSource.unit g)
  drawBelow := fun n g => pure (RandomSource.below n g)

/-- Further state does not stand in the way of a draw. -/
instance RandomMonad.lifted {σ : Type} [RandomMonad M] : RandomMonad (StateT σ M) where
  drawUnit := fun s => do return (← drawUnit, s)
  drawBelow := fun n s => do return (← drawBelow n, s)

end Programs

/-! ### Words -/

/-- A state that yields random words. -/
class WordSource (G : Type) where
  /-- The next word of 64 bits. -/
  next64 : G → UInt64 × G
  /-- The next word of 32 bits. -/
  next32 : G → UInt32 × G

section Words

variable {G : Type} [WordSource G] {M : Type → Type} [Monad M]

/-- The next word of 64 bits. -/
def word64 : StateT G M UInt64 := fun g => pure (WordSource.next64 g)

/-- The next word of 32 bits. -/
def word32 : StateT G M UInt32 := fun g => pure (WordSource.next32 g)

/-- The fraction that a word of 64 bits denotes. -/
def unitOf {K : Type} [Scalar K] (word : UInt64) : K :=
  (((word >>> 11).toNat : Nat) : K) / ((pow2 53 : Nat) : K)

/-- A number below `n`, for `n` of at most 32 bits. -/
def scaleWord (n : Nat) : StateM G Nat := do
  let product := (← word32).toNat * n
  let high := product / pow2 32
  let low := product % pow2 32
  if low > pow2 32 - n then
    let carry := (← word32).toNat * n / pow2 32
    return if low + carry ≥ pow2 32 then high + 1 else high
  else
    return high

/-- The draws that words are good for. -/
instance RandomSource.ofWords : RandomSource G where
  unit := fun g => let (word, g) := WordSource.next64 g; (unitOf word, g)
  below := fun n g => scaleWord n g

end Words

end MarkovDecision
