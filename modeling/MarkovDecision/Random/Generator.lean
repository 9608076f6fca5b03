import MarkovDecision.Numeric.Replace
import MarkovDecision.Random.Source

/-!
# Sources of random words

Three sources. `Mixer` adds an odd constant to a 64-bit counter and scrambles the
sum. `Cycle` repeats a list of words, which makes a run reproducible word by word.
`Keystream` is the stream of a cipher: a block of sixteen words is stirred twelve
times under a 256-bit key and a block counter, and its words are handed out in
order. A short word is one word of the stream, a long one is two with the low half
first, also across the end of a block. The key is spread out from a seed of 64
bits by a linear congruence whose state is permuted before use.
-/

namespace MarkovDecision

/-! ### A scrambled counter -/

/-- A counter in steps of an odd constant. -/
structure Mixer where
  /-- The sum so far. -/
  state : UInt64

namespace Mixer

/-- The scrambling of a sum. -/
def mix (z : UInt64) : UInt64 :=
  let z := (z ^^^ (z >>> 30)) * 0xBF58476D1CE4E5B9
  let z := (z ^^^ (z >>> 27)) * 0x94D049BB133111EB
  z ^^^ (z >>> 31)

/-- The next word. -/
def next (g : Mixer) : UInt64 × Mixer :=
  let state := g.state + 0x9E3779B97F4A7C15
  (mix state, ⟨state⟩)

instance source : WordSource Mixer where
  next64 := next
  next32 g := let (word, g) := g.next; (word.toUInt32, g)

end Mixer

/-! ### A repeated list -/

/-- A list of words to be repeated, and what is left of the present round. -/
structure Cycle where
  /-- The words of a round. -/
  words : List UInt64
  /-- The words of this round not yet drawn. -/
  left : List UInt64

namespace Cycle

/-- The cycle at the beginning of its first round. -/
def ofList (words : List UInt64) : Cycle := ⟨words, words⟩

/-- The next word; zero if there are none. -/
def next (g : Cycle) : UInt64 × Cycle :=
  match g.left with
  | word :: left => (word, ⟨g.words, left⟩)
  | [] =>
    match g.words with
    | word :: left => (word, ⟨g.words, left⟩)
    | [] => (0, g)

instance source : WordSource Cycle where
  next64 := next
  next32 g := let (word, g) := g.next; (word.toUInt32, g)

end Cycle

/-! ### A key stream -/

/-- A block of the cipher. -/
abbrev Block := Vector UInt32 16

/-- The stream of a key, from the present block on. -/
structure Keystream where
  /-- The key. -/
  key : Vector UInt32 8
  /-- The number of the next block. -/
  counter : UInt64
  /-- The words of the present block not yet drawn. -/
  left : List UInt32

namespace Keystream

/-- Rotation to the left. -/
def rotate (x : UInt32) (turn : UInt32) : UInt32 := (x <<< turn) ||| (x >>> (32 - turn))

/-- One quarter of a round, on four words of the block. -/
def quarter (x : Block) (a b c d : Fin 16) : Block :=
  let x := replaceAt x a (x.get a + x.get b)
  let x := replaceAt x d (rotate (x.get d ^^^ x.get a) 16)
  let x := replaceAt x c (x.get c + x.get d)
  let x := replaceAt x b (rotate (x.get b ^^^ x.get c) 12)
  let x := replaceAt x a (x.get a + x.get b)
  let x := replaceAt x d (rotate (x.get d ^^^ x.get a) 8)
  let x := replaceAt x c (x.get c + x.get d)
  replaceAt x b (rotate (x.get b ^^^ x.get c) 7)

/-- A round down the columns of the block and a round down its diagonals. -/
def doubleRound (x : Block) : Block :=
  let x := quarter x 0 4 8 12
  let x := quarter x 1 5 9 13
  let x := quarter x 2 6 10 14
  let x := quarter x 3 7 11 15
  let x := quarter x 0 5 10 15
  let x := quarter x 1 6 11 12
  let x := quarter x 2 7 8 13
  quarter x 3 4 9 14

/-- The block before it is stirred: four constants, the key, the number, and two zeros. -/
def fresh (key : Vector UInt32 8) (counter : UInt64) : Block :=
  #v[0x61707865, 0x3320646e, 0x79622d32, 0x6b206574,
    key[0], key[1], key[2], key[3], key[4], key[5], key[6], key[7],
    counter.toUInt32, (counter >>> 32).toUInt32, 0, 0]

/-- The stirred block with the given number: six double rounds, added to what was stirred. -/
def block (key : Vector UInt32 8) (counter : UInt64) : Block :=
  let start := fresh key counter
  Vector.zipWith (· + ·) (Nat.repeat doubleRound 6 start) start

/-- The next short word. -/
def next (g : Keystream) : UInt32 × Keystream :=
  match g.left with
  | word :: left => (word, { g with left })
  | [] =>
    let words := block g.key g.counter
    (words[0], ⟨g.key, g.counter + 1, words.toList.tail⟩)

/-- The next long word, its low half first. -/
def nextPair (g : Keystream) : UInt64 × Keystream :=
  let (low, g) := g.next
  let (high, g) := g.next
  (low.toUInt64 ||| (high.toUInt64 <<< 32), g)

instance source : WordSource Keystream where
  next64 := nextPair
  next32 := next

/-- One step of the linear congruence behind a key. -/
def congruence (s : UInt64) : UInt64 := s * 6364136223846793005 + 11634580027462260723

/-- The key word of a state of the congruence: some of its bits, rotated to the right by others. -/
def keyWord (s : UInt64) : UInt32 :=
  let folded := (((s >>> 18) ^^^ s) >>> 27).toUInt32
  let turn := (s >>> 59).toUInt32
  (folded >>> turn) ||| (folded <<< ((32 - turn) % 32))

/-- **The stream of a seed.** -/
def ofSeed (seed : UInt64) : Keystream where
  key := Vector.ofFn fun i => keyWord (Nat.repeat congruence (i + 1) seed)
  counter := 0
  left := []

end Keystream

/-! ### Any of the three -/

/-- A source of one of the kinds above. -/
inductive Generator where
  /-- A scrambled counter. -/
  | mixer (g : Mixer)
  /-- A repeated list. -/
  | cycle (g : Cycle)
  /-- A key stream. -/
  | keystream (g : Keystream)

instance Generator.source : WordSource Generator where
  next64
    | .mixer g => let (word, g) := WordSource.next64 g; (word, .mixer g)
    | .cycle g => let (word, g) := WordSource.next64 g; (word, .cycle g)
    | .keystream g => let (word, g) := WordSource.next64 g; (word, .keystream g)
  next32
    | .mixer g => let (word, g) := WordSource.next32 g; (word, .mixer g)
    | .cycle g => let (word, g) := WordSource.next32 g; (word, .cycle g)
    | .keystream g => let (word, g) := WordSource.next32 g; (word, .keystream g)

end MarkovDecision
