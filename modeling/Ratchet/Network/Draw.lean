/-!
# Random draws

All chance is decided by a stream of 64-bit words.  A seed fixes such a stream: eight key words
are derived from it, and the stream is the output of the ChaCha cipher with twelve rounds under
that key, block after block.

An index below a bound is drawn by multiplying a word by the bound and keeping the upper half of
the product; words for which that would favour some indices are passed over.

## Main definitions

* `Draw.ofSeed`: the stream of a seed.
* `Draw.below`: an index below a bound.
-/

namespace Ratchet.Draw

/-! ## The stream of a seed -/

/-- The next state of the generator of key words. -/
def nextKeyState (state : UInt64) : UInt64 :=
  state * 6364136223846793005 + 11634580027462260723

/-- Rotates a word to the right. -/
def rotateRight (x n : UInt32) : UInt32 := (x >>> n) ||| (x <<< (32 - n))

/-- Rotates a word to the left. -/
def rotateLeft (x n : UInt32) : UInt32 := (x <<< n) ||| (x >>> (32 - n))

/-- The key word that a state yields. -/
def keyWord (state : UInt64) : UInt32 :=
  rotateRight (((state >>> 18) ^^^ state) >>> 27).toUInt32 (state >>> 59).toUInt32

/-- The key words that follow a state. -/
def keyWords : Nat → UInt64 → List UInt32
  | 0, _ => []
  | n + 1, state => keyWord (nextKeyState state) :: keyWords n (nextKeyState state)

/-- The sixteen words that the cipher works on. -/
abbrev Block := Vector UInt32 16

/-- Mixes four words of a block. -/
def quarterRound (a b c d : Fin 16) (v : Block) : Block :=
  let v := v.set a (v[a] + v[b])
  let v := v.set d (rotateLeft (v[d] ^^^ v[a]) 16)
  let v := v.set c (v[c] + v[d])
  let v := v.set b (rotateLeft (v[b] ^^^ v[c]) 12)
  let v := v.set a (v[a] + v[b])
  let v := v.set d (rotateLeft (v[d] ^^^ v[a]) 8)
  let v := v.set c (v[c] + v[d])
  v.set b (rotateLeft (v[b] ^^^ v[c]) 7)

/-- Mixes the columns and then the diagonals of a block. -/
def doubleRound (v : Block) : Block :=
  let v := quarterRound 0 4 8 12 v
  let v := quarterRound 1 5 9 13 v
  let v := quarterRound 2 6 10 14 v
  let v := quarterRound 3 7 11 15 v
  let v := quarterRound 0 5 10 15 v
  let v := quarterRound 1 6 11 12 v
  let v := quarterRound 2 7 8 13 v
  quarterRound 3 4 9 14 v

/-- The block that the cipher starts from: four constants, the key, and the number of the block
with its low word first. -/
def startBlock (seed : UInt64) (index : Nat) : Block :=
  let words : List UInt32 := [0x61707865, 0x3320646e, 0x79622d32, 0x6b206574] ++
    keyWords 8 seed ++ [UInt32.ofNat index, UInt32.ofNat (index / UInt32.size), 0, 0]
  Vector.ofFn fun i => words.getD i 0

/-- A block of the stream: six double rounds, and the starting block added to the result. -/
def streamBlock (seed : UInt64) (index : Nat) : Block :=
  let start := startBlock seed index
  let mixed := (List.range 6).foldl (fun v _ => doubleRound v) start
  Vector.ofFn fun i => mixed[i] + start[i]

/-- The stream of a seed: two words of a block make one draw, the low word first. -/
def ofSeed (seed : UInt64) (n : Nat) : UInt64 :=
  let block := streamBlock seed (n / 8)
  let low := block.toList.getD (2 * (n % 8)) 0
  let high := block.toList.getD (2 * (n % 8) + 1) 0
  low.toUInt64 ||| (high.toUInt64 <<< 32)

/-! ## Indices -/

/-- The greatest lower half of a product that is accepted when an index below `n` is drawn. -/
def zone (n : Nat) : Nat := n <<< (63 - n.log2) - 1

/-- Draws an index below `n`, beginning with the draw number `start` and passing over at most
`patience` words.  The second component is the number of the next unused draw. -/
def indexFrom (draws : Nat → UInt64) (n : Nat) : Nat → Nat → Nat × Nat
  | 0, start => (0, start)
  | patience + 1, start =>
    let product := (draws start).toNat * n
    if product % UInt64.size ≤ zone n then (product / UInt64.size, start + 1)
    else indexFrom draws n patience (start + 1)

/-- Draws an index below `n`.  A word is passed over with a probability of less than one half, so
a thousand words in a row never are. -/
def below (draws : Nat → UInt64) (n start : Nat) : Nat × Nat :=
  indexFrom draws n 1000 start

/-- An index that is drawn below a positive bound is below it. -/
theorem below_lt {draws : Nat → UInt64} {n start : Nat} (h : 0 < n) :
    (below draws n start).1 < n := by
  unfold below
  generalize 1000 = patience
  induction patience generalizing start with
  | zero => exact h
  | succ patience ih =>
      simp only [indexFrom]
      split
      · have hword : (draws start).toNat < UInt64.size := (draws start).toNat_lt
        exact Nat.div_lt_of_lt_mul (Nat.mul_lt_mul_of_pos_right hword h)
      · exact ih

end Ratchet.Draw
