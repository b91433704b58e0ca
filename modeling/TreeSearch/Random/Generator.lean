/-!
# A reproducible source of random words

A seed of 64 bits fixes a key of eight words, and the key fixes an endless stream of 32-bit words: the ChaCha blocks
of twelve rounds with block counters `0, 1, 2, …`, sixteen words each, in their order.

* `Generator.ofSeed` makes the generator of a seed, and `Generator.next` takes one word from it.
-/

namespace TreeSearch.Random

def rotateLeft (x n : UInt32) : UInt32 := (x <<< n) ||| (x >>> (32 - n))

/-! ### The key of a seed -/

/-- One step of the linear congruence that spreads a seed over a key. -/
def advance (s : UInt64) : UInt64 := s * 6364136223846793005 + 11634580027462260723

/-- The word read off a state: shifted, folded, and rotated right by its five high bits. -/
def output (s : UInt64) : UInt32 :=
  let folded : UInt32 := (((s >>> 18) ^^^ s) >>> 27).toUInt32
  let turn : UInt32 := (s >>> 59).toUInt32
  rotateLeft folded (32 - turn)

/-- The next `n` words after the state `s`. -/
def keyWords : Nat → UInt64 → List UInt32
  | 0, _ => []
  | n + 1, s => output (advance s) :: keyWords n (advance s)

/-! ### ChaCha blocks -/

abbrev Block := Vector UInt32 16

def quarterRound (a b c d : Fin 16) (s : Block) : Block :=
  let s := s.set a (s[a] + s[b])
  let s := s.set d (rotateLeft (s[d] ^^^ s[a]) 16)
  let s := s.set c (s[c] + s[d])
  let s := s.set b (rotateLeft (s[b] ^^^ s[c]) 12)
  let s := s.set a (s[a] + s[b])
  let s := s.set d (rotateLeft (s[d] ^^^ s[a]) 8)
  let s := s.set c (s[c] + s[d])
  s.set b (rotateLeft (s[b] ^^^ s[c]) 7)

/-- One round on the columns and one on the diagonals. -/
def doubleRound (s : Block) : Block :=
  let s := quarterRound 0 4 8 12 s
  let s := quarterRound 1 5 9 13 s
  let s := quarterRound 2 6 10 14 s
  let s := quarterRound 3 7 11 15 s
  let s := quarterRound 0 5 10 15 s
  let s := quarterRound 1 6 11 12 s
  let s := quarterRound 2 7 8 13 s
  quarterRound 3 4 9 14 s

/-- The four words at the head of every block. -/
def constants : List UInt32 := [0x61707865, 0x3320646e, 0x79622d32, 0x6b206574]

/-- The block number in two words, the low one first, and two zeros. -/
def counterWords (n : Nat) : List UInt32 := [UInt32.ofNat n, UInt32.ofNat (n >>> 32), 0, 0]

/-- The input of block number `n`: the constants, the key, and the block number. -/
def inputWords (key : List UInt32) (n : Nat) : Block :=
  let words := constants ++ key ++ counterWords n
  Vector.ofFn fun i => words.getD i 0

/-- The sixteen words of block number `n`. -/
def blockWords (key : List UInt32) (n : Nat) : List UInt32 :=
  let input := inputWords key n
  (Vector.zipWith (· + ·) (Nat.repeat doubleRound 6 input) input).toList

/-! ### The stream -/

/-- A key, the number of the next block, and the words left of the last one. -/
structure Generator where
  key : List UInt32
  block : Nat := 0
  pending : List UInt32 := []
  deriving DecidableEq, Repr

def Generator.ofSeed (seed : UInt64) : Generator := { key := keyWords 8 seed }

/-- The next word of the stream. -/
def Generator.next (g : Generator) : UInt32 × Generator :=
  match g.pending with
  | w :: rest => (w, { g with pending := rest })
  | [] =>
    let words := blockWords g.key g.block
    (words.headD 0, { g with block := g.block + 1, pending := words.tail })

end TreeSearch.Random
