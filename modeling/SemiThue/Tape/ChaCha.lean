import SemiThue.Tape

/-!
# SemiThue.Tape.ChaCha — the tape of a seed

A seed is expanded to a key of eight words, and the tape consists of the blocks that the ChaCha
cipher with twelve rounds makes from this key and the numbers 0, 1, 2, … of the blocks.
-/

namespace SemiThue
namespace ChaCha

/-- The sixteen words that the cipher works on. -/
abbrev Block := Vector UInt32 16

/-- Rotates the bits of a word to the left, by one place at least. -/
def rotateLeft (x k : UInt32) : UInt32 := (x <<< k) ||| (x >>> (32 - k))

def quarterRound (s : Block) (a b c d : Fin 16) : Block :=
  let s := s.set a (s[a] + s[b])
  let s := s.set d (rotateLeft (s[d] ^^^ s[a]) 16)
  let s := s.set c (s[c] + s[d])
  let s := s.set b (rotateLeft (s[b] ^^^ s[c]) 12)
  let s := s.set a (s[a] + s[b])
  let s := s.set d (rotateLeft (s[d] ^^^ s[a]) 8)
  let s := s.set c (s[c] + s[d])
  s.set b (rotateLeft (s[b] ^^^ s[c]) 7)

/-- Mixes the four columns, then the four diagonals. -/
def doubleRound (s : Block) : Block :=
  let s := quarterRound s 0 4 8 12
  let s := quarterRound s 1 5 9 13
  let s := quarterRound s 2 6 10 14
  let s := quarterRound s 3 7 11 15
  let s := quarterRound s 0 5 10 15
  let s := quarterRound s 1 6 11 12
  let s := quarterRound s 2 7 8 13
  quarterRound s 3 4 9 14

/-- The cipher's constants, the key, the number of the block and an empty nonce. -/
def initial (key : Vector UInt32 8) (number : UInt64) : Block :=
  #v[0x61707865, 0x3320646e, 0x79622d32, 0x6b206574,
    key[0], key[1], key[2], key[3], key[4], key[5], key[6], key[7],
    number.toUInt32, (number >>> 32).toUInt32, 0, 0]

/-- The block with the given number: twelve rounds on the initial words, which are then
added again. -/
def block (key : Vector UInt32 8) (number : UInt64) : Block :=
  let start := initial key number
  let mixed := Nat.repeat doubleRound 6 start
  Vector.zipWith (· + ·) mixed start

/-- One step of the congruential generator that expands a seed. -/
def expandStep (s : UInt64) : UInt64 := s * 6364136223846793005 + 11634580027462260723

/-- The key word for a state of the generator: its upper bits, rotated to the right by its uppermost
five. -/
def expandWord (s : UInt64) : UInt32 :=
  let x := (((s >>> 18) ^^^ s) >>> 27).toUInt32
  let k := (s >>> 59).toUInt32
  (x >>> k) ||| (x <<< (32 - k))

def key (seed : UInt64) : Vector UInt32 8 :=
  Vector.ofFn fun i => expandWord (Nat.repeat expandStep (i + 1) seed)

end ChaCha

/-- The tape of a seed: `2 ^ 64` blocks of sixteen words. -/
def Tape.ofSeed (seed : UInt64) : Tape :=
  let key := ChaCha.key seed
  { size := 16 * UInt64.size
    cell := fun i => (ChaCha.block key (i / 16).toUInt64).toArray.getD (i % 16) 0 }

end SemiThue
