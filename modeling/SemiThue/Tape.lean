/-!
# SemiThue.Tape — tapes of random words

All choices of a run are read off a tape of 32-bit words.  Finitely many of its cells are written;
the cells after them are blank and read as zero.  The head never moves back, so its position is the
number of words drawn so far.  A run that ends has drawn finitely many words, and looks at no other
cell, so a source of words that never ends is the tape of the words that the run draws from it.

A number below `r` is drawn by multiplying a `w`-bit number `x` of the tape by `r`.  The high half
of the product is the answer, and the low half decides whether it is accepted: it has to lie in the
`zone` of the largest `r · 2 ^ k` that still has `w` bits.  A refused number costs its words, and
the next one is tried.

* `accept?` is the answer for one number of the tape.
* `below` repeats it.  It ends for every tape, because zero is always accepted (`accept?_zero`).

A list of `n` items is shuffled by exchanging the item at each place `i = n - 1, …, 1` with the one
at a place `j ≤ i`.  The draws of the places `j` and their effect on the items are two separate
functions:

* `shuffleDraws n` draws the places, the one for `i = n - 1` first, from double words;
* `rearrange` carries out the exchanges.

One of several items is picked by a single draw, also when there is just one item.
-/

namespace SemiThue

/-! ### Tapes -/

/-- A tape of 32-bit words with a head that reads it from left to right. -/
structure Tape where
  size : Nat
  /-- The word in a written cell. -/
  cell : Nat → UInt32
  /-- The cell that is read next, which is also the number of words drawn so far. -/
  head : Nat := 0

namespace Tape

/-- The tape that serves the given words in order, and zeros after them. -/
def ofWords (ws : List UInt32) : Tape := { size := ws.length, cell := fun i => ws.getD i 0 }

def read (t : Tape) : UInt32 := if t.head < t.size then t.cell t.head else 0

/-- The tape with the head one cell further on. -/
def moved (t : Tape) : Tape := { t with head := t.head + 1 }

/-- Beyond the written cells every word is zero. -/
theorem read_eq_zero {t : Tape} (h : t.size ≤ t.head) : t.read = 0 := by
  simp only [read, if_neg (Nat.not_lt.mpr h)]

end Tape

/-! ### Bounded draws -/

/-- How many words make up a number of the tape. -/
inductive Width where
  | single
  | double
  deriving DecidableEq

/-- The number of bits in a number of the tape. -/
def Width.bits : Width → Nat
  | .single => 32
  | .double => 64

/-- How many numbers there are with so many bits. -/
def Width.size : Width → Nat
  | .single => UInt32.size
  | .double => UInt64.size

/-- The numbers from which one of `n` places is drawn: single words, unless there are too many
places for that. -/
def Width.forPlace (n : Nat) : Width := if n < UInt32.size then .single else .double

namespace Tape

/-- Reads a number off the tape.  Of two words, the first is the low half. -/
def draw (t : Tape) : Width → Nat × Tape
  | .single => (t.read.toNat, t.moved)
  | .double => (t.read.toNat + UInt32.size * t.moved.read.toNat, t.moved.moved)

/-- The number of leading zero bits of `r`, written with the given number of bits. -/
def leadingZeros (w : Width) (r : Nat) : Nat := w.bits - (r.log2 + 1)

/-- The largest low half that is accepted for numbers below `r`. -/
def zone (w : Width) (r : Nat) : Nat := (r <<< leadingZeros w r) - 1

/-- The number below `r` that `x` stands for, if `x` is accepted. -/
def accept? (w : Width) (r x : Nat) : Option Nat :=
  if x * r % w.size ≤ zone w r then some (x * r / w.size) else none

theorem accept?_zero (w : Width) (r : Nat) : accept? w r 0 = some 0 := by
  simp [accept?]

/-- A number that is read from blank cells only is zero. -/
theorem draw_eq_zero {t : Tape} (h : t.size ≤ t.head) (w : Width) : (t.draw w).1 = 0 := by
  have h' : t.moved.size ≤ t.moved.head := Nat.le_succ_of_le h
  cases w <;> simp [draw, read_eq_zero h, read_eq_zero h']

/-- A refused number was read from a written cell. -/
theorem head_lt_size_of_accept?_eq_none {t : Tape} {w : Width} {r : Nat}
    (h : accept? w r (t.draw w).1 = none) : t.head < t.size := by
  by_cases hsize : t.head < t.size
  · exact hsize
  · rw [draw_eq_zero (Nat.not_lt.mp hsize), accept?_zero] at h
    simp at h

@[simp]
theorem size_draw (t : Tape) (w : Width) : (t.draw w).2.size = t.size := by
  cases w <;> rfl

theorem head_lt_head_draw (t : Tape) (w : Width) : t.head < (t.draw w).2.head := by
  cases w <;> simp only [draw, moved] <;> omega

/-- Draws a number below `r`, uniformly if the words of the tape are uniform. -/
def below (w : Width) (r : Nat) (t : Tape) : Nat × Tape :=
  match _h : accept? w r (t.draw w).1 with
  | some k => (k, (t.draw w).2)
  | none => below w r (t.draw w).2
termination_by t.size - t.head
decreasing_by
  have := head_lt_size_of_accept?_eq_none _h
  have := head_lt_head_draw t w
  simp only [size_draw]
  omega

end Tape

/-! ### Orders and choices -/

/-- Exchanges the items at the places `draws.length, …, 1` with those at the drawn places, in this
order. -/
def rearrange {α : Type} : List Nat → Array α → Array α
  | [], xs => xs
  | j :: draws, xs => rearrange draws (xs.swapIfInBounds (draws.length + 1) j)

namespace Tape

/-- Draws the places for a shuffle of `n` items: one below `i + 1` for each `i = n - 1, …, 1`. -/
def shuffleDraws : Nat → Tape → List Nat × Tape
  | 0, t => ([], t)
  | 1, t => ([], t)
  | n + 2, t =>
    let (j, t) := t.below .double (n + 2)
    let (draws, t) := shuffleDraws (n + 1) t
    (j :: draws, t)

def shuffle {α : Type} (t : Tape) (xs : List α) : List α × Tape :=
  let (draws, t) := shuffleDraws xs.length t
  ((rearrange draws xs.toArray).toList, t)

/-- Picks one of the items at random.  Where there are none, nothing is drawn. -/
def choose {α : Type} (t : Tape) : List α → Option α × Tape
  | [] => (none, t)
  | x :: xs =>
    let (i, t) := t.below (.forPlace (xs.length + 1)) (xs.length + 1)
    ((x :: xs)[i]?, t)

end Tape

end SemiThue
