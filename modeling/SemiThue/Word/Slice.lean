import SemiThue.Word

/-!
# SemiThue.Word.Slice — cutting words apart

* `Word.cut?` cuts a word at a byte offset.  There is no cut beyond the end of the word or inside a
  character (`cut?_eq_some_iff`).
* `Word.splice?` exchanges the part of a word between two offsets for another word, after it has
  worked out how many bytes the result has (`room?`).
* `Word.splitAtFirst?` splits a word around the first occurrence of a separator, and `Word.fields`
  splits it around every occurrence of a character.
-/

namespace SemiThue
namespace Word

/-! ### Cuts at a byte offset -/

/-- Cuts a word after its first `n` bytes, which have to be whole characters. -/
def cut? : Nat → Word → Option (Word × Word)
  | 0, w => some ([], w)
  | _ + 1, [] => none
  | n + 1, c :: w =>
    if c.utf8Size ≤ n + 1 then (cut? (n + 1 - c.utf8Size) w).map fun (u, v) => (c :: u, v) else none

/-- A cut at `n` is the one way to write the word as `u ++ v` with `n` bytes in `u`. -/
theorem cut?_eq_some_iff {n : Nat} {w u v : Word} :
    cut? n w = some (u, v) ↔ w = u ++ v ∧ byteLength u = n := by
  have hzero (w u v : Word) : cut? 0 w = some (u, v) ↔ w = u ++ v ∧ byteLength u = 0 := by
    rw [byteLength_eq_zero_iff]
    constructor
    · intro h
      cases w <;> cases h <;> exact ⟨rfl, rfl⟩
    · rintro ⟨rfl, rfl⟩
      cases v <;> rfl
  induction w generalizing n u v with
  | nil =>
    cases n with
    | zero => exact hzero [] u v
    | succ n => cases u <;> simp [cut?]
  | cons c w ih =>
    cases n with
    | zero => exact hzero (c :: w) u v
    | succ n =>
      have hpos := c.utf8Size_pos
      rw [cut?]
      split
      · rw [Option.map_eq_some_iff]
        constructor
        · rintro ⟨⟨u', v'⟩, h, heq⟩
          obtain ⟨rfl, rfl⟩ := Prod.mk.inj heq
          obtain ⟨rfl, hu⟩ := ih.mp h
          exact ⟨rfl, by rw [byteLength_cons]; omega⟩
        · rintro ⟨hw, hu⟩
          cases u with
          | nil => simp at hu
          | cons d u =>
            obtain ⟨rfl, rfl⟩ := List.cons_eq_cons.mp hw
            rw [byteLength_cons] at hu
            exact ⟨(u, v), ih.mpr ⟨rfl, by omega⟩, rfl⟩
      · rename_i hlong
        constructor
        · intro h
          cases h
        · rintro ⟨hw, hu⟩
          cases u with
          | nil => simp at hu
          | cons d u =>
            obtain ⟨rfl, rfl⟩ := List.cons_eq_cons.mp hw
            rw [byteLength_cons] at hu
            exact absurd (by omega) hlong

@[simp]
theorem cut?_append (u v : Word) : cut? (byteLength u) (u ++ v) = some (u, v) :=
  cut?_eq_some_iff.mpr ⟨rfl, rfl⟩

/-! ### Splicing -/

/-- The bytes to set aside for a word of `total` bytes in which `added` bytes take the place of
`replaced` ones.  There is no answer where more bytes would be replaced than there are. -/
def room? (total replaced added : Nat) : Option Nat :=
  if replaced ≤ total then some (total - replaced + added) else none

/-- The word before offset `start`, then `output`, then the word from offset `stop` on.  Both
offsets have to be cuts of `w`; where `stop` comes before `start`, the part between them is kept
twice. -/
def splice? (w : Word) (start stop : Nat) (output : Word) : Option Word := do
  let _ ← room? w.byteLength (stop - start) output.byteLength
  let (u, _) ← cut? start w
  let (_, v) ← cut? stop w
  return u ++ output ++ v

/-- What takes the place of an infix makes the word longer or shorter by the difference. -/
theorem room?_infix (u p v output : Word) :
    room? (byteLength (u ++ p ++ v)) (byteLength p) (byteLength output) =
      some (byteLength (u ++ output ++ v)) := by
  simp only [room?, byteLength_append]
  rw [if_pos (by omega)]
  congr 1
  omega

/-- Splicing over an infix exchanges that infix. -/
theorem splice?_infix (u p v output : Word) :
    splice? (u ++ p ++ v) (byteLength u) (byteLength u + byteLength p) output =
      some (u ++ output ++ v) := by
  have h₁ : cut? (byteLength u) (u ++ p ++ v) = some (u, p ++ v) := by
    rw [List.append_assoc, cut?_append]
  have h₂ : cut? (byteLength u + byteLength p) (u ++ p ++ v) = some (u ++ p, v) := by
    rw [← byteLength_append, cut?_append]
  simp only [splice?, Nat.add_sub_cancel_left, room?_infix, h₁, h₂, Option.bind_eq_bind,
    Option.bind_some, Option.pure_def]

/-! ### Splitting at a separator -/

/-- The parts of a word before and after the first occurrence of `sep`. -/
def splitAtFirst? (w sep : Word) : Option (Word × Word) :=
  match w with
  | [] => if sep.isEmpty then some ([], []) else none
  | c :: w =>
    if sep.isPrefixOf (c :: w) then some ([], (c :: w).drop sep.length)
    else (splitAtFirst? w sep).map fun (u, v) => (c :: u, v)

/-- The parts of a word between the occurrences of `sep`, of which there is one more than
occurrences. -/
def fields (sep : Char) : Word → List Word
  | [] => [[]]
  | c :: w =>
    if c = sep then [] :: fields sep w
    else
      match fields sep w with
      | [] => [[c]]
      | f :: fs => (c :: f) :: fs

end Word
end SemiThue
