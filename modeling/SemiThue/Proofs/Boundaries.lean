import Mathlib
import SemiThue.Proofs.Encoding
import SemiThue.Proofs.Occurrences

/-!
# SemiThue.Proofs.Boundaries — characters among the bytes of a word

The bytes of a word show where its characters stand.

* `isSome_cut?_iff`: a word can be cut where a character begins, and at its end.
* `isSome_splice?_iff`: part of a word can be exchanged if both its ends are such places.
* `occurrences_eq_byte_matches`: occurrences are sought at characters only, and yet every place is
  found where the bytes match.
-/

namespace SemiThue
namespace Word

/-! ### Boundaries -/

/-- The offset `i` is the end of the word, or a character begins there. -/
def IsBoundary (w : Word) (i : Nat) : Prop :=
  i = byteLength w ∨ ∃ b, (bytes w)[i]? = some b ∧ b.IsUTF8FirstByte

/-- **A word can be cut at its boundaries**, and nowhere else. -/
theorem isSome_cut?_iff {w : Word} {i : Nat} : (cut? i w).isSome ↔ w.IsBoundary i := by
  constructor
  · intro h
    obtain ⟨⟨u, v⟩, hcut⟩ := Option.isSome_iff_exists.mp h
    obtain ⟨rfl, rfl⟩ := cut?_eq_some_iff.mp hcut
    by_cases hv : v = []
    · exact .inl (by simp [hv])
    · obtain ⟨b, bs, hbytes, hb⟩ := exists_bytes_eq_cons hv
      refine .inr ⟨b, ?_, hb⟩
      rw [bytes_append, List.getElem?_append_right (by simp), hbytes]
      simp
  · rintro (rfl | ⟨b, hget, hb⟩)
    · have hcut := cut?_append w []
      rw [List.append_nil] at hcut
      rw [hcut, Option.isSome_some]
    · obtain ⟨hi, hget⟩ := List.getElem?_eq_some_iff.mp hget
      have hsplit : bytes w = (bytes w).take i ++ b :: (bytes w).drop (i + 1) := by
        rw [← hget, List.getElem_cons_drop, List.take_append_drop]
      obtain ⟨u, v, rfl, hu⟩ := exists_append_of_isUTF8FirstByte hsplit hb
      have hlen : byteLength u = i := by
        rw [← length_bytes, hu, List.length_take]
        omega
      rw [← hlen, cut?_append, Option.isSome_some]

theorem isBoundary_append (u v : Word) : (u ++ v).IsBoundary (byteLength u) := by
  rw [← isSome_cut?_iff, cut?_append, Option.isSome_some]

theorem IsBoundary.le_byteLength {w : Word} {i : Nat} (h : w.IsBoundary i) : i ≤ byteLength w := by
  obtain ⟨⟨u, v⟩, hcut⟩ := Option.isSome_iff_exists.mp (isSome_cut?_iff.mpr h)
  obtain ⟨rfl, rfl⟩ := cut?_eq_some_iff.mp hcut
  simp

/-- Splicing fails exactly if one of the two offsets is no boundary.  Between two boundaries there
are never more bytes than the word has, so the room for the result is no reason to fail. -/
theorem isSome_splice?_iff {w : Word} {start stop : Nat} {output : Word} :
    (splice? w start stop output).isSome ↔ w.IsBoundary start ∧ w.IsBoundary stop := by
  rw [← isSome_cut?_iff, ← isSome_cut?_iff]
  constructor
  · intro h
    unfold splice? at h
    cases hroom : room? w.byteLength (stop - start) output.byteLength with
    | none => simp [hroom] at h
    | some n =>
      cases hstart : cut? start w <;> cases hstop : cut? stop w <;> simp_all
  · rintro ⟨hstart, hstop⟩
    have hle := (isSome_cut?_iff.mp hstop).le_byteLength
    have hroom : room? w.byteLength (stop - start) output.byteLength = some _ :=
      if_pos (by omega)
    obtain ⟨uv, huv⟩ := Option.isSome_iff_exists.mp hstart
    obtain ⟨uv', huv'⟩ := Option.isSome_iff_exists.mp hstop
    simp [splice?, hroom, huv, huv']

/-! ### Occurrences -/

theorem mem_occurrences_iff_bytes {state pattern : Word} (hp : pattern ≠ []) {i : Nat} :
    i ∈ occurrences state pattern ↔
      i + byteLength pattern ≤ byteLength state ∧
        ((bytes state).drop i).take (byteLength pattern) = bytes pattern := by
  rw [mem_occurrences_iff hp]
  constructor
  · rintro ⟨u, v, rfl, rfl⟩
    refine ⟨by simp only [byteLength_append]; omega, ?_⟩
    rw [List.append_assoc, bytes_append, bytes_append,
      List.drop_left' (length_bytes u), List.take_left' (length_bytes pattern)]
  · rintro ⟨hle, hmatch⟩
    have hsplit : bytes state = (bytes state).take i ++ bytes pattern ++
        ((bytes state).drop i).drop (byteLength pattern) := by
      rw [← hmatch, List.append_assoc, List.take_append_drop, List.take_append_drop]
    obtain ⟨u, v, hs, hu, -⟩ := exists_append_of_bytes_eq hp hsplit
    refine ⟨u, v, hs, ?_⟩
    rw [← length_bytes u, hu, List.length_take, length_bytes]
    omega

/-- Both ends of an occurrence are boundaries. -/
theorem isBoundary_of_mem_occurrences {state pattern : Word} (hp : pattern ≠ []) {i : Nat}
    (h : i ∈ occurrences state pattern) :
    state.IsBoundary i ∧ state.IsBoundary (i + byteLength pattern) := by
  obtain ⟨u, v, rfl, rfl⟩ := (mem_occurrences_iff hp).mp h
  constructor
  · rw [List.append_assoc]
    exact isBoundary_append u (pattern ++ v)
  · rw [← byteLength_append]
    exact isBoundary_append (u ++ pattern) v

/-- **Every match is found.**  The occurrences of a pattern that is not empty are, in increasing
order, all offsets at which the bytes of the pattern stand among the bytes of the state.  Both ends
of an occurrence are boundaries, so the state can be cut there, and the occurrence can be
exchanged. -/
theorem occurrences_eq_byte_matches (state pattern : Word) (hp : pattern ≠ []) :
    (occurrences state pattern).Pairwise (· < ·) ∧
    (∀ i, i ∈ occurrences state pattern ↔
      i + byteLength pattern ≤ byteLength state ∧
        ((bytes state).drop i).take (byteLength pattern) = bytes pattern) ∧
    ∀ i ∈ occurrences state pattern,
      let stop := i + byteLength pattern
      state.IsBoundary i ∧ state.IsBoundary stop ∧
        (cut? i state).isSome ∧ (cut? stop state).isSome ∧
        ∀ output, (splice? state i stop output).isSome := by
  refine ⟨pairwise_occurrences state pattern, fun i => mem_occurrences_iff_bytes hp, ?_⟩
  intro i hi stop
  obtain ⟨hstart, hstop⟩ := isBoundary_of_mem_occurrences hp hi
  exact ⟨hstart, hstop, isSome_cut?_iff.mpr hstart, isSome_cut?_iff.mpr hstop,
    fun output => isSome_splice?_iff.mpr ⟨hstart, hstop⟩⟩

/-- Two overlapping occurrences among characters of two, three and four bytes. -/
theorem occurrences_eq_byte_matches_overlapping :
    let state : Word := ['𝄞', '€', 'ä', '€', 'ä', '€']
    let pattern : Word := ['€', 'ä', '€']
    pattern ≠ [] ∧ occurrences state pattern = [4, 9] ∧
      ((bytes state).drop 9).take 8 = bytes pattern ∧ state.IsBoundary 9 ∧ state.IsBoundary 17 := by
  intro state pattern
  have hp : pattern ≠ [] := by decide
  have hlist : occurrences state pattern = [4, 9] := by decide +kernel
  have hmem : 9 ∈ occurrences state pattern := by simp [hlist]
  obtain ⟨-, hbytes, hcuts⟩ := occurrences_eq_byte_matches state pattern hp
  obtain ⟨hstart, hstop, -⟩ := hcuts 9 hmem
  exact ⟨hp, hlist, ((hbytes 9).mp hmem).2, hstart, hstop⟩

end Word
end SemiThue
