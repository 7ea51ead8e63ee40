import SemiThue.Word

/-!
# SemiThue.Word.Occurrence — where a pattern occurs

Patterns match literally, and occurrences may overlap: `aa` occurs twice in `aaa`.

The search for occurrences goes through the characters of the state, and ends where what is left is
shorter than the pattern.  No occurrence is lost by that (`occurrences_eq_occurrencesFrom`).
-/

namespace SemiThue
namespace Word

/-- Every character of a word whose first character stands at offset `i`, given by its own offset
and by the part of the word that starts with it. -/
def suffixesFrom : Nat → Word → List (Nat × Word)
  | _, [] => []
  | i, c :: w => (i, c :: w) :: suffixesFrom (i + c.utf8Size) w

/-- The byte offsets, in increasing order, of all characters of `state` at which `pattern` starts.
The empty pattern starts at every character, but not at the end of the word, where there is none. -/
def occurrences (state pattern : Word) : List Nat :=
  if state.byteLength < pattern.byteLength then []
  else
    let last := state.byteLength - pattern.byteLength
    (((suffixesFrom 0 state).takeWhile (·.1 ≤ last)).filter (pattern.isPrefixOf ·.2)).map (·.1)

/-! ### The bound of the search -/

/-- The places where `pattern` starts in a word whose first character stands at offset `i`. -/
def occurrencesFrom (pattern : Word) : Nat → Word → List Nat
  | _, [] => []
  | i, c :: w =>
    let rest := occurrencesFrom pattern (i + c.utf8Size) w
    if pattern.isPrefixOf (c :: w) then i :: rest else rest

/-- The offsets found from `i` on are `i` plus the length of what stands before a character that
starts the pattern. -/
theorem mem_occurrencesFrom {pattern w : Word} {i k : Nat} :
    k ∈ occurrencesFrom pattern i w ↔
      ∃ u v, w = u ++ v ∧ v ≠ [] ∧ pattern <+: v ∧ k = i + byteLength u := by
  induction w generalizing i with
  | nil => simp [occurrencesFrom]
  | cons c w ih =>
    have hstep : (∃ u v, c :: w = u ++ v ∧ v ≠ [] ∧ pattern <+: v ∧ k = i + byteLength u) ↔
        (pattern <+: c :: w ∧ k = i) ∨ k ∈ occurrencesFrom pattern (i + c.utf8Size) w := by
      rw [ih]
      constructor
      · rintro ⟨u, v, hw, hv, hp, rfl⟩
        cases u with
        | nil => exact .inl ⟨by simpa [hw] using hp, by simp⟩
        | cons d u =>
          obtain ⟨rfl, rfl⟩ := List.cons_eq_cons.mp hw
          exact .inr ⟨u, v, rfl, hv, hp, by simp only [byteLength_cons]; omega⟩
      · rintro (⟨hp, rfl⟩ | ⟨u, v, rfl, hv, hp, rfl⟩)
        · exact ⟨[], c :: w, rfl, by simp, hp, by simp⟩
        · exact ⟨c :: u, v, rfl, hv, hp, by simp only [byteLength_cons]; omega⟩
    rw [hstep, occurrencesFrom]
    split <;> simp_all

/-- What a pattern starts is at least as long as the pattern. -/
theorem add_byteLength_le_of_mem_occurrencesFrom {pattern w : Word} {i k : Nat}
    (h : k ∈ occurrencesFrom pattern i w) : k + byteLength pattern ≤ i + byteLength w := by
  obtain ⟨u, _, rfl, -, ⟨v, rfl⟩, rfl⟩ := mem_occurrencesFrom.mp h
  simp only [byteLength_append]
  omega

/-- The bound leaves nothing out: where the search ends, the pattern is longer than the rest. -/
theorem map_filter_takeWhile_suffixesFrom (pattern : Word) (last : Nat) : ∀ (i : Nat) (w : Word),
    last + byteLength pattern = i + byteLength w →
    (((suffixesFrom i w).takeWhile (·.1 ≤ last)).filter (pattern.isPrefixOf ·.2)).map (·.1) =
      occurrencesFrom pattern i w
  | _, [], _ => rfl
  | i, c :: w, hlast => by
    have ih := map_filter_takeWhile_suffixesFrom pattern last (i + c.utf8Size) w (by
      rw [byteLength_cons] at hlast
      omega)
    rw [suffixesFrom]
    by_cases hi : i ≤ last
    · rw [List.takeWhile_cons_of_pos (by simpa using hi), occurrencesFrom, ← ih]
      cases hp : pattern.isPrefixOf (c :: w) <;> simp [hp]
    · have hnone : occurrencesFrom pattern i (c :: w) = [] := by
        rw [List.eq_nil_iff_forall_not_mem]
        intro k hk
        have hle := add_byteLength_le_of_mem_occurrencesFrom hk
        obtain ⟨u, v, -, -, -, rfl⟩ := mem_occurrencesFrom.mp hk
        omega
      rw [List.takeWhile_cons_of_neg (by simpa using hi), hnone]
      rfl

/-- **The search finds every place** where the pattern starts. -/
theorem occurrences_eq_occurrencesFrom (state pattern : Word) :
    occurrences state pattern = occurrencesFrom pattern 0 state := by
  unfold occurrences
  split
  · rename_i hshort
    refine (List.eq_nil_iff_forall_not_mem.mpr fun k hk => ?_).symm
    have := add_byteLength_le_of_mem_occurrencesFrom hk
    omega
  · exact map_filter_takeWhile_suffixesFrom pattern _ 0 state (by omega)

/-- A non-empty pattern occurs at `k` when the word splits as `u ++ pattern ++ v` with `k` bytes in
`u`. -/
theorem mem_occurrences_iff {state pattern : Word} (hp : pattern ≠ []) {k : Nat} :
    k ∈ occurrences state pattern ↔ ∃ u v, state = u ++ pattern ++ v ∧ k = byteLength u := by
  rw [occurrences_eq_occurrencesFrom, mem_occurrencesFrom]
  constructor
  · rintro ⟨u, _, rfl, -, ⟨v, rfl⟩, rfl⟩
    exact ⟨u, v, by simp, by simp⟩
  · rintro ⟨u, v, rfl, rfl⟩
    exact ⟨u, pattern ++ v, by simp, by simp [hp], ⟨v, rfl⟩, by simp⟩

end Word
end SemiThue
