import Mathlib
import SemiThue.Word.Occurrence
import SemiThue.Word.Slice

/-!
# SemiThue.Proofs.Occurrences — the list of occurrences

Occurrences are listed in increasing order, so each offset stands in the list once, and a word has
at most as many of them as it has bytes.
-/

namespace SemiThue
namespace Word

/-- A word can be written in one way only as `u ++ v` with a given number of bytes in `u`. -/
theorem append_inj_of_byteLength {u u' v v' : Word} (h : u ++ v = u' ++ v')
    (hl : byteLength u = byteLength u') : u = u' ∧ v = v' := by
  have hcut := cut?_append u v
  rw [h, hl, cut?_append] at hcut
  obtain ⟨rfl, rfl⟩ := Prod.mk.inj (Option.some.inj hcut)
  exact ⟨rfl, rfl⟩

theorem length_occurrencesFrom_le (pattern : Word) : ∀ (w : Word) (i : Nat),
    (occurrencesFrom pattern i w).length ≤ byteLength w
  | [], _ => Nat.zero_le _
  | c :: w, i => by
    have ih := length_occurrencesFrom_le pattern w (i + c.utf8Size)
    have hpos := c.utf8Size_pos
    rw [occurrencesFrom, byteLength_cons]
    split_ifs
    · rw [List.length_cons]
      omega
    · omega

theorem length_occurrences_le (state pattern : Word) :
    (occurrences state pattern).length ≤ byteLength state := by
  rw [occurrences_eq_occurrencesFrom]
  exact length_occurrencesFrom_le pattern state 0

theorem le_of_mem_occurrencesFrom {pattern w : Word} {i k : Nat}
    (h : k ∈ occurrencesFrom pattern i w) : i ≤ k := by
  obtain ⟨u, v, -, -, -, rfl⟩ := mem_occurrencesFrom.mp h
  omega

theorem pairwise_occurrencesFrom (pattern : Word) : ∀ (w : Word) (i : Nat),
    (occurrencesFrom pattern i w).Pairwise (· < ·)
  | [], _ => .nil
  | c :: w, i => by
    have ih := pairwise_occurrencesFrom pattern w (i + c.utf8Size)
    have hpos := c.utf8Size_pos
    rw [occurrencesFrom]
    split_ifs
    · refine List.pairwise_cons.mpr ⟨fun k hk => ?_, ih⟩
      have := le_of_mem_occurrencesFrom hk
      omega
    · exact ih

theorem pairwise_occurrences (state pattern : Word) :
    (occurrences state pattern).Pairwise (· < ·) := by
  rw [occurrences_eq_occurrencesFrom]
  exact pairwise_occurrencesFrom pattern state 0

theorem nodup_occurrences (state pattern : Word) : (occurrences state pattern).Nodup :=
  (pairwise_occurrences state pattern).imp fun h => Nat.ne_of_lt h

end Word
end SemiThue
