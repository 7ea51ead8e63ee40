import Mathlib
import SemiThue.Proofs.Boundaries

/-!
# SemiThue.Proofs.Locality — exchanges are local

Exchanging a part of a word leaves all that stands before it in its place, and moves all that stands
behind it by the difference of the two lengths.

* `mem_occurrences_append_left`, `mem_occurrences_append_right`: an occurrence that lies in one of
  two words is an occurrence in that word alone.
* `exists_split_of_disjoint`: a word with two occurrences that do not overlap can be written with
  both of them.  They may touch.
* `splice?_local_and_commutes`: the occurrences on both sides are kept, and two exchanges that do
  not overlap can be made in either order.
-/

namespace SemiThue
namespace Word

/-! ### Occurrences on one side -/

/-- What stands in the first word does not depend on the second one. -/
theorem mem_occurrences_append_left {u v q : Word} (hq : q ≠ []) {j : Nat}
    (h : j + byteLength q ≤ byteLength u) :
    j ∈ occurrences (u ++ v) q ↔ j ∈ occurrences u q := by
  have hj : j ≤ (bytes u).length := by rw [length_bytes]; omega
  have hlen : byteLength q ≤ ((bytes u).drop j).length := by
    rw [List.length_drop, length_bytes]
    omega
  rw [mem_occurrences_iff_bytes hq, mem_occurrences_iff_bytes hq, bytes_append,
    List.drop_append_of_le_length hj, List.take_append_of_le_length hlen, byteLength_append]
  constructor
  · rintro ⟨-, hmatch⟩
    exact ⟨h, hmatch⟩
  · rintro ⟨-, hmatch⟩
    exact ⟨by omega, hmatch⟩

/-- What stands in the second word is found behind the first one. -/
theorem mem_occurrences_append_right {u v q : Word} (hq : q ≠ []) {k : Nat} :
    byteLength u + k ∈ occurrences (u ++ v) q ↔ k ∈ occurrences v q := by
  have hdrop : (bytes (u ++ v)).drop (byteLength u + k) = (bytes v).drop k := by
    rw [bytes_append, ← length_bytes, List.drop_length_add_append]
  rw [mem_occurrences_iff_bytes hq, mem_occurrences_iff_bytes hq, hdrop, byteLength_append]
  constructor
  · rintro ⟨hle, hmatch⟩
    exact ⟨by omega, hmatch⟩
  · rintro ⟨hle, hmatch⟩
    exact ⟨by omega, hmatch⟩

/-! ### Occurrences around an exchange -/

variable {u p v o q : Word}

theorem mem_occurrences_before (hq : q ≠ []) {j : Nat} (h : j + byteLength q ≤ byteLength u) :
    j ∈ occurrences (u ++ p ++ v) q ↔ j ∈ occurrences (u ++ o ++ v) q := by
  rw [List.append_assoc, List.append_assoc, mem_occurrences_append_left hq h,
    mem_occurrences_append_left hq h]

theorem mem_occurrences_behind (hq : q ≠ []) {j : Nat}
    (h : byteLength u + byteLength p ≤ j) :
    j ∈ occurrences (u ++ p ++ v) q ↔
      j - byteLength p + byteLength o ∈ occurrences (u ++ o ++ v) q := by
  obtain ⟨k, rfl⟩ := Nat.exists_eq_add_of_le h
  have hnew : byteLength u + byteLength p + k - byteLength p + byteLength o =
      byteLength (u ++ o) + k := by
    rw [byteLength_append]
    omega
  rw [hnew, ← byteLength_append, mem_occurrences_append_right hq, mem_occurrences_append_right hq]

/-! ### Two exchanges -/

/-- `p` stands at the offset `i` of `w`, and exchanging it for `o` there gives `w'`. -/
structure Exchanges (w : Word) (i : Nat) (p o w' : Word) : Prop where
  occurs : i ∈ occurrences w p
  splice_eq : splice? w i (i + byteLength p) o = some w'

/-- Where an offset is found once `added` bytes have taken the place of the `removed` bytes from
`start` on. -/
def shifted (start removed added j : Nat) : Nat :=
  if start + removed ≤ j then j - removed + added else j

/-- Exchanging the pattern of a split leaves the rest of the split. -/
theorem Exchanges.eq_append {w' : Word} (h : Exchanges (u ++ p ++ v) (byteLength u) p o w') :
    w' = u ++ o ++ v := by
  have hnew := splice?_infix u p v o
  exact Option.some.inj (h.splice_eq.symm.trans hnew)

theorem exchanges_iff (hp : p ≠ []) {w w' : Word} {i : Nat} :
    Exchanges w i p o w' ↔ ∃ u v, w = u ++ p ++ v ∧ i = byteLength u ∧ w' = u ++ o ++ v := by
  constructor
  · intro h
    obtain ⟨u, v, rfl, rfl⟩ := (mem_occurrences_iff hp).mp h.occurs
    exact ⟨u, v, rfl, rfl, h.eq_append⟩
  · rintro ⟨u, v, rfl, rfl, rfl⟩
    exact ⟨(mem_occurrences_iff hp).mpr ⟨u, v, rfl, rfl⟩, splice?_infix u p v o⟩

/-- Every occurrence can be exchanged for every word. -/
theorem exists_exchanges (hp : p ≠ []) {w : Word} {i : Nat} (h : i ∈ occurrences w p) (o : Word) :
    ∃ w', Exchanges w i p o w' := by
  obtain ⟨u, v, rfl, rfl⟩ := (mem_occurrences_iff hp).mp h
  exact ⟨u ++ o ++ v, (exchanges_iff hp).mpr ⟨u, v, rfl, rfl, rfl⟩⟩

/-- A word with two occurrences, the first of which ends before the second one begins. -/
theorem exists_split_of_disjoint (hp : p ≠ []) (hq : q ≠ []) {w : Word} {i j : Nat}
    (hi : i ∈ occurrences w p) (hj : j ∈ occurrences w q) (h : i + byteLength p ≤ j) :
    ∃ u m v, w = u ++ p ++ m ++ q ++ v ∧ i = byteLength u ∧ j = byteLength (u ++ p ++ m) := by
  obtain ⟨u, rest, rfl, rfl⟩ := (mem_occurrences_iff hp).mp hi
  rw [← byteLength_append] at h
  obtain ⟨k, rfl⟩ := Nat.exists_eq_add_of_le h
  -- the second occurrence lies in what stands behind the first one
  rw [mem_occurrences_append_right hq, mem_occurrences_iff hq] at hj
  obtain ⟨m, v, rfl, rfl⟩ := hj
  exact ⟨u, m, v, by simp only [List.append_assoc], rfl, (byteLength_append _ _).symm⟩

/-- Whichever of the two occurrences is exchanged first, the other one can still be exchanged, and
the outcome is the same. -/
theorem Exchanges.commute_of_le (hp : p ≠ []) (hq : q ≠ []) {w w₁ w₂ o₁ o₂ : Word} {i j : Nat}
    (h₁ : Exchanges w i p o₁ w₁) (h₂ : Exchanges w j q o₂ w₂) (h : i + byteLength p ≤ j) :
    ∃ t, Exchanges w₁ (j - byteLength p + byteLength o₁) q o₂ t ∧ Exchanges w₂ i p o₁ t := by
  obtain ⟨u, m, v, rfl, rfl, rfl⟩ := exists_split_of_disjoint hp hq h₁.occurs h₂.occurs h
  have hw : u ++ p ++ m ++ q ++ v = u ++ p ++ (m ++ q ++ v) := by simp only [List.append_assoc]
  obtain rfl := h₂.eq_append
  rw [hw] at h₁
  obtain rfl := h₁.eq_append
  have hj : byteLength (u ++ p ++ m) - byteLength p + byteLength o₁ =
      byteLength (u ++ o₁ ++ m) := by
    simp only [byteLength_append]
    omega
  refine ⟨u ++ o₁ ++ m ++ o₂ ++ v, (exchanges_iff hq).mpr ⟨u ++ o₁ ++ m, v, ?_, hj, rfl⟩,
    (exchanges_iff hp).mpr ⟨u, m ++ o₂ ++ v, ?_, rfl, ?_⟩⟩ <;>
  simp only [List.append_assoc]

/-- Two exchanges that do not overlap can be made in either order, each at the offset to which the
other one moves it. -/
theorem Exchanges.commute (hp : p ≠ []) (hq : q ≠ []) {w w₁ w₂ o₁ o₂ : Word} {i j : Nat}
    (h₁ : Exchanges w i p o₁ w₁) (h₂ : Exchanges w j q o₂ w₂)
    (h : i + byteLength p ≤ j ∨ j + byteLength q ≤ i) :
    ∃ t, Exchanges w₁ (shifted i (byteLength p) (byteLength o₁) j) q o₂ t ∧
      Exchanges w₂ (shifted j (byteLength q) (byteLength o₂) i) p o₁ t := by
  have hppos : byteLength p ≠ 0 := fun hzero => hp (byteLength_eq_zero_iff.mp hzero)
  have hqpos : byteLength q ≠ 0 := fun hzero => hq (byteLength_eq_zero_iff.mp hzero)
  unfold shifted
  rcases h with h | h
  · rw [if_pos h, if_neg (by omega)]
    exact h₁.commute_of_le hp hq h₂ h
  · rw [if_pos h, if_neg (by omega)]
    obtain ⟨t, ht₂, ht₁⟩ := h₂.commute_of_le hq hp h₁ h
    exact ⟨t, ht₁, ht₂⟩

/-- **Exchanges are local, and those that do not overlap commute.**  If `o` takes the place of `p`
between `u` and `v`, every occurrence that ends in `u` stays where it is, every occurrence that
begins in `v` moves by the difference of the two lengths, and no new ones appear there.  Of two
occurrences that do not overlap, either can be exchanged first: the other one is found at its
shifted offset, and the outcome is the same. -/
theorem splice?_local_and_commutes :
    (∀ u p v o : Word, ∃ new,
      splice? (u ++ p ++ v) (byteLength u) (byteLength u + byteLength p) o = some new ∧
      ∀ q : Word, q ≠ [] → ∀ j,
        (j + byteLength q ≤ byteLength u →
          (j ∈ occurrences (u ++ p ++ v) q ↔ j ∈ occurrences new q)) ∧
        (byteLength u + byteLength p ≤ j →
          (j ∈ occurrences (u ++ p ++ v) q ↔
            j - byteLength p + byteLength o ∈ occurrences new q))) ∧
    ∀ w p q o₁ o₂ : Word, p ≠ [] → q ≠ [] →
      ∀ i ∈ occurrences w p, ∀ j ∈ occurrences w q,
        i + byteLength p ≤ j ∨ j + byteLength q ≤ i →
        ∃ w₁ w₂ t, Exchanges w i p o₁ w₁ ∧ Exchanges w j q o₂ w₂ ∧
          Exchanges w₁ (shifted i (byteLength p) (byteLength o₁) j) q o₂ t ∧
          Exchanges w₂ (shifted j (byteLength q) (byteLength o₂) i) p o₁ t := by
  constructor
  · intro u p v o
    refine ⟨u ++ o ++ v, splice?_infix u p v o, fun q hq j => ?_⟩
    exact ⟨mem_occurrences_before hq, mem_occurrences_behind hq⟩
  · intro w p q o₁ o₂ hp hq i hi j hj h
    obtain ⟨w₁, h₁⟩ := exists_exchanges hp hi o₁
    obtain ⟨w₂, h₂⟩ := exists_exchanges hq hj o₂
    obtain ⟨t, ht₁, ht₂⟩ := h₁.commute hp hq h₂ h
    exact ⟨w₁, w₂, t, h₁, h₂, ht₁, ht₂⟩

/-- Two occurrences that touch, of characters with three and with two bytes. -/
theorem splice?_local_and_commutes_touching :
    let w : Word := ['x', '€', 'ä', 'y']
    1 ∈ occurrences w ['€'] ∧ 4 ∈ occurrences w ['ä'] ∧
      ∃ t, Exchanges ['x', 'ä', 'y'] 1 ['ä'] ['𝄞', 'z'] t ∧
        Exchanges ['x', '€', '𝄞', 'z', 'y'] 1 ['€'] [] t := by
  intro w
  have hp : 1 ∈ occurrences w ['€'] := by decide +kernel
  have hq : 4 ∈ occurrences w ['ä'] := by decide +kernel
  obtain ⟨w₁, w₂, t, h₁, h₂, ht₁, ht₂⟩ := splice?_local_and_commutes.2 w ['€'] ['ä'] []
    ['𝄞', 'z'] (by decide) (by decide) 1 hp 4 hq (.inl (by decide))
  have hw₁ : splice? w 1 4 [] = some ['x', 'ä', 'y'] := by decide +kernel
  have hw₂ : splice? w 4 6 ['𝄞', 'z'] = some ['x', '€', '𝄞', 'z', 'y'] := by decide +kernel
  obtain rfl := Option.some.inj (hw₁.symm.trans h₁.splice_eq)
  obtain rfl := Option.some.inj (hw₂.symm.trans h₂.splice_eq)
  exact ⟨hp, hq, t, ht₁, ht₂⟩

end Word
end SemiThue
