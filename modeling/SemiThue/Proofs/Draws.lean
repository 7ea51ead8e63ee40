import Mathlib
import SemiThue.Tape

/-!
# SemiThue.Proofs.Draws — bounded draws and the words that force them

* `below_lt`: a draw below `r` is below `r`.
* `exists_accept?`: every number below `r` is the answer for some number of the tape.
* `Serves t ws`: the tape `t` serves the words `ws` next.  `Forces ws f a` says that `f` answers `a`
  on every tape that serves `ws`, and leaves the tape behind these words.  Forced answers compose,
  so the words for a whole run are found draw by draw.
-/

namespace SemiThue

/-- The words in which a number stands on the tape, the low half first. -/
def Width.words : Width → Nat → List UInt32
  | .single, x => [UInt32.ofNat x]
  | .double, x => [UInt32.ofNat (x % UInt32.size), UInt32.ofNat (x / UInt32.size)]

theorem Width.size_pos (w : Width) : 0 < w.size := by
  cases w <;> decide

/-- The numbers from which a place is drawn are enough for all places. -/
theorem Width.le_size_forPlace {n : Nat} (hn : n ≤ UInt64.size) : n ≤ (Width.forPlace n).size := by
  unfold forPlace
  split
  · rename_i h
    exact h.le
  · exact hn

namespace Tape

/-! ### Answers are in range -/

theorem draw_lt (t : Tape) (w : Width) : (t.draw w).1 < w.size := by
  have h₁ := t.read.toNat_lt
  have h₂ := t.moved.read.toNat_lt
  cases w with
  | single => exact h₁
  | double =>
    simp only [draw, Width.size, UInt32.size, UInt64.size]
    omega

theorem accept?_eq_some_iff {w : Width} {r x k : Nat} :
    accept? w r x = some k ↔ x * r % w.size ≤ zone w r ∧ x * r / w.size = k := by
  unfold accept?
  split <;> simp_all

theorem lt_of_accept? {w : Width} {r x k : Nat} (hr : 0 < r) (hx : x < w.size)
    (h : accept? w r x = some k) : k < r := by
  obtain ⟨-, rfl⟩ := accept?_eq_some_iff.mp h
  rw [Nat.div_lt_iff_lt_mul w.size_pos, Nat.mul_comm r]
  exact Nat.mul_lt_mul_of_pos_right hx hr

theorem below_of_accept? {w : Width} {r k : Nat} {t : Tape}
    (h : accept? w r (t.draw w).1 = some k) : t.below w r = (k, (t.draw w).2) := by
  rw [below]
  split <;> simp_all

theorem below_of_refuse {w : Width} {r : Nat} {t : Tape} (h : accept? w r (t.draw w).1 = none) :
    t.below w r = (t.draw w).2.below w r := by
  rw [below]
  split <;> simp_all

/-- A draw below `r` is below `r`. -/
theorem below_lt (w : Width) {r : Nat} (hr : 0 < r) (t : Tape) : (t.below w r).1 < r := by
  fun_induction below w r t with
  | case1 t k h => exact lt_of_accept? hr (t.draw_lt w) h
  | case2 t h ih => exact ih

/-! ### Every answer occurs -/

/-- The zone leaves room for at least `r` low halves. -/
theorem sub_one_le_zone (w : Width) {r : Nat} (hr : 0 < r) : r - 1 ≤ zone w r := by
  have h : r * 1 ≤ r * 2 ^ leadingZeros w r := Nat.mul_le_mul_left r (Nat.two_pow_pos _)
  unfold zone
  rw [Nat.shiftLeft_eq]
  omega

/-- Every number below `r` is the answer for some number of the tape. -/
theorem exists_accept? (w : Width) {r k : Nat} (hr : r ≤ w.size) (hk : k < r) :
    ∃ x < w.size, accept? w r x = some k := by
  set b := w.size with hb
  -- `x` is the first number whose multiple by `r` reaches `k * b`
  set x := (k * b + (r - 1)) / r with hx
  have hlow : k * b ≤ x * r := by
    have h := Nat.div_add_mod (k * b + (r - 1)) r
    have h' := Nat.mod_lt (k * b + (r - 1)) (show r > 0 by omega)
    rw [← hx, Nat.mul_comm r] at h
    omega
  have hhigh : x * r ≤ k * b + (r - 1) := Nat.div_mul_le_self _ _
  have hsplit : x * r = b * k + (x * r - k * b) := by
    rw [Nat.mul_comm b k]
    omega
  have hmod : x * r % b = x * r - k * b := by
    rw [hsplit, Nat.mul_add_mod, Nat.mod_eq_of_lt (by omega)]
    omega
  have hdiv : x * r / b = k := by
    rw [hsplit, Nat.mul_add_div (by omega), Nat.div_eq_of_lt (by omega), Nat.add_zero]
  refine ⟨x, ?_, accept?_eq_some_iff.mpr ⟨?_, hdiv⟩⟩
  · by_contra hge
    have h₁ : b * r ≤ x * r := Nat.mul_le_mul_right r (by omega)
    have h₂ : (k + 1) * b ≤ r * b := Nat.mul_le_mul_right b hk
    rw [Nat.add_mul, Nat.one_mul, Nat.mul_comm r b] at h₂
    omega
  · rw [← hb, hmod]
    have := sub_one_le_zone w (show 0 < r by omega)
    omega

/-! ### Words that force an answer -/

/-- The tape serves the given words next. -/
def Serves : Tape → List UInt32 → Prop
  | _, [] => True
  | t, word :: ws => t.read = word ∧ Serves t.moved ws

/-- On every tape that serves `ws`, the answer is `a`, and exactly the words `ws` are used up. -/
def Forces {α : Type} (ws : List UInt32) (f : Tape → α × Tape) (a : α) : Prop :=
  ∀ t rest, Serves t (ws ++ rest) → (f t).1 = a ∧ Serves (f t).2 rest

theorem serves_ofWords_from (before ws : List UInt32) :
    Serves { ofWords (before ++ ws) with head := before.length } ws := by
  induction ws generalizing before with
  | nil => trivial
  | cons word ws ih =>
    refine ⟨by simp [read, ofWords], ?_⟩
    have h := ih (before ++ [word])
    rw [List.append_assoc, List.length_append] at h
    exact h

/-- The tape of a list of words serves these words. -/
theorem serves_ofWords (ws : List UInt32) : Serves (ofWords ws) ws := serves_ofWords_from [] ws

theorem forces_draw {w : Width} {x : Nat} (hx : x < w.size) : Forces (w.words x) (·.draw w) x := by
  intro t rest h
  cases w with
  | single =>
    obtain ⟨h₁, hrest⟩ := h
    refine ⟨?_, hrest⟩
    simp only [draw, h₁]
    exact UInt32.toNat_ofNat_of_lt' hx
  | double =>
    obtain ⟨h₁, h₂, hrest⟩ := h
    refine ⟨?_, hrest⟩
    simp only [Width.size, UInt64.size] at hx
    simp only [draw, h₁, h₂]
    have hlow : x % UInt32.size < UInt32.size := Nat.mod_lt _ (by decide)
    have hhigh : x / UInt32.size < UInt32.size := by
      simp only [UInt32.size]
      omega
    rw [UInt32.toNat_ofNat_of_lt' hlow, UInt32.toNat_ofNat_of_lt' hhigh]
    exact Nat.mod_add_div x UInt32.size

/-- Each number below `r` can be forced. -/
theorem exists_forces_below (w : Width) {r k : Nat} (hr : r ≤ w.size) (hk : k < r) :
    ∃ ws, Forces ws (·.below w r) k := by
  obtain ⟨x, hx, hacc⟩ := exists_accept? w hr hk
  refine ⟨w.words x, fun t rest h => ?_⟩
  obtain ⟨hdraw, hrest⟩ := forces_draw hx t rest h
  have hacc' : accept? w r (t.draw w).1 = some k := by rw [hdraw, hacc]
  show (t.below w r).1 = k ∧ (t.below w r).2.Serves rest
  rw [below_of_accept? hacc']
  exact ⟨rfl, hrest⟩

end Tape

end SemiThue
