import Mathlib
import SemiThue.Proofs.Draws

/-!
# SemiThue.Proofs.Rejection — drawing until a number is accepted

A number `x` of the tape is accepted for `k` if `x * r` lies in a window that begins at `k` times
the size of the tape's numbers and is `r * 2 ^ c` long, where `c` counts the leading zeros of `r`.
Wherever a window of this length begins, it holds `2 ^ c` multiples of `r`, so each `k` below `r` is
the answer for equally many numbers, and the windows together leave out half of the numbers at most.

* `DrawsEvenly w r` collects these facts about one number of the tape.
* `Draws w r n t k t'` and `DrawsPlaces n m t js t'` are the loops that try one number after the
  other, as relations: there is no way to relate a loop that does not end to an answer.
-/

namespace SemiThue

open Finset

theorem Width.size_eq_two_pow (w : Width) : w.size = 2 ^ w.bits := by
  cases w <;> rfl

namespace Tape

/-! ### Windows -/

theorem le_zone_iff (w : Width) {r n : Nat} (hr : 0 < r) :
    n ≤ zone w r ↔ n < r * 2 ^ leadingZeros w r := by
  have hpos : 0 < r * 2 ^ leadingZeros w r := Nat.mul_pos hr (Nat.two_pow_pos _)
  rw [zone, Nat.shiftLeft_eq]
  omega

/-- Moved up by its leading zeros, a number has its highest bit at the highest place. -/
theorem shifted_bounds (w : Width) {r : Nat} (hr : 0 < r) (hlt : r < w.size) :
    2 ^ (w.bits - 1) ≤ r * 2 ^ leadingZeros w r ∧ r * 2 ^ leadingZeros w r < 2 ^ w.bits := by
  have hlog : r.log2 < w.bits := by
    rw [Nat.log2_lt hr.ne', ← w.size_eq_two_pow]
    exact hlt
  have hlow : 2 ^ r.log2 ≤ r := Nat.log2_self_le hr.ne'
  have hhigh : r < 2 ^ (r.log2 + 1) := Nat.lt_log2_self
  unfold leadingZeros
  constructor
  · calc 2 ^ (w.bits - 1) = 2 ^ r.log2 * 2 ^ (w.bits - (r.log2 + 1)) := by
          rw [← pow_add]
          congr 1
          omega
      _ ≤ r * 2 ^ (w.bits - (r.log2 + 1)) := Nat.mul_le_mul_right _ hlow
  · calc r * 2 ^ (w.bits - (r.log2 + 1)) < 2 ^ (r.log2 + 1) * 2 ^ (w.bits - (r.log2 + 1)) :=
          Nat.mul_lt_mul_of_pos_right hhigh (Nat.two_pow_pos _)
      _ = 2 ^ w.bits := by
          rw [← pow_add]
          congr 1
          omega

/-- A number is accepted for `k` if its multiple by `r` lies in the window of `k`. -/
theorem accept?_eq_some_iff_window (w : Width) {r k x : Nat} (hr : 0 < r) (hlt : r < w.size) :
    accept? w r x = some k ↔
      k * w.size ≤ x * r ∧ x * r < k * w.size + r * 2 ^ leadingZeros w r := by
  obtain ⟨-, hwindow⟩ := shifted_bounds w hr hlt
  rw [← w.size_eq_two_pow] at hwindow
  have hsplit := Nat.div_add_mod (x * r) w.size
  rw [accept?_eq_some_iff, le_zone_iff w hr]
  constructor
  · rintro ⟨hlow, rfl⟩
    rw [Nat.mul_comm] at hsplit
    omega
  · rintro ⟨hge, hlt'⟩
    have hdiv : x * r / w.size = k := by
      refine Nat.div_eq_of_lt_le hge ?_
      rw [Nat.add_mul, Nat.one_mul]
      omega
    rw [hdiv, Nat.mul_comm] at hsplit
    exact ⟨by omega, hdiv⟩

/-- **A window of `q` times the length `r` holds `q` multiples of `r`**, wherever it begins. -/
theorem mul_mem_window_iff {r n q x : Nat} (hr : 0 < r) :
    (n ≤ x * r ∧ x * r < n + r * q) ↔ x ∈ Ico (n ⌈/⌉ r) (n ⌈/⌉ r + q) := by
  have hnext : (n + r * q) ⌈/⌉ r = n ⌈/⌉ r + q := by
    rw [Nat.ceilDiv_eq_add_pred_div, Nat.ceilDiv_eq_add_pred_div, ← Nat.add_mul_div_left _ _ hr]
    congr 1
    omega
  rw [mem_Ico, ← hnext, ceilDiv_le_iff_le_mul hr, ← Nat.not_le, ← Nat.not_le,
    ceilDiv_le_iff_le_mul hr, Nat.mul_comm x r]

/-! ### Counting the numbers for an answer -/

/-- The numbers of the tape that are answered in the given way, or refused. -/
def answering (w : Width) (r : Nat) (answer : Option Nat) : Finset Nat :=
  {x ∈ range w.size | accept? w r x = answer}

variable {w : Width} {r : Nat}

theorem answering_some_eq (hr : 0 < r) (hlt : r < w.size) {k : Nat} (hk : k < r) :
    answering w r (some k) =
      Ico ((k * w.size) ⌈/⌉ r) ((k * w.size) ⌈/⌉ r + 2 ^ leadingZeros w r) := by
  ext x
  rw [answering, mem_filter, mem_range, accept?_eq_some_iff_window w hr hlt, mul_mem_window_iff hr]
  refine and_iff_right_of_imp fun hx => ?_
  -- the window of `k` ends before that of `r` would begin
  obtain ⟨-, hx⟩ := (mul_mem_window_iff hr).mpr hx
  obtain ⟨-, hwindow⟩ := shifted_bounds w hr hlt
  rw [← w.size_eq_two_pow] at hwindow
  have hnext : (k + 1) * w.size ≤ r * w.size := Nat.mul_le_mul_right _ hk
  rw [Nat.add_mul, Nat.one_mul] at hnext
  refine Nat.lt_of_mul_lt_mul_right (a := r) ?_
  rw [Nat.mul_comm w.size r]
  omega

theorem card_answering_some (hr : 0 < r) (hlt : r < w.size) {k : Nat} (hk : k < r) :
    #(answering w r (some k)) = 2 ^ leadingZeros w r := by
  rw [answering_some_eq hr hlt hk, Nat.card_Ico, Nat.add_sub_cancel_left]

/-- Every number of the tape is refused, or answered with a number below `r`. -/
theorem card_answering_none (hr : 0 < r) (hlt : r < w.size) :
    #(answering w r none) + r * 2 ^ leadingZeros w r = w.size := by
  have hmaps : ∀ x ∈ range w.size, accept? w r x ∈ insertNone (range r) := by
    intro x hx
    rw [mem_insertNone]
    intro k hk
    exact mem_range.mpr (lt_of_accept? hr (mem_range.mp hx) hk)
  have hsum := card_eq_sum_card_fiberwise hmaps
  have hanswered : ∑ k ∈ range r, #(answering w r (some k)) = r * 2 ^ leadingZeros w r := by
    rw [sum_congr rfl fun k hk => card_answering_some hr hlt (mem_range.mp hk), sum_const,
      card_range, smul_eq_mul]
  rw [card_range, sum_insertNone] at hsum
  rw [← hanswered]
  exact hsum.symm

/-- **What one number of the tape decides.**  Moved up by its leading zeros, `r` fills the bits of a
number; each answer below `r` is given for `2 ^ c` numbers, where `c` counts the leading zeros;
there are no other answers; and at most half of the numbers are refused. -/
structure DrawsEvenly (w : Width) (r : Nat) : Prop where
  shifted : 2 ^ (w.bits - 1) ≤ r * 2 ^ leadingZeros w r ∧ r * 2 ^ leadingZeros w r < 2 ^ w.bits
  answered : ∀ k < r, #(answering w r (some k)) = 2 ^ leadingZeros w r
  no_other : ∀ k, r ≤ k → answering w r (some k) = ∅
  refused : 2 * #(answering w r none) ≤ 2 ^ w.bits

theorem drawsEvenly (hr : 0 < r) (hlt : r < w.size) : DrawsEvenly w r := by
  obtain ⟨hlow, hhigh⟩ := shifted_bounds w hr hlt
  refine ⟨⟨hlow, hhigh⟩, fun k hk => card_answering_some hr hlt hk, fun k hk => ?_, ?_⟩
  · refine filter_eq_empty_iff.mpr fun x hx hacc => ?_
    have := lt_of_accept? hr (mem_range.mp hx) hacc
    omega
  · have hnone := card_answering_none hr hlt
    have hhalf : 2 ^ w.bits = 2 * 2 ^ (w.bits - 1) := by
      cases w <;> rfl
    rw [w.size_eq_two_pow] at hnone
    omega

/-! ### Draws end -/

/-- The written cells that have not been read. -/
def remaining (t : Tape) : Nat := t.size - t.head

/-- `Draws w r n t k t'`: a draw below `r` from the tape `t` ends with its `n`-th number, which is
the first that is accepted.  The answer is `k`, and `t'` is the tape after it. -/
inductive Draws (w : Width) (r : Nat) : Nat → Tape → Nat → Tape → Prop
  | accepted {t : Tape} {k : Nat} (h : accept? w r (t.draw w).1 = some k) :
      Draws w r 1 t k (t.draw w).2
  | refused {n k : Nat} {t t' : Tape} (h : accept? w r (t.draw w).1 = none)
      (hrest : Draws w r n (t.draw w).2 k t') : Draws w r (n + 1) t k t'

/-- `DrawsPlaces n m t js t'`: the draws for a shuffle of `m` items all end, after `n` numbers of
the tape in total. -/
inductive DrawsPlaces : Nat → Nat → Tape → List Nat → Tape → Prop
  | none {m : Nat} (h : m ≤ 1) (t : Tape) : DrawsPlaces 0 m t [] t
  | place {n₁ n₂ m j : Nat} {js : List Nat} {t t₁ t₂ : Tape} (h : Draws .double (m + 2) n₁ t j t₁)
      (hrest : DrawsPlaces n₂ (m + 1) t₁ js t₂) : DrawsPlaces (n₁ + n₂) (m + 2) t (j :: js) t₂

theorem draws_below (w : Width) (r : Nat) (t : Tape) :
    ∃ n, Draws w r n t (t.below w r).1 (t.below w r).2 := by
  fun_induction below w r t with
  | case1 t k h => exact ⟨1, .accepted h⟩
  | case2 t h ih =>
    obtain ⟨n, hn⟩ := ih
    exact ⟨n + 1, .refused h hn⟩

/-- Every number but the last uses up a written cell. -/
theorem Draws.add_remaining_le {n k : Nat} {t t' : Tape} (h : Draws w r n t k t') :
    n + t'.remaining ≤ t.remaining + 1 := by
  unfold remaining
  induction h with
  | @accepted t k h =>
    have := t.head_lt_head_draw w
    rw [size_draw]
    omega
  | @refused n k t t' h _ ih =>
    have := head_lt_size_of_accept?_eq_none h
    have := t.head_lt_head_draw w
    rw [size_draw] at ih
    omega

theorem drawsPlaces_shuffleDraws : ∀ (m : Nat) (t : Tape),
    ∃ n, DrawsPlaces n m t (t.shuffleDraws m).1 (t.shuffleDraws m).2
  | 0, t => ⟨0, .none (by omega) t⟩
  | 1, t => ⟨0, .none le_rfl t⟩
  | m + 2, t => by
    obtain ⟨n₁, hfirst⟩ := draws_below .double (m + 2) t
    obtain ⟨n₂, hothers⟩ := drawsPlaces_shuffleDraws (m + 1) (t.below .double (m + 2)).2
    exact ⟨n₁ + n₂, .place hfirst hothers⟩

theorem DrawsPlaces.add_remaining_le {n m : Nat} {js : List Nat} {t t' : Tape}
    (h : DrawsPlaces n m t js t') : n + t'.remaining ≤ t.remaining + (m - 1) := by
  induction h with
  | none _ t => omega
  | @place n₁ n₂ m j js t t₁ t₂ hfirst _ ih =>
    have := hfirst.add_remaining_le
    omega

/-- **Draws are even, and they end.**  A choice among fewer than `2 ^ 32` items is made with single
words, and each place of a shuffle is drawn with double words, evenly in both cases.  Whatever the
tape, the choice ends after at most one number more than there are written cells, and the shuffle
after at most one more for each place that it draws. -/
theorem choose_and_shuffle_even_and_end {α : Type} (xs : List α) (t : Tape) :
    (0 < xs.length → xs.length < 2 ^ 32 → DrawsEvenly .single xs.length) ∧
    (∀ i, i + 1 < 2 ^ 64 → DrawsEvenly .double (i + 1)) ∧
    (xs = [] → t.choose xs = (none, t)) ∧
    (xs.length < 2 ^ 32 → Width.forPlace xs.length = .single) ∧
    (0 < xs.length → ∃ n k t', Draws (.forPlace xs.length) xs.length n t k t' ∧
      n ≤ t.remaining + 1 ∧ k < xs.length ∧ t.choose xs = (xs[k]?, t')) ∧
    ∃ n js t', DrawsPlaces n xs.length t js t' ∧ n ≤ t.remaining + (xs.length - 1) ∧
      t.shuffle xs = ((rearrange js xs.toArray).toList, t') := by
  refine ⟨fun hr hlt => drawsEvenly hr hlt, fun i hlt => drawsEvenly (Nat.succ_pos i) hlt, ?_,
    fun hlt => if_pos hlt, ?_, ?_⟩
  · rintro rfl
    rfl
  · intro hpos
    obtain ⟨n, hdraws⟩ := draws_below (.forPlace xs.length) xs.length t
    have hbound := hdraws.add_remaining_le
    refine ⟨n, _, _, hdraws, by omega, t.below_lt _ hpos, ?_⟩
    cases xs with
    | nil => cases hpos
    | cons x xs => rfl
  · obtain ⟨n, hdraws⟩ := drawsPlaces_shuffleDraws xs.length t
    have hbound := hdraws.add_remaining_le
    exact ⟨n, _, _, hdraws, by omega, rfl⟩

/-- Three items share the single words, and the three places of a shuffle the double words.  The
first word of the tape is refused. -/
theorem choose_and_shuffle_even_and_end_three :
    let xs := ['a', 'b', 'c']
    let t := ofWords [1431655765, 2863311531]
    accept? .single 3 1431655765 = none ∧
      (∀ k < 3, #(answering .single 3 (some k)) = 2 ^ 30) ∧
      2 * #(answering .single 3 none) ≤ 2 ^ 32 ∧
      (∀ j < 3, #(answering .double 3 (some j)) = 2 ^ 62) ∧
      (∃ n k t', Draws .single 3 n t k t' ∧ n ≤ 3 ∧ k < 3 ∧ t.choose xs = (xs[k]?, t')) ∧
      ∃ n js t', DrawsPlaces n 3 t js t' ∧ n ≤ 4 ∧
        t.shuffle xs = ((rearrange js xs.toArray).toList, t') := by
  intro xs t
  obtain ⟨hsingle, hdouble, -, -, hchoose, hshuffle⟩ := choose_and_shuffle_even_and_end xs t
  have heven := hsingle (by decide) (by decide)
  have hsingle₀ : leadingZeros .single 3 = 30 := by decide
  have hdouble₀ : leadingZeros .double 3 = 62 := by decide
  rw [← hsingle₀, ← hdouble₀]
  exact ⟨by decide, heven.answered, heven.refused, (hdouble 2 (by decide)).answered,
    hchoose (by decide), hshuffle⟩

end Tape

end SemiThue
