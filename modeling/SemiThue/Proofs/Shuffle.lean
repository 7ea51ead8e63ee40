import Mathlib
import SemiThue.Proofs.Draws

/-!
# SemiThue.Proofs.Shuffle — the orders that a shuffle makes

A shuffle of `n` items draws a place at most `i` for each `i = n - 1, …, 1`.  There are `n!` such
vectors of draws (`card_drawVectors`), and for items that are pairwise distinct each of the `n!`
orders comes from exactly one of them (`arrangement_injOn`, `exists_arrangement_eq`).  Every place
that is exchanged is there (`rearrange?_eq_some`).
-/

open scoped Nat

namespace SemiThue

variable {α : Type}

/-! ### Draw vectors -/

/-- Puts a draw before the others. -/
def consDraw : Nat × List Nat ↪ List Nat where
  toFun x := x.1 :: x.2
  inj' := by
    rintro ⟨j, draws⟩ ⟨j', draws'⟩ h
    obtain ⟨rfl, rfl⟩ := List.cons_eq_cons.mp h
    rfl

/-- The draws that a shuffle of `n` items can make: a place at most `i` for each `i = n - 1, …, 1`,
in this order. -/
def drawVectors : Nat → Finset (List Nat)
  | 0 => {[]}
  | 1 => {[]}
  | n + 2 => (Finset.range (n + 2) ×ˢ drawVectors (n + 1)).map consDraw

theorem mem_drawVectors_succ {n : Nat} {draws : List Nat} :
    draws ∈ drawVectors (n + 2) ↔
      ∃ j ≤ n + 1, ∃ later ∈ drawVectors (n + 1), draws = j :: later := by
  rw [drawVectors, Finset.mem_map]
  constructor
  · rintro ⟨⟨j, later⟩, h, rfl⟩
    obtain ⟨hj, hlater⟩ := Finset.mem_product.mp h
    exact ⟨j, by have := Finset.mem_range.mp hj; omega, later, hlater, rfl⟩
  · rintro ⟨j, hj, later, hlater, rfl⟩
    exact ⟨(j, later), Finset.mem_product.mpr ⟨Finset.mem_range.mpr (by omega), hlater⟩, rfl⟩

/-- The draws, one by one, are at most `n - 1, …, 1`. -/
theorem mem_drawVectors_iff : ∀ {n : Nat} {draws : List Nat},
    draws ∈ drawVectors n ↔ List.Forall₂ (· ≤ ·) draws (List.range' 1 (n - 1)).reverse
  | 0, _ => Finset.mem_singleton.trans List.forall₂_nil_right_iff.symm
  | 1, _ => Finset.mem_singleton.trans List.forall₂_nil_right_iff.symm
  | n + 2, draws => by
    have hbounds : (List.range' 1 (n + 2 - 1)).reverse =
        (n + 1) :: (List.range' 1 (n + 1 - 1)).reverse := by
      rw [show n + 2 - 1 = n + 1 from rfl, List.range'_1_concat, List.reverse_concat,
        Nat.add_comm 1, Nat.add_sub_cancel]
    rw [mem_drawVectors_succ, hbounds, List.forall₂_cons_right_iff]
    constructor
    · rintro ⟨j, hj, later, hlater, rfl⟩
      exact ⟨j, later, hj, mem_drawVectors_iff.mp hlater, rfl⟩
    · rintro ⟨j, later, hj, hlater, rfl⟩
      exact ⟨j, hj, later, mem_drawVectors_iff.mpr hlater, rfl⟩

theorem card_drawVectors : ∀ n : Nat, (drawVectors n).card = n !
  | 0 => rfl
  | 1 => rfl
  | n + 2 => by
    rw [drawVectors, Finset.card_map, Finset.card_product, Finset.card_range,
      card_drawVectors (n + 1)]
    exact (Nat.factorial_succ (n + 1)).symm

theorem length_of_mem_drawVectors :
    ∀ {n : Nat} {draws : List Nat}, draws ∈ drawVectors n → draws.length = n - 1
  | 0, _, h => by rw [Finset.mem_singleton.mp h]; rfl
  | 1, _, h => by rw [Finset.mem_singleton.mp h]; rfl
  | n + 2, _, h => by
    obtain ⟨j, -, later, hlater, rfl⟩ := mem_drawVectors_succ.mp h
    simpa using length_of_mem_drawVectors hlater

/-- Every place that a shuffle draws is one of the places that it may exchange. -/
theorem shuffleDraws_mem : ∀ (n : Nat) (t : Tape), (t.shuffleDraws n).1 ∈ drawVectors n
  | 0, _ => Finset.mem_singleton_self _
  | 1, _ => Finset.mem_singleton_self _
  | n + 2, t => by
    have hj := t.below_lt .double (show 0 < n + 2 by omega)
    exact mem_drawVectors_succ.mpr ⟨_, by omega, _, shuffleDraws_mem (n + 1) _, rfl⟩

/-- All draws of a shuffle can be forced. -/
theorem exists_forces_shuffleDraws : ∀ {n : Nat} {draws : List Nat}, n ≤ 2 ^ 64 →
    draws ∈ drawVectors n → ∃ ws, Tape.Forces ws (Tape.shuffleDraws n) draws
  | 0, _, _, h => ⟨[], fun _ _ ht => ⟨(Finset.mem_singleton.mp h).symm, ht⟩⟩
  | 1, _, _, h => ⟨[], fun _ _ ht => ⟨(Finset.mem_singleton.mp h).symm, ht⟩⟩
  | n + 2, _, hn, h => by
    obtain ⟨j, hj, later, hlater, rfl⟩ := mem_drawVectors_succ.mp h
    obtain ⟨ws₁, h₁⟩ := Tape.exists_forces_below .double hn (show j < n + 2 by omega)
    obtain ⟨ws₂, h₂⟩ := exists_forces_shuffleDraws (by omega) hlater
    refine ⟨ws₁ ++ ws₂, fun t rest ht => ?_⟩
    rw [List.append_assoc] at ht
    obtain ⟨hfirst, ht₁⟩ := h₁ t _ ht
    obtain ⟨hothers, ht₂⟩ := h₂ _ _ ht₁
    exact ⟨List.cons_eq_cons.mpr ⟨hfirst, hothers⟩, ht₂⟩

/-! ### Arrangements -/

/-- The items in the order that the given draws bring them into. -/
def arrangement (xs : List α) (draws : List Nat) : List α := (rearrange draws xs.toArray).toList

theorem swapIfInBounds_perm (xs : Array α) (i j : Nat) : (xs.swapIfInBounds i j).Perm xs := by
  rw [Array.swapIfInBounds_def]
  split_ifs with hi hj
  · exact Array.swap_perm hi hj
  · exact .rfl
  · exact .rfl

theorem rearrange_perm : ∀ (draws : List Nat) (xs : Array α), (rearrange draws xs).Perm xs
  | [], _ => .rfl
  | _ :: draws, xs => (rearrange_perm draws _).trans (swapIfInBounds_perm xs _ _)

/-- A shuffle neither loses nor doubles an item. -/
theorem arrangement_perm (xs : List α) (draws : List Nat) : (arrangement xs draws).Perm xs :=
  (rearrange_perm draws xs.toArray).toList

/-- Carries out the exchanges of `rearrange`, but has no answer as soon as one of the two places is
missing. -/
def rearrange? : List Nat → Array α → Option (Array α)
  | [], xs => some xs
  | j :: draws, xs =>
    if h : draws.length + 1 < xs.size ∧ j < xs.size then
      rearrange? draws (xs.swap (draws.length + 1) j h.1 h.2)
    else none

/-- No place is missing that a shuffle exchanges. -/
theorem rearrange?_eq_some : ∀ {n : Nat} {draws : List Nat}, draws ∈ drawVectors n →
    ∀ {xs : Array α}, n ≤ xs.size → rearrange? draws xs = some (rearrange draws xs)
  | 0, _, h, _, _ => by rw [Finset.mem_singleton.mp h]; rfl
  | 1, _, h, _, _ => by rw [Finset.mem_singleton.mp h]; rfl
  | n + 2, _, h, xs, hn => by
    obtain ⟨j, hj, later, hlater, rfl⟩ := mem_drawVectors_succ.mp h
    have hlen := length_of_mem_drawVectors hlater
    have hi : later.length + 1 < xs.size := by omega
    have hj' : j < xs.size := by omega
    rw [rearrange?, dif_pos ⟨hi, hj'⟩, rearrange, Array.swapIfInBounds_def, dif_pos hi, dif_pos hj']
    exact rearrange?_eq_some hlater (by rw [Array.size_swap]; omega)

/-- The places from `n` on are out of reach for the draws of a shuffle of `n` items. -/
theorem getElem?_rearrange_of_le : ∀ {n : Nat} {draws : List Nat}, draws ∈ drawVectors n →
    ∀ (xs : Array α) {k : Nat}, n ≤ k → (rearrange draws xs)[k]? = xs[k]?
  | 0, _, h, xs, k, _ => by rw [Finset.mem_singleton.mp h]; rfl
  | 1, _, h, xs, k, _ => by rw [Finset.mem_singleton.mp h]; rfl
  | n + 2, _, h, xs, k, hk => by
    obtain ⟨j, hj, later, hlater, rfl⟩ := mem_drawVectors_succ.mp h
    have hlen := length_of_mem_drawVectors hlater
    rw [rearrange, getElem?_rearrange_of_le hlater _ (show n + 1 ≤ k by omega),
      Array.swapIfInBounds_def]
    split_ifs with h₁ h₂
    · rw [Array.getElem?_swap, if_neg (by omega), if_neg (by omega)]
    · rfl
    · rfl

/-- The first draw decides which item ends at the last place. -/
theorem getElem?_rearrange_last {n j : Nat} {draws : List Nat} (h : draws ∈ drawVectors (n + 1))
    {xs : Array α} (hn : n + 1 < xs.size) (hj : j ≤ n + 1) :
    (rearrange (j :: draws) xs)[n + 1]? = xs[j]? := by
  have hlen : draws.length + 1 = n + 1 := by rw [length_of_mem_drawVectors h]; rfl
  have hj' : j < xs.size := by omega
  rw [rearrange, getElem?_rearrange_of_le h _ le_rfl, hlen, Array.swapIfInBounds_def, dif_pos hn,
    dif_pos hj', Array.getElem?_swap, if_pos rfl, Array.getElem?_eq_getElem hj']
  split_ifs with hlast
  · simp only [hlast]
  · rfl

/-- Different draws bring distinct items into different orders. -/
theorem rearrange_inj : ∀ {n : Nat} {draws draws' : List Nat}, draws ∈ drawVectors n →
    draws' ∈ drawVectors n → ∀ {xs : Array α}, n ≤ xs.size → xs.toList.Nodup →
    rearrange draws xs = rearrange draws' xs → draws = draws'
  | 0, _, _, h, h', _, _, _, _ => by rw [Finset.mem_singleton.mp h, Finset.mem_singleton.mp h']
  | 1, _, _, h, h', _, _, _, _ => by rw [Finset.mem_singleton.mp h, Finset.mem_singleton.mp h']
  | n + 2, _, _, h, h', xs, hn, hxs, heq => by
    obtain ⟨j, hj, later, hlater, rfl⟩ := mem_drawVectors_succ.mp h
    obtain ⟨j', hj', later', hlater', rfl⟩ := mem_drawVectors_succ.mp h'
    -- the item at the last place tells the first draw, and both shuffles go on from the same items
    have hlast : xs[j]? = xs[j']? := by
      rw [← getElem?_rearrange_last hlater hn hj, ← getElem?_rearrange_last hlater' hn hj', heq]
    have hjj : j = j' := by
      rw [← Array.getElem?_toList, ← Array.getElem?_toList] at hlast
      exact (List.getElem?_inj (by simpa using (by omega : j < xs.size)) hxs).mp hlast
    subst hjj
    have hlen : later.length = later'.length := by
      rw [length_of_mem_drawVectors hlater, length_of_mem_drawVectors hlater']
    rw [rearrange, rearrange, ← hlen] at heq
    have hnodup : (xs.swapIfInBounds (later.length + 1) j).toList.Nodup :=
      (swapIfInBounds_perm xs _ _).toList.nodup_iff.mpr hxs
    rw [rearrange_inj hlater hlater' (by simp; omega) hnodup heq]

/-- **Distinct draw vectors give distinct orders** of items that are pairwise distinct. -/
theorem arrangement_injOn {xs : List α} (hxs : xs.Nodup) :
    Set.InjOn (arrangement xs) (drawVectors xs.length) := by
  intro draws h draws' h' heq
  exact rearrange_inj h h' (by simp) (by simpa using hxs) (Array.toList_inj.mp heq)

/-! ### Orders -/

section Orders

variable [DecidableEq α]

/-- All orders of the given items. -/
def orders (xs : List α) : Finset (List α) := xs.permutations.toFinset

theorem mem_orders {xs ys : List α} : ys ∈ orders xs ↔ ys.Perm xs := by
  rw [orders, List.mem_toFinset, List.mem_permutations]

theorem card_orders {xs : List α} (hxs : xs.Nodup) : (orders xs).card = xs.length ! := by
  rw [orders, List.toFinset_card_of_nodup (List.nodup_permutations xs hxs),
    List.length_permutations]

/-- **A shuffle makes all orders** of items that are pairwise distinct. -/
theorem image_arrangement {xs : List α} (hxs : xs.Nodup) :
    (drawVectors xs.length).image (arrangement xs) = orders xs := by
  refine Finset.eq_of_subset_of_card_le ?_ ?_
  · intro ys hys
    obtain ⟨draws, -, rfl⟩ := Finset.mem_image.mp hys
    exact mem_orders.mpr (arrangement_perm xs draws)
  · rw [Finset.card_image_of_injOn (arrangement_injOn hxs), card_drawVectors, card_orders hxs]

theorem exists_arrangement_eq {xs ys : List α} (hxs : xs.Nodup) (h : ys.Perm xs) :
    ∃ draws ∈ drawVectors xs.length, arrangement xs draws = ys := by
  have hys := mem_orders.mpr h
  rw [← image_arrangement hxs] at hys
  exact Finset.mem_image.mp hys

end Orders

theorem ncard_setOf_perm {xs : List α} (hxs : xs.Nodup) :
    {ys : List α | ys.Perm xs}.ncard = xs.length ! := by
  classical
  have horders : {ys : List α | ys.Perm xs} = orders xs := by
    ext ys
    exact mem_orders.symm
  rw [horders, Set.ncard_coe_finset, card_orders hxs]

/-- **A shuffle makes each order once.**  Its draws are at most `n - 1, …, 1`, and `n!` vectors of
draws are of this kind.  Whatever they are, no place is exchanged that is not there, and no item is
lost or doubled.  Items that are pairwise distinct have `n!` orders, and each of these is made by
exactly one vector of draws. -/
theorem shuffle_makes_each_order_once (xs : List α) :
    (∀ t : Tape, (t.shuffleDraws xs.length).1 ∈ drawVectors xs.length ∧
      (t.shuffle xs).1 = arrangement xs (t.shuffleDraws xs.length).1) ∧
    (∀ draws, draws ∈ drawVectors xs.length ↔
      List.Forall₂ (· ≤ ·) draws (List.range' 1 (xs.length - 1)).reverse) ∧
    (drawVectors xs.length).card = xs.length ! ∧
    (∀ draws ∈ drawVectors xs.length,
      rearrange? draws xs.toArray = some (arrangement xs draws).toArray ∧
        (arrangement xs draws).Perm xs) ∧
    (xs.Nodup → {ys : List α | ys.Perm xs}.ncard = xs.length ! ∧
      ∀ ys : List α, ys.Perm xs →
        ∃! draws, draws ∈ drawVectors xs.length ∧ arrangement xs draws = ys) := by
  classical
  refine ⟨fun t => ⟨shuffleDraws_mem _ t, rfl⟩, fun draws => mem_drawVectors_iff,
    card_drawVectors _, fun draws h => ⟨?_, arrangement_perm xs draws⟩,
    fun hxs => ⟨ncard_setOf_perm hxs, fun ys hys => ?_⟩⟩
  · rw [arrangement, Array.toArray_toList]
    exact rearrange?_eq_some h (by simp)
  · obtain ⟨draws, hdraws, harr⟩ := exists_arrangement_eq hxs hys
    refine ⟨draws, ⟨hdraws, harr⟩, ?_⟩
    rintro draws' ⟨hdraws', harr'⟩
    exact arrangement_injOn hxs hdraws' hdraws (harr'.trans harr.symm)

/-- The order in which all three items have moved on by one place. -/
theorem shuffle_makes_each_order_once_three :
    let xs := ['a', 'b', 'c']
    xs.Nodup ∧ [1, 0] ∈ drawVectors 3 ∧ (['c', 'a', 'b'] : List Char).Perm xs ∧
      arrangement xs [1, 0] = ['c', 'a', 'b'] ∧
      rearrange? [1, 0] xs.toArray = some #['c', 'a', 'b'] ∧
      ∀ draws ∈ drawVectors 3, arrangement xs draws = ['c', 'a', 'b'] → draws = [1, 0] := by
  intro xs
  have hxs : xs.Nodup := by decide
  have hdraws : [1, 0] ∈ drawVectors 3 := by decide
  have harr : arrangement xs [1, 0] = ['c', 'a', 'b'] := by decide
  obtain ⟨-, -, -, hall, horders⟩ := shuffle_makes_each_order_once xs
  obtain ⟨hchecked, hperm⟩ := hall [1, 0] hdraws
  rw [harr] at hchecked hperm
  refine ⟨hxs, hdraws, hperm, harr, hchecked, fun draws h h' => ?_⟩
  exact ((horders hxs).2 _ hperm).unique ⟨h, h'⟩ ⟨hdraws, harr⟩

end SemiThue
