import Mathlib
import SemiThue.Proofs.Occurrences
import SemiThue.Proofs.Pass

/-!
# SemiThue.Proofs.Uniformity — every redex is equally likely

A pass makes the draws of a shuffle, and one more draw among the occurrences of the rule that comes
first.  Of the `n!` draw vectors for `n` rules, `m` of which can be applied, exactly `n! / m` bring
a given one of these `m` before the others.  The reason is a symmetry: exchanging the names of two
of them maps the orders in which the one comes first to those in which the other does
(`card_first_eq`), and some one of them comes first in every order.
-/

open scoped Nat ENNReal

namespace SemiThue

/-! ### Which item of a kind comes first -/

section Orders

variable {α : Type} [DecidableEq α] {xs : List α} {a b : α} {P : α → Prop} [DecidablePred P]

theorem map_swap_perm (hxs : xs.Nodup) (ha : a ∈ xs) (hb : b ∈ xs) :
    (xs.map (Equiv.swap a b)).Perm xs := by
  refine (List.perm_ext_iff_of_nodup (hxs.map (Equiv.injective _)) hxs).mpr fun x => ?_
  have hmem : x ∈ xs.map (Equiv.swap a b) ↔ Equiv.swap a b x ∈ xs := by
    constructor
    · intro h
      obtain ⟨y, hy, rfl⟩ := List.mem_map.mp h
      rwa [Equiv.swap_apply_self]
    · intro h
      exact List.mem_map.mpr ⟨_, h, Equiv.swap_apply_self a b x⟩
  rw [hmem, Equiv.swap_apply_def]
  split_ifs with h₁ h₂
  · exact ⟨fun _ => h₁ ▸ ha, fun _ => hb⟩
  · exact ⟨fun _ => h₂ ▸ hb, fun _ => ha⟩
  · rfl

theorem find?_map_swap (ha : P a) (hb : P b) (l : List α) :
    (l.map (Equiv.swap a b)).find? (P ·) = (l.find? (P ·)).map (Equiv.swap a b) := by
  have hswap : ((fun x => decide (P x)) ∘ Equiv.swap a b) = fun x => decide (P x) := by
    funext x
    rw [Function.comp_apply, Equiv.swap_apply_def]
    split_ifs with h₁ h₂
    · simp [h₁, ha, hb]
    · simp [h₂, ha, hb]
    · rfl
  rw [List.find?_map, hswap]

/-- Two items of the same kind come first equally often. -/
theorem card_first_eq (hxs : xs.Nodup) (ha : a ∈ xs) (hb : b ∈ xs) (hPa : P a) (hPb : P b) :
    ((orders xs).filter fun l => l.find? (P ·) = some a).card =
      ((orders xs).filter fun l => l.find? (P ·) = some b).card := by
  have hmaps : ∀ {c d : α}, c ∈ xs → d ∈ xs → P c → P d →
      ∀ l ∈ (orders xs).filter fun l => l.find? (P ·) = some c,
        l.map (Equiv.swap c d) ∈ (orders xs).filter fun l => l.find? (P ·) = some d := by
    intro c d hc hd hPc hPd l hl
    obtain ⟨hl, hfirst⟩ := Finset.mem_filter.mp hl
    refine Finset.mem_filter.mpr ⟨mem_orders.mpr ?_, ?_⟩
    · exact ((mem_orders.mp hl).map _).trans (map_swap_perm hxs hc hd)
    · rw [find?_map_swap hPc hPd, hfirst, Option.map_some, Equiv.swap_apply_left]
  have hself : ∀ l : List α, (l.map (Equiv.swap a b)).map (Equiv.swap a b) = l := by
    intro l
    simp [Function.comp_def]
  refine Finset.card_nbij' (·.map (Equiv.swap a b)) (·.map (Equiv.swap a b))
    (hmaps ha hb hPa hPb) ?_ (fun l _ => hself l) (fun l _ => hself l)
  intro l hl
  show l.map (Equiv.swap a b) ∈ _
  rw [Equiv.swap_comm]
  exact hmaps hb ha hPb hPa l hl

/-- **Each of `m` items of a kind comes first in one of `m` orders.** -/
theorem card_first_mul (hxs : xs.Nodup) (ha : a ∈ xs) (hPa : P a) :
    ((orders xs).filter fun l => l.find? (P ·) = some a).card * (xs.toFinset.filter P).card =
      xs.length ! := by
  have hfirst : ∀ l ∈ orders xs, l.find? (P ·) ∈ (xs.toFinset.filter P).map .some := by
    intro l hl
    have hmem := (mem_orders.mp hl).mem_iff (a := a)
    obtain ⟨b, hb⟩ := Option.isSome_iff_exists.mp
      (List.find?_isSome.mpr ⟨a, hmem.mpr ha, by simpa using hPa⟩ : (l.find? (P ·)).isSome)
    have hb' : b ∈ xs := (mem_orders.mp hl).mem_iff.mp (List.mem_of_find?_eq_some hb)
    have hPb : P b := by simpa using List.find?_some hb
    exact Finset.mem_map.mpr
      ⟨b, Finset.mem_filter.mpr ⟨List.mem_toFinset.mpr hb', hPb⟩, hb.symm⟩
  have hsame : ∀ b ∈ xs.toFinset.filter P,
      ((orders xs).filter fun l => l.find? (P ·) = some b).card =
        ((orders xs).filter fun l => l.find? (P ·) = some a).card := by
    intro b hb
    obtain ⟨hb, hPb⟩ := Finset.mem_filter.mp hb
    exact card_first_eq hxs (List.mem_toFinset.mp hb) ha hPb hPa
  calc ((orders xs).filter fun l => l.find? (P ·) = some a).card * (xs.toFinset.filter P).card
      = ∑ b ∈ xs.toFinset.filter P, ((orders xs).filter fun l => l.find? (P ·) = some b).card := by
        rw [Finset.sum_congr rfl hsame, Finset.sum_const, smul_eq_mul, Nat.mul_comm]
    _ = ∑ o ∈ (xs.toFinset.filter P).map .some,
        ((orders xs).filter fun l => l.find? (P ·) = o).card := by
        rw [Finset.sum_map]
        rfl
    _ = (orders xs).card := (Finset.card_eq_sum_card_fiberwise hfirst).symm
    _ = xs.length ! := card_orders hxs

end Orders

/-! ### The choices of a pass -/

namespace Program

/-- The offsets at which the rule at a place occurs in the state. -/
def positions (p : Program) (i : Nat) : List Nat :=
  match p.rules[i]? with
  | some r => p.state.occurrences r.pattern
  | none => []

/-- The places of the rules that can be applied. -/
def applicable (p : Program) : Finset Nat := (Finset.range p.rules.length).filter p.Applies

/-- The place of the rule that a pass applies, if its shuffle makes the given draws. -/
def chosenRule (p : Program) (draws : List Nat) : Option Nat :=
  (arrangement (List.range p.rules.length) draws).find? (p.Applies ·)

variable {p : Program} {i : Nat}

theorem positions_of_getElem? {r : Rule} (h : p.rules[i]? = some r) :
    p.positions i = p.state.occurrences r.pattern := by
  simp only [positions, h]

theorem length_positions_pos (h : p.Applies i) : 0 < (p.positions i).length := by
  obtain ⟨r, hr, hin⟩ := h
  rw [positions_of_getElem? hr, List.length_pos_iff]
  exact fun hnil => r.occurrences_eq_nil_iff.mp hnil hin

theorem nodup_positions (h : p.Applies i) : (p.positions i).Nodup := by
  obtain ⟨r, hr, -⟩ := h
  rw [positions_of_getElem? hr]
  exact Word.nodup_occurrences _ _

/-- Of the draw vectors, one in `m` makes a pass apply the rule at place `i`. -/
theorem card_chosenRule_mul (h : p.Applies i) :
    ((drawVectors p.rules.length).filter fun draws => p.chosenRule draws = some i).card *
      p.applicable.card = p.rules.length ! := by
  set xs := List.range p.rules.length with hxs
  have hlen : xs.length = p.rules.length := List.length_range
  have hnodup : xs.Nodup := List.nodup_range
  have hinj : Set.InjOn (arrangement xs)
      ((drawVectors p.rules.length).filter fun draws => p.chosenRule draws = some i) := by
    intro draws hdraws draws' hdraws'
    rw [← hlen] at hdraws hdraws'
    exact arrangement_injOn hnodup (Finset.mem_filter.mp hdraws).1 (Finset.mem_filter.mp hdraws').1
  have himage : ((drawVectors p.rules.length).filter fun draws => p.chosenRule draws = some i).image
      (arrangement xs) = (orders xs).filter fun l => l.find? (p.Applies ·) = some i := by
    rw [← image_arrangement hnodup, Finset.filter_image, hlen]
    rfl
  have happlicable : p.applicable = xs.toFinset.filter p.Applies := by
    rw [applicable, hxs, List.toFinset_range]
  rw [← Finset.card_image_of_injOn hinj, himage, happlicable,
    card_first_mul hnodup (List.mem_range.mpr h.lt_length) h, hlen]

/-- Each occurrence belongs to one value of the draw. -/
theorem existsUnique_position (h : p.Applies i) {k : Nat} (hk : k ∈ p.positions i) :
    ∃! d, d < (p.positions i).length ∧ (p.positions i)[d]? = some k := by
  obtain ⟨d, hd, hget⟩ := List.getElem_of_mem hk
  have hd' : (p.positions i)[d]? = some k := by rw [List.getElem?_eq_getElem hd, hget]
  refine ⟨d, ⟨hd, hd'⟩, ?_⟩
  rintro e ⟨he, he'⟩
  exact (List.getElem?_inj he (nodup_positions h)).mp (he'.trans hd'.symm)

end Program

/-! ### Laws -/

theorem uniformOfFinset_map_apply {α β : Type} [DecidableEq β] {s : Finset α} (hs : s.Nonempty)
    (f : α → β) (b : β) :
    (PMF.uniformOfFinset s hs).map f b = ((s.filter fun a => f a = b).card : ℝ≥0∞) / s.card := by
  rw [← PMF.toOuterMeasure_apply_singleton, PMF.toOuterMeasure_map_apply,
    PMF.toOuterMeasure_uniformOfFinset_apply]
  congr 3
  ext a
  simp

theorem natCast_div_of_mul_eq {a b c : Nat} (h : a * b = c) (hc : c ≠ 0) :
    (a : ℝ≥0∞) / c = (b : ℝ≥0∞)⁻¹ := by
  have ha : (a : ℝ≥0∞) ≠ 0 := by
    rintro ha
    rw [Nat.cast_eq_zero.mp ha, Nat.zero_mul] at h
    exact hc h.symm
  have htop : (a : ℝ≥0∞) ≠ ⊤ := ENNReal.natCast_ne_top a
  rw [← h, Nat.cast_mul, ENNReal.div_eq_inv_mul, ENNReal.mul_inv (.inl ha) (.inl htop),
    mul_right_comm, ENNReal.inv_mul_cancel ha htop, one_mul]

theorem drawVectors_nonempty (n : Nat) : (drawVectors n).Nonempty := by
  rw [← Finset.card_pos, card_drawVectors]
  exact n.factorial_pos

namespace Program

/-- The law of the rule that a pass applies, if all draws of its shuffle are uniform. -/
noncomputable def ruleLaw (p : Program) : PMF (Option Nat) :=
  (PMF.uniformOfFinset (drawVectors p.rules.length) (drawVectors_nonempty _)).map p.chosenRule

/-- The law of the occurrence that is replaced when the rule at place `i` is applied, if the draw is
uniform. -/
noncomputable def positionLaw (p : Program) (i : Nat) : PMF (Option Redex) :=
  if h : (Finset.range (p.positions i).length).Nonempty then
    (PMF.uniformOfFinset _ h).map fun d => (p.positions i)[d]?.map (Redex.mk i)
  else PMF.pure none

/-- The law of the redex of a pass, if all its draws are uniform. -/
noncomputable def redexLaw (p : Program) : PMF (Option Redex) :=
  p.ruleLaw.bind fun
    | some i => p.positionLaw i
    | none => PMF.pure none

variable {p : Program} {i : Nat}

theorem ruleLaw_apply (h : p.Applies i) : p.ruleLaw (some i) = (p.applicable.card : ℝ≥0∞)⁻¹ := by
  rw [ruleLaw, uniformOfFinset_map_apply, card_drawVectors]
  exact natCast_div_of_mul_eq (card_chosenRule_mul h) (Nat.factorial_ne_zero _)

theorem positionLaw_apply (h : p.Applies i) {k : Nat} (hk : k ∈ p.positions i) :
    p.positionLaw i (some ⟨i, k⟩) = ((p.positions i).length : ℝ≥0∞)⁻¹ := by
  have hne : (Finset.range (p.positions i).length).Nonempty :=
    Finset.nonempty_range_iff.mpr (length_positions_pos h).ne'
  obtain ⟨d, ⟨hd, hget⟩, hunique⟩ := existsUnique_position h hk
  have hfiber : (Finset.range (p.positions i).length).filter
      (fun d => (p.positions i)[d]?.map (Redex.mk i) = some ⟨i, k⟩) = {d} := by
    ext e
    rw [Finset.mem_filter, Finset.mem_range, Finset.mem_singleton]
    constructor
    · rintro ⟨he, hmap⟩
      obtain ⟨k', hk', heq⟩ := Option.map_eq_some_iff.mp hmap
      obtain ⟨-, rfl⟩ := Redex.mk.inj heq
      exact hunique e ⟨he, hk'⟩
    · rintro rfl
      exact ⟨hd, by rw [hget]; rfl⟩
  rw [positionLaw, dif_pos hne, uniformOfFinset_map_apply, hfiber, Finset.card_singleton,
    Finset.card_range, Nat.cast_one, one_div]

theorem positionLaw_apply_of_ne {i j k : Nat} (h : i ≠ j) : p.positionLaw i (some ⟨j, k⟩) = 0 := by
  unfold positionLaw
  split_ifs with hne
  · have hfiber : (Finset.range (p.positions i).length).filter
        (fun d => (p.positions i)[d]?.map (Redex.mk i) = some ⟨j, k⟩) = ∅ := by
      refine Finset.filter_eq_empty_iff.mpr fun d _ hmap => ?_
      obtain ⟨k', -, heq⟩ := Option.map_eq_some_iff.mp hmap
      exact h (Redex.mk.inj heq).1
    rw [uniformOfFinset_map_apply, hfiber, Finset.card_empty, Nat.cast_zero, ENNReal.zero_div]
  · exact PMF.pure_apply_of_ne _ _ (by simp)

theorem redexLaw_apply (h : p.Applies i) {k : Nat} (hk : k ∈ p.positions i) :
    p.redexLaw (some ⟨i, k⟩) =
      (p.applicable.card : ℝ≥0∞)⁻¹ * ((p.positions i).length : ℝ≥0∞)⁻¹ := by
  -- no other rule replaces an occurrence of this one
  rw [redexLaw, PMF.bind_apply, tsum_eq_single (some i), ruleLaw_apply h]
  · show _ * p.positionLaw i (some ⟨i, k⟩) = _
    rw [positionLaw_apply h hk]
  · rintro (_ | j) hj
    · show _ * PMF.pure none (some _) = 0
      rw [PMF.pure_apply_of_ne _ _ (by simp), mul_zero]
    · show _ * p.positionLaw j _ = 0
      rw [positionLaw_apply_of_ne (fun hji => hj (by rw [hji])), mul_zero]

/-- **Every redex is equally likely.**  Whatever the order of the `n` rules of a program, `m` of
which can be applied:

* the draws of a pass are one of the `n!` draw vectors and, for the rule that they choose, a number
  below the number of its occurrences; each draw vector is made on some tape;
* exactly `n! / m` of the draw vectors make a pass apply a given rule that can be applied, and each
  of its `k` occurrences belongs to exactly one of the numbers below `k`;
* so if the draws are uniform, the rule is applied with probability `1 / m`, and each of its
  occurrences is then replaced with probability `1 / k`. -/
theorem redex_uniform (p : Program) :
    let n := p.rules.length
    let m := p.applicable.card
    (drawVectors n).card = n ! ∧
    (∀ (C : Type) [Console C] (M : Machine C), M.program = p →
      M.orderDraws ∈ drawVectors n ∧ M.pass.applied.map (·.index) = p.chosenRule M.orderDraws ∧
      ∀ a, M.pass.applied = some a →
        let k := (p.positions a.index).length
        let d := (M.shuffledTape.below (.forPlace k) k).1
        d < k ∧ (p.positions a.index)[d]? = some a.result.position) ∧
    (n ≤ 2 ^ 64 → ∀ draws ∈ drawVectors n, ∃ ws, ((Tape.ofWords ws).shuffleDraws n).1 = draws) ∧
    ∀ i, p.Applies i →
      m ∣ n ! ∧ ((drawVectors n).filter fun draws => p.chosenRule draws = some i).card = n ! / m ∧
      p.ruleLaw (some i) = (m : ℝ≥0∞)⁻¹ ∧
      ∀ position ∈ p.positions i,
        (∃! d, d < (p.positions i).length ∧ (p.positions i)[d]? = some position) ∧
        p.positionLaw i (some ⟨i, position⟩) = ((p.positions i).length : ℝ≥0∞)⁻¹ ∧
        p.redexLaw (some ⟨i, position⟩) = (m : ℝ≥0∞)⁻¹ * ((p.positions i).length : ℝ≥0∞)⁻¹ := by
  intro n m
  refine ⟨card_drawVectors n, ?_, ?_, ?_⟩
  · rintro C _ M rfl
    refine ⟨M.orderDraws_mem, M.applied_map_index, fun a ha => ?_⟩
    obtain ⟨hr, hpos, -, -, u, v, hs, -⟩ := Machine.split_of_applied ha
    have happlies : M.program.Applies a.index := ⟨a.rule, hr, ⟨u, v, hs.symm⟩⟩
    refine ⟨Tape.below_lt _ (length_positions_pos happlies) _, ?_⟩
    rw [positions_of_getElem? hr]
    exact hpos
  · intro hn draws hdraws
    obtain ⟨ws, hws⟩ := exists_forces_shuffleDraws hn hdraws
    exact ⟨ws, (hws _ [] (by simpa using Tape.serves_ofWords ws)).1⟩
  · intro i h
    have hcard := card_chosenRule_mul h
    have hi : i ∈ p.applicable :=
      Finset.mem_filter.mpr ⟨Finset.mem_range.mpr h.lt_length, h⟩
    have hm : 0 < m := Finset.card_pos.mpr ⟨i, hi⟩
    refine ⟨⟨_, by rw [← hcard, Nat.mul_comm]⟩, ?_, ruleLaw_apply h, fun position hk => ?_⟩
    · rw [← hcard, Nat.mul_div_cancel _ hm]
    · exact ⟨existsUnique_position h hk, positionLaw_apply h hk, redexLaw_apply h hk⟩

/-- Of three rules two can be applied to `aaa`.  Half of the six draw vectors choose the later one
of them, and each of its two overlapping occurrences is as likely as the other. -/
theorem redex_uniform_overlapping :
    let rules : List Rule := [⟨['a'], .standard ['b'], by decide⟩,
      ⟨['c'], .print [], by decide⟩, ⟨['a', 'a'], .read, by decide⟩]
    let p : Program := { rules, state := ['a', 'a', 'a'] }
    p.Applies 2 ∧
      ((drawVectors 3).filter fun draws => p.chosenRule draws = some 2).card = 3 ∧
      p.redexLaw (some ⟨2, 1⟩) = (2 : ℝ≥0∞)⁻¹ * (2 : ℝ≥0∞)⁻¹ := by
  intro rules p
  have happlies : p.Applies 2 := by decide
  have hcard : p.applicable.card = 2 := by decide
  have hpositions : p.positions 2 = [0, 1] := by decide
  obtain ⟨-, -, -, hrules⟩ := redex_uniform p
  obtain ⟨-, hcount, -, hpos⟩ := hrules 2 happlies
  obtain ⟨-, -, hlaw⟩ := hpos 1 (by rw [hpositions]; decide)
  rw [hcard] at hcount hlaw
  rw [hpositions] at hlaw
  exact ⟨happlies, hcount.trans (by decide), hlaw⟩

end Program

end SemiThue
