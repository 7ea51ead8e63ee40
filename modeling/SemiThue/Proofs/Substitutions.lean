import Mathlib
import SemiThue.Proofs.Boundaries
import SemiThue.Proofs.Pass

/-!
# SemiThue.Proofs.Substitutions — substitutions, said with words

A substitution searches byte offsets, picks one of them and cuts the state there.  What it comes to
can be said without offsets: the ways to write the state as `u ++ pattern ++ v` stand in a list
(`Word.splits`), one draw picks one of them, and the rule gives what stands between `u` and `v`
afterwards.

* `Word.occurrences_eq_map_splits`: the occurrences are the splits, each given by the bytes before
  the pattern.
* `Rule.substitute_exchanges_drawn_split` is all that a substitution does, to the state, to the tape
  and to the console.
-/

namespace SemiThue

/-! ### Splits -/

namespace Word

/-- All ways to write a word as `u ++ p ++ v`, with the shortest `u` first. -/
def splits (w p : Word) : List (Word × Word) :=
  (List.range (w.length + 1)).filterMap fun n =>
    if p <+: w.drop n then some (w.take n, (w.drop n).drop p.length) else none

theorem mem_splits_iff {w p u v : Word} : (u, v) ∈ splits w p ↔ w = u ++ p ++ v := by
  unfold splits
  rw [List.mem_filterMap]
  constructor
  · rintro ⟨n, -, h⟩
    split_ifs at h with hp
    obtain ⟨t, ht⟩ := hp
    obtain ⟨rfl, rfl⟩ := Prod.mk.inj (Option.some.inj h)
    rw [← ht, List.drop_left, List.append_assoc, ht, List.take_append_drop]
  · rintro rfl
    have hdrop : (u ++ p ++ v).drop u.length = p ++ v := by rw [List.append_assoc, List.drop_left]
    have htake : (u ++ p ++ v).take u.length = u := by rw [List.append_assoc, List.take_left]
    refine ⟨u.length, List.mem_range.mpr ?_, ?_⟩
    · simp only [List.length_append]
      omega
    · rw [hdrop, htake, if_pos (List.prefix_append p v), List.drop_left]

theorem pairwise_splits (w p : Word) :
    (splits w p).Pairwise fun a b => a.1.length < b.1.length := by
  unfold splits
  rw [List.pairwise_filterMap]
  refine List.pairwise_lt_range.imp_of_mem fun {m n} hm hn hlt a ha b hb => ?_
  rw [List.mem_range] at hm hn
  split_ifs at ha hb
  obtain rfl := Option.some.inj ha
  obtain rfl := Option.some.inj hb
  simp only [List.length_take]
  omega

/-- Of two parts of a word that stand at its beginning, the longer one has more bytes. -/
theorem byteLength_lt_of_length_lt {u u' v v' : Word} (h : u ++ v = u' ++ v')
    (hlen : u.length < u'.length) : byteLength u < byteLength u' := by
  obtain ⟨t, rfl⟩ : u <+: u' :=
    List.prefix_of_prefix_length_le ⟨v, h⟩ (List.prefix_append u' v') hlen.le
  have ht : t ≠ [] := by
    rintro rfl
    simp at hlen
  have hpos : byteLength t ≠ 0 := fun hzero => ht (byteLength_eq_zero_iff.mp hzero)
  rw [byteLength_append]
  omega

/-- The occurrences of a pattern are its splits, each given by the bytes before the pattern. -/
theorem occurrences_eq_map_splits (w : Word) {p : Word} (hp : p ≠ []) :
    occurrences w p = (splits w p).map fun s => byteLength s.1 := by
  have hsorted : ((splits w p).map fun s => byteLength s.1).Pairwise (· < ·) := by
    rw [List.pairwise_map]
    refine (pairwise_splits w p).imp_of_mem fun {a b} ha hb hlt => ?_
    have ha := mem_splits_iff.mp ha
    have hb := mem_splits_iff.mp hb
    rw [List.append_assoc] at ha hb
    exact byteLength_lt_of_length_lt (ha.symm.trans hb) hlt
  refine (pairwise_occurrences w p).eq_of_mem_iff hsorted fun i => ?_
  rw [mem_occurrences_iff hp, List.mem_map]
  constructor
  · rintro ⟨u, v, hw, rfl⟩
    exact ⟨(u, v), mem_splits_iff.mpr hw, rfl⟩
  · rintro ⟨⟨u, v⟩, hs, rfl⟩
    exact ⟨u, v, mem_splits_iff.mp hs, rfl⟩

/-- The split that belongs to an occurrence. -/
theorem getElem?_splits {w p u v : Word} (hp : p ≠ []) (hw : w = u ++ p ++ v) {d : Nat}
    (h : (occurrences w p)[d]? = some (byteLength u)) : (splits w p)[d]? = some (u, v) := by
  rw [occurrences_eq_map_splits w hp, List.getElem?_map, Option.map_eq_some_iff] at h
  obtain ⟨⟨u', v'⟩, hget, hlen⟩ := h
  have hw' := mem_splits_iff.mp (List.mem_of_getElem? hget)
  rw [hw, List.append_assoc, List.append_assoc] at hw'
  obtain ⟨rfl, htail⟩ := append_inj_of_byteLength hw' hlen.symm
  obtain rfl := List.append_cancel_left htail
  exact hget

/-- An exchange neither takes away more bytes than there are, nor comes to more than 64 bits, if the
word and what takes the place of the infix are no longer than a word can be. -/
theorem byteLength_exchange (u p v o : Word) :
    byteLength p ≤ byteLength (u ++ p ++ v) ∧
      byteLength (u ++ o ++ v) = byteLength (u ++ p ++ v) - byteLength p + byteLength o ∧
      (byteLength (u ++ p ++ v) < 2 ^ 63 → byteLength o < 2 ^ 63 →
        byteLength (u ++ o ++ v) < UInt64.size) := by
  simp only [byteLength_append, UInt64.size]
  omega

end Word

/-! ### Substitutions -/

namespace Rule

variable {C : Type} [Console C]

/-- **What a substitution does.**  Where the pattern does not occur there is no new state, and tape
and console come back as they were.  Where it occurs, one draw below the number of splits picks a
split, the console is used once, and what the rule gives takes the place of the pattern.  Both cuts
are at boundaries, and the bytes set aside, which are worked out without a fault, are those of the
new state. -/
theorem substitute_exchanges_drawn_split (r : Rule) (state : Word) (tape : Tape) (console : C) :
    let splits := state.splits r.pattern
    (splits.Pairwise (fun a b => a.1.length < b.1.length) ∧
      ∀ u v, (u, v) ∈ splits ↔ state = u ++ r.pattern ++ v) ∧
    (¬ r.pattern <:+: state → r.substitute state tape console = (.missed, tape, console)) ∧
    (r.pattern <:+: state →
      let draw := tape.below (.forPlace splits.length) splits.length
      let effect := r.kind.perform console
      draw.1 < splits.length ∧
      ∃ u v, splits[draw.1]? = some (u, v) ∧
        r.substitute state tape console =
          (.applied { position := u.byteLength, replacement := effect.1, state := u ++ effect.1 ++ v
                      events := r.kind.events console }, draw.2, effect.2) ∧
        (u ++ effect.1 ++ v).byteLength =
          state.byteLength - r.pattern.byteLength + effect.1.byteLength ∧
        state.IsBoundary u.byteLength ∧
        state.IsBoundary (u.byteLength + r.pattern.byteLength) ∧
        r.pattern.byteLength ≤ state.byteLength ∧
        Word.room? state.byteLength r.pattern.byteLength effect.1.byteLength =
          some (u ++ effect.1 ++ v).byteLength ∧
        (state.byteLength < 2 ^ 63 → effect.1.byteLength < 2 ^ 63 →
          (u ++ effect.1 ++ v).byteLength < UInt64.size)) := by
  intro splits
  refine ⟨⟨Word.pairwise_splits _ _, fun u v => Word.mem_splits_iff⟩,
    r.substitute_of_not_occurs tape console, fun h => ?_⟩
  intro draw effect
  have hcount : (state.occurrences r.pattern).length = splits.length := by
    rw [Word.occurrences_eq_map_splits state r.pattern_ne_nil, List.length_map]
  have hne : state.occurrences r.pattern ≠ [] := fun hnil => r.occurrences_eq_nil_iff.mp hnil h
  have hpos : 0 < splits.length := hcount ▸ List.length_pos_of_ne_nil hne
  obtain ⟨u, v, hs, hget, hsub⟩ := r.substitute_of_occurs tape console h
  rw [hcount] at hget hsub
  obtain ⟨hstart, hstop⟩ :=
    Word.isBoundary_of_mem_occurrences r.pattern_ne_nil (List.mem_of_getElem? hget)
  have hsplit := Word.getElem?_splits r.pattern_ne_nil hs hget
  subst hs
  obtain ⟨hle, hlen, hsize⟩ := Word.byteLength_exchange u r.pattern v effect.1
  exact ⟨tape.below_lt _ hpos, u, v, hsplit, hsub, hlen, hstart, hstop, hle,
    Word.room?_infix u r.pattern v effect.1, hsize⟩

/-- The later one of two overlapping occurrences is drawn, and a line of input takes its place.  In
a state without the pattern the same tape and console are left alone. -/
theorem substitute_exchanges_drawn_split_later :
    let r : Rule := ⟨['a', 'a'], .read, by decide⟩
    let state : Word := ['ä', 'a', 'a', 'a']
    let tape : Tape := .ofWords [2147483648]
    let console : Buffer := ⟨[['€']], []⟩
    r.pattern <:+: state ∧ ¬ r.pattern <:+: ['a', 'ä', 'a'] ∧
      r.substitute state tape console =
        (.applied { position := 3, replacement := ['€'], state := ['ä', 'a', '€'], events := [] },
          (tape.below .single 2).2, ⟨[], []⟩) ∧
      r.substitute ['a', 'ä', 'a'] tape console = (.missed, tape, console) := by
  intro r state tape console
  have hin : r.pattern <:+: state := by decide
  have hout : ¬ r.pattern <:+: ['a', 'ä', 'a'] := by decide
  have hsplits : state.splits r.pattern = [(['ä'], ['a']), (['ä', 'a'], [])] := by decide +kernel
  have hdraw : (tape.below .single 2).1 = 1 := by decide +kernel
  obtain ⟨-, -, hoccurs⟩ := substitute_exchanges_drawn_split r state tape console
  obtain ⟨-, u, v, hget, hnew, -⟩ := hoccurs hin
  obtain ⟨-, hnone, -⟩ := substitute_exchanges_drawn_split r ['a', 'ä', 'a'] tape console
  have hcount : (state.splits r.pattern).length = 2 := by rw [hsplits]; rfl
  have hwidth : Width.forPlace 2 = .single := rfl
  rw [hcount, hwidth, hdraw, hsplits] at hget
  rw [hcount, hwidth] at hnew
  obtain ⟨rfl, rfl⟩ := Prod.mk.inj (Option.some.inj hget)
  exact ⟨hin, hout, hnew, hnone hout⟩

end Rule

end SemiThue
