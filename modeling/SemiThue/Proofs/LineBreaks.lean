import Mathlib
import SemiThue.Proofs.Lines

/-!
# SemiThue.Proofs.LineBreaks — what the lines of a sequence are

Texts are cut into lines, and so are the bytes of standard input.  `linesBetween` says what the
lines are in both cases, without going through the sequence entry by entry: cut it at every line
feed, and drop a return at the end of every part that a line feed ended.

* `line_induction`: a sequence is a line without an end, or a line, its line feed and the rest.
* `Word.lines_eq_linesBetween`: the lines of a text are these.
-/

namespace SemiThue

variable {α : Type} [DecidableEq α]

/-- A sequence without its last entry, if that is `x`. -/
def dropLastIf (x : α) (l : List α) : List α := if l.getLast? = some x then l.dropLast else l

/-- The lines of a sequence in which `feed` ends a line.  One `ret` directly before the `feed`
belongs to the line break.  What stands after the last `feed` is a line as it is, unless there is
nothing. -/
def linesBetween (feed ret : α) (xs : List α) : List (List α) :=
  let parts := xs.splitOn feed
  parts.dropLast.map (dropLastIf ret) ++ (parts.getLast?.filter (· ≠ [])).toList

variable {feed ret : α}

theorem linesBetween_of_notMem {l : List α} (h : feed ∉ l) :
    linesBetween feed ret l = if l = [] then [] else [l] := by
  unfold linesBetween
  rw [List.splitOn_eq_singleton h]
  by_cases hl : l = []
  · simp [hl]
  · simp [hl]

theorem linesBetween_append_feed {l : List α} (h : feed ∉ l) (w : List α) :
    linesBetween feed ret (l ++ feed :: w) = dropLastIf ret l :: linesBetween feed ret w := by
  have hne : w.splitOn feed ≠ [] := List.splitOn_ne_nil feed w
  unfold linesBetween
  rw [List.splitOn_append_cons_self_of_not_mem h]
  simp only [List.dropLast_cons_of_ne_nil hne, List.map_cons, List.cons_append,
    List.getLast?_cons_of_ne_nil hne]

/-- Every sequence is a line without an end, or begins with a line and its `feed`. -/
@[elab_as_elim]
theorem line_induction (feed : α) {P : List α → Prop} (last : ∀ l, feed ∉ l → P l)
    (line : ∀ l w, feed ∉ l → P w → P (l ++ feed :: w)) (xs : List α) : P xs := by
  induction hn : xs.length using Nat.strong_induction_on generalizing xs with
  | _ n ih =>
    by_cases h : feed ∈ xs
    · obtain ⟨l, w, rfl, hl⟩ := List.eq_append_cons_of_mem h
      have hshorter : w.length < n := by
        rw [← hn, List.length_append, List.length_cons]
        omega
      exact line l w hl (ih w.length hshorter w rfl)
    · exact last xs h

namespace Word

theorem lines_of_notMem {l : Word} (h : '\n' ∉ l) : lines l = if l = [] then [] else [l] := by
  induction l with
  | nil => rfl
  | cons c l ih =>
    obtain ⟨hc, hl⟩ : '\n' ≠ c ∧ '\n' ∉ l := by simpa using h
    have hhead : l.head? ≠ some '\n' := fun hhead => hl (List.mem_of_head? hhead)
    rw [lines_cons hc.symm fun _ => hhead, ih hl, if_neg (List.cons_ne_nil c l)]
    by_cases hnil : l = []
    · rw [if_pos hnil, hnil]
    · rw [if_neg hnil]

/-- **The lines of a text** are what stands between its line feeds. -/
theorem lines_eq_linesBetween (text : Word) : lines text = linesBetween '\n' '\r' text := by
  induction text using line_induction '\n' with
  | last l h => rw [lines_of_notMem h, linesBetween_of_notMem h]
  | line l w h ih =>
    rw [lines_append_newline w h, linesBetween_append_feed h, ih]
    rfl

end Word

end SemiThue
