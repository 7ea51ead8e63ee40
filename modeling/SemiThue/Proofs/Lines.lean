import Mathlib
import SemiThue.Word

/-!
# SemiThue.Proofs.Lines — texts made of lines

* `lines_flatMap`: in a text whose lines all end with a line feed, each line is read back without a
  carriage return at its end, as long as it contains no line feed of its own.
* `trimSpaces_eq_self`: a word is trimmed already if it neither begins nor ends with a space.
* `significant_texts`: what is left of the lines once they are trimmed and the blank ones are left
  out.
* `significant_texts_eq_iff`: which lines are left exactly as they were written.
-/

namespace SemiThue
namespace Word

/-! ### Spaces -/

theorem isInfix_trimSpaces (w : Word) : trimSpaces w <:+: w :=
  (List.rdropWhile_prefix (· == ' ') (w.dropWhile (· == ' '))).isInfix.trans
    (List.dropWhile_suffix (· == ' ')).isInfix

theorem head?_dropWhile_space (w : Word) : (w.dropWhile (· == ' ')).head? ≠ some ' ' := by
  intro h
  have hnot := List.head?_dropWhile_not (· == ' ') w
  rw [h] at hnot
  simp at hnot

theorem getLast?_trimSpaces (w : Word) : (trimSpaces w).getLast? ≠ some ' ' := by
  unfold trimSpaces
  rw [List.getLast?_reverse]
  exact head?_dropWhile_space _

theorem head?_trimSpaces (w : Word) : (trimSpaces w).head? ≠ some ' ' := by
  intro h
  obtain ⟨rest, hrest⟩ : trimSpaces w <+: w.dropWhile (· == ' ') :=
    List.rdropWhile_prefix (· == ' ') _
  refine head?_dropWhile_space w ?_
  rw [← hrest, List.head?_append, h, Option.some_or]

theorem dropWhile_space_eq_self {w : Word} (h : w.head? ≠ some ' ') :
    w.dropWhile (· == ' ') = w := by
  cases w with
  | nil => rfl
  | cons c w =>
    have hc : c ≠ ' ' := by simpa using h
    simp [hc]

/-- A word is trimmed already if it neither begins nor ends with a space. -/
theorem trimSpaces_eq_self {w : Word} (hhead : w.head? ≠ some ' ') (hlast : w.getLast? ≠ some ' ') :
    trimSpaces w = w := by
  have hreverse : w.reverse.head? ≠ some ' ' := by rwa [List.head?_reverse]
  unfold trimSpaces
  rw [dropWhile_space_eq_self hhead, dropWhile_space_eq_self hreverse, List.reverse_reverse]

/-! ### Line breaks -/

/-- A line without the carriage return at its end, if there is one. -/
def dropReturn (l : Word) : Word := if l.getLast? = some '\r' then l.dropLast else l

theorem isPrefix_dropReturn (l : Word) : dropReturn l <+: l := by
  unfold dropReturn
  split_ifs
  · exact l.dropLast_prefix
  · exact List.prefix_rfl

theorem dropReturn_eq_self_iff {l : Word} : dropReturn l = l ↔ l.getLast? ≠ some '\r' := by
  unfold dropReturn
  constructor
  · intro h hlast
    have hne : l ≠ [] := List.ne_nil_of_mem (List.mem_of_getLast? hlast)
    rw [if_pos hlast] at h
    have hlen := congrArg List.length h
    have hpos := List.length_pos_of_ne_nil hne
    rw [List.length_dropLast] at hlen
    omega
  · intro h
    exact if_neg h

theorem dropReturn_cons_cons (c d : Char) (l : Word) :
    dropReturn (c :: d :: l) = c :: dropReturn (d :: l) := by
  unfold dropReturn
  rw [List.getLast?_cons_cons]
  split_ifs <;> rfl

theorem dropReturn_concat_return (l : Word) : dropReturn (l ++ ['\r']) = l := by
  rw [dropReturn, if_pos List.getLast?_concat, List.dropLast_concat]

theorem lines_cons {c : Char} {w : Word} (hc : c ≠ '\n') (hr : c = '\r' → w.head? ≠ some '\n') :
    lines (c :: w) = match lines w with
      | [] => [[c]]
      | l :: ls => (c :: l) :: ls := by
  refine lines.eq_4 c w hc ?_
  rintro w' rfl rfl
  exact hr rfl rfl

/-- The first line of a text, up to its line feed. -/
theorem lines_append_newline : ∀ {l : Word} (w : Word), '\n' ∉ l →
    lines (l ++ '\n' :: w) = dropReturn l :: lines w
  | [], w, _ => by rw [List.nil_append, lines]; rfl
  | [c], w, h => by
    have hc : c ≠ '\n' := fun hc => h (by simp [hc])
    by_cases hr : c = '\r'
    · subst hr
      rw [List.singleton_append, lines]
      rfl
    · rw [List.singleton_append, lines_cons hc (fun hr' => absurd hr' hr), lines, dropReturn,
        if_neg (by simpa using hr)]
  | c :: d :: l, w, h => by
    have hc : c ≠ '\n' := fun hc => h (by simp [hc])
    have hd : d ≠ '\n' := fun hd => h (by simp [hd])
    have ih := lines_append_newline w (fun hl => h (List.mem_cons_of_mem c hl) : '\n' ∉ d :: l)
    rw [List.cons_append, lines_cons hc (fun _ => by simpa using hd), ih, dropReturn_cons_cons]

theorem lines_flatMap {ls : List Word} (h : ∀ l ∈ ls, '\n' ∉ l) :
    lines (ls.flatMap (· ++ ['\n'])) = ls.map dropReturn := by
  induction ls with
  | nil => rfl
  | cons l ls ih =>
    have hl : '\n' ∉ l := h l List.mem_cons_self
    rw [List.flatMap_cons, List.append_assoc, List.singleton_append, lines_append_newline _ hl,
      ih fun l' hl' => h l' (List.mem_cons_of_mem l hl'), List.map_cons]

/-- No line contains a line feed. -/
theorem newline_notMem_of_mem_lines {w : Word} : ∀ l ∈ lines w, '\n' ∉ l := by
  fun_induction lines w with
  | case1 => simp
  | case2 w ih => simpa using ih
  | case3 w ih => simpa using ih
  | case4 c w hc hr hw ih =>
    intro l hl
    rw [List.mem_singleton.mp hl]
    simpa using fun h => hc h.symm
  | case5 c w hc hr l ls hw ih =>
    intro l' hl'
    rcases List.mem_cons.mp hl' with rfl | hl'
    · have hl := ih l (by rw [hw]; exact List.mem_cons_self)
      simpa [hl] using fun h => hc h.symm
    · exact ih l' (by rw [hw]; exact List.mem_cons_of_mem l hl')

end Word

/-! ### Significant lines -/

open Word

theorem numbered_cons (n : Nat) (l : Word) (ls : List Word) :
    Line.numbered n (l :: ls) =
      (if trimSpaces l = [] then [] else [⟨n, trimSpaces l⟩]) ++ Line.numbered (n + 1) ls := by
  unfold Line.numbered
  rw [List.zipIdx_cons, List.filterMap_cons]
  by_cases hl : trimSpaces l = []
  · simp [hl]
  · simp [hl]

theorem numbered_texts (n : Nat) (ls : List Word) :
    (Line.numbered n ls).map Line.text = (ls.map trimSpaces).filter fun t => !t.isEmpty := by
  induction ls generalizing n with
  | nil => rfl
  | cons l ls ih =>
    rw [numbered_cons, List.map_append, ih, List.map_cons, List.filter_cons]
    by_cases hl : trimSpaces l = []
    · simp [hl]
    · simp [hl]

/-- The lines of a text that are not blank, without their numbers. -/
theorem significant_texts (text : Word) :
    (Line.significant text).map Line.text =
      ((lines text).map trimSpaces).filter fun t => !t.isEmpty :=
  numbered_texts 1 (lines text)

/-- What every line looks like that is not blank. -/
theorem trimmed_of_mem_significant {text : Word} {line : Line} (h : line ∈ Line.significant text) :
    line.text ≠ [] ∧ '\n' ∉ line.text ∧ line.text.head? ≠ some ' ' ∧
      line.text.getLast? ≠ some ' ' := by
  have hmem : line.text ∈ (Line.significant text).map Line.text := List.mem_map_of_mem h
  rw [significant_texts, List.mem_filter] at hmem
  obtain ⟨htrim, hne⟩ := hmem
  obtain ⟨l, hl, hlt⟩ := List.mem_map.mp htrim
  rw [← hlt] at hne ⊢
  refine ⟨by simpa using hne, fun hnl => ?_, head?_trimSpaces l, getLast?_trimSpaces l⟩
  exact newline_notMem_of_mem_lines l hl ((isInfix_trimSpaces l).subset hnl)

/-- A line that is read as it was written. -/
structure Word.IsClean (l : Word) : Prop where
  ne_nil : l ≠ []
  newline_notMem : '\n' ∉ l
  head?_ne_space : l.head? ≠ some ' '
  getLast?_ne_space : l.getLast? ≠ some ' '
  getLast?_ne_return : l.getLast? ≠ some '\r'

/-- **Lines that are read back.**  The significant lines of a text are the lines that it was made of
exactly if all of these are clean. -/
theorem significant_texts_eq_iff {ls : List Word} :
    (Line.significant (ls.flatMap (· ++ ['\n']))).map Line.text = ls ↔ ∀ l ∈ ls, l.IsClean := by
  constructor
  · intro h l hl
    have htrimmed : ∀ l ∈ ls, l ≠ [] ∧ '\n' ∉ l ∧ l.head? ≠ some ' ' ∧ l.getLast? ≠ some ' ' := by
      intro l hl
      rw [← h] at hl
      obtain ⟨line, hline, rfl⟩ := List.mem_map.mp hl
      exact trimmed_of_mem_significant hline
    -- no line is lost, so each is read back from its own place
    have hlines : (ls.map fun l => trimSpaces (dropReturn l)) = ls := by
      rw [significant_texts, lines_flatMap fun l hl => (htrimmed l hl).2.1, List.map_map] at h
      have hlen := congrArg List.length h
      have hall := List.length_filter_eq_length_iff.mp (hlen.trans (by simp))
      rwa [List.filter_eq_self.mpr hall] at h
    have hself : trimSpaces (dropReturn l) = l :=
      List.map_inj_left.mp (hlines.trans ls.map_id.symm) l hl
    have hlen : l.length ≤ (dropReturn l).length := by
      have hle := (isInfix_trimSpaces (dropReturn l)).length_le
      rwa [hself] at hle
    obtain ⟨hne, hnl, hhead, hlast⟩ := htrimmed l hl
    refine ⟨hne, hnl, hhead, hlast, dropReturn_eq_self_iff.mp ?_⟩
    exact (isPrefix_dropReturn l).eq_of_length_le hlen
  · intro h
    have hself : ∀ l ∈ ls, trimSpaces (dropReturn l) = l := by
      intro l hl
      have hclean := h l hl
      rw [dropReturn_eq_self_iff.mpr hclean.getLast?_ne_return,
        trimSpaces_eq_self hclean.head?_ne_space hclean.getLast?_ne_space]
    have hmap : ls.map (trimSpaces ∘ dropReturn) = ls :=
      (List.map_congr_left hself).trans ls.map_id
    rw [significant_texts, lines_flatMap fun l hl => (h l hl).newline_notMem, List.map_map, hmap]
    exact List.filter_eq_self.mpr fun l hl => by simpa using (h l hl).ne_nil

end SemiThue
