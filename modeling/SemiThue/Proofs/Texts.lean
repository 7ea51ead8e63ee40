import Mathlib
import SemiThue.Proofs.Lines
import SemiThue.Proofs.Scripts

/-!
# SemiThue.Proofs.Texts — the scripts that have a text

The text that shows a script does not always bring it back: a return at the end of one of its lines
would become part of the line break.  With a return of its own in every line break this cannot
happen (`lines_flatMap_return`), so in that form a script can be written whenever there is any text
for it at all.
-/

namespace SemiThue

/-! ### Lines that can be read -/

/-- A line as reading leaves it: not blank, and without spaces around it. -/
structure Word.IsTrimmed (l : Word) : Prop where
  ne_nil : l ≠ []
  newline_notMem : '\n' ∉ l
  head?_ne_space : l.head? ≠ some ' '
  getLast?_ne_space : l.getLast? ≠ some ' '

namespace Word

theorem isTrimmed_delimiter : delimiter.IsTrimmed :=
  ⟨by decide, by decide, by decide, by decide⟩

/-- A line break with a return leaves every line as it is, even if the line ends with a return. -/
theorem lines_flatMap_return {ls : List Word} (h : ∀ l ∈ ls, '\n' ∉ l) :
    lines (ls.flatMap (· ++ ['\r', '\n'])) = ls := by
  have hfeed : ∀ l ∈ ls.map (· ++ ['\r']), '\n' ∉ l := by
    intro l' hl'
    obtain ⟨l, hl, rfl⟩ := List.mem_map.mp hl'
    simpa using h l hl
  have hlines := lines_flatMap hfeed
  rw [List.flatMap_map, List.map_map] at hlines
  have hmap : ls.map (dropReturn ∘ (· ++ ['\r'])) = ls :=
    (List.map_congr_left fun l _ => dropReturn_concat_return l).trans ls.map_id
  simpa [hmap] using hlines

end Word

/-- **Which lines a text can have.**  There is a text with the given significant lines exactly if
each of them is trimmed. -/
theorem exists_significant_texts_iff {ls : List Word} :
    (∃ text, (Line.significant text).map Line.text = ls) ↔ ∀ l ∈ ls, l.IsTrimmed := by
  constructor
  · rintro ⟨text, rfl⟩ l hl
    obtain ⟨line, hline, rfl⟩ := List.mem_map.mp hl
    obtain ⟨hne, hnl, hhead, hlast⟩ := trimmed_of_mem_significant hline
    exact ⟨hne, hnl, hhead, hlast⟩
  · intro h
    have hself : ls.map Word.trimSpaces = ls :=
      (List.map_congr_left fun l hl =>
        Word.trimSpaces_eq_self (h l hl).head?_ne_space (h l hl).getLast?_ne_space).trans ls.map_id
    refine ⟨ls.flatMap (· ++ ['\r', '\n']), ?_⟩
    rw [significant_texts, Word.lines_flatMap_return fun l hl => (h l hl).newline_notMem, hself]
    exact List.filter_eq_self.mpr fun l hl => by simpa using (h l hl).ne_nil

/-! ### Lines of a script -/

theorem Declaration.isTrimmed_display_iff {d : Declaration} (h : d.pattern ≠ []) :
    d.display.IsTrimmed ↔
      d.pattern.head? ≠ some ' ' ∧ '\n' ∉ d.display ∧ d.display.getLast? ≠ some ' ' := by
  have hhead := d.head?_display h
  constructor
  · rintro ⟨-, hnl, hspace, hlast⟩
    exact ⟨hhead ▸ hspace, hnl, hlast⟩
  · rintro ⟨hspace, hnl, hlast⟩
    exact ⟨by simp [display, h], hnl, hhead.symm ▸ hspace, hlast⟩

namespace Script

/-- **Which scripts a text can hold.** -/
theorem exists_parse_eq_ok_iff (s : Script) :
    (∃ text, parse text = .ok s) ↔
      (∀ d ∈ s.rules, d.pattern ≠ [] ∧ ¬ delimiter <:+: d.pattern ∧ d.pattern.head? ≠ some ' ' ∧
        (∀ text, d.action = .replace text → text ≠ Action.readMark ∧ text.head? ≠ some '~') ∧
        '\n' ∉ d.display ∧ d.display.getLast? ≠ some ' ') ∧
      s.start ≠ [] ∧ s.start ≠ delimiter ∧ '\n' ∉ s.start ∧ s.start.head? ≠ some ' ' ∧
      s.start.getLast? ≠ some ' ' := by
  simp only [parse_eq_ok_iff, exists_and_right, exists_significant_texts_iff, forall_mem_lines_iff]
  constructor
  · rintro ⟨⟨htrimmed, -, hstart⟩, hrules, hdel⟩
    refine ⟨fun d hd => ?_, hstart.ne_nil, hdel, hstart.newline_notMem, hstart.head?_ne_space,
      hstart.getLast?_ne_space⟩
    obtain ⟨hne, hfree, haction⟩ := Declaration.parse_display_iff.mp (hrules d hd)
    obtain ⟨hhead, hline⟩ := (Declaration.isTrimmed_display_iff hne).mp (htrimmed d hd)
    exact ⟨hne, hfree, hhead, Action.ofWord_display_iff.mp haction, hline⟩
  · rintro ⟨hrules, hne, hdel, hnl, hhead, hlast⟩
    refine ⟨⟨fun d hd => ?_, Word.isTrimmed_delimiter, hne, hnl, hhead, hlast⟩, fun d hd => ?_,
      hdel⟩
    · obtain ⟨hpattern, -, hspace, -, hline⟩ := hrules d hd
      exact (Declaration.isTrimmed_display_iff hpattern).mpr ⟨hspace, hline⟩
    · obtain ⟨hpattern, hfree, -, haction, -⟩ := hrules d hd
      exact Declaration.parse_display_iff.mpr
        ⟨hpattern, hfree, Action.ofWord_display_iff.mpr haction⟩

/-- A return at the end of a line is kept if the line break has one of its own. -/
example : parse "a::=b\r\r\n::=\r\nx\r\r\n".toList =
    .ok ⟨[⟨['a'], .replace ['b', '\r']⟩], ['x', '\r']⟩ := by
  decide +kernel

end Script

end SemiThue
