import Mathlib
import SemiThue.Program
import SemiThue.Proofs.Lines
import SemiThue.Proofs.Scripts

/-!
# SemiThue.Proofs.Reparse — which programs are read back

The text of a program is read line by line, so a program is read back exactly if no step was made,
each of its lines is read as it was written (`Word.IsClean`), and each is read as what it was
written for (`Script.IsReadable`).

The lines of a script that was itself read from a text have been trimmed already.  Only a return at
the end of a line can then be lost.  It is text where no line feed follows it: at the end of a text,
before another return, or before spaces that are trimmed.  But the line feed that is shown after the
line makes it a line break.
-/

namespace SemiThue

/-! ### Programs and their scripts -/

theorem Kind.toAction_eq_replace_iff {k : Kind} {text : Word} :
    k.toAction = .replace text ↔ k = .standard text := by
  cases k <;> simp [toAction]

namespace Rule

/-- The rule of a declaration is the one that leads back to it: both conversions keep the pattern,
and neither confuses two kinds of rules. -/
theorem ofDeclaration_eq_ok_iff {d : Declaration} {r : Rule} :
    ofDeclaration d = .ok r ↔ d = r.toDeclaration := by
  unfold ofDeclaration make
  constructor
  · intro h
    split_ifs at h
    rw [← Except.ok.inj h, toDeclaration, Kind.toAction_ofAction]
  · rintro rfl
    rw [toDeclaration, dif_neg r.pattern_ne_nil, Kind.ofAction_toAction]

theorem ofDeclaration_eq_error_iff {d : Declaration} {e : ProgramError} :
    ofDeclaration d = .error e ↔ e = .emptyPattern ∧ d.pattern = [] := by
  unfold ofDeclaration make
  split_ifs with hempty
  · simp [hempty, eq_comm]
  · simp [hempty]

theorem map_ofDeclaration_eq_iff {ds : List Declaration} {rules : List Rule} :
    ds.map ofDeclaration = rules.map .ok ↔ ds = rules.map toDeclaration := by
  induction ds generalizing rules with
  | nil => cases rules <;> simp
  | cons d ds ih =>
    cases rules with
    | nil => simp
    | cons r rules => simp [ih, ofDeclaration_eq_ok_iff]

/-- Declarations are those of rules exactly if none of their patterns is empty. -/
theorem exists_map_toDeclaration_iff {ds : List Declaration} :
    (∃ rules : List Rule, ds = rules.map toDeclaration) ↔ ∀ d ∈ ds, d.pattern ≠ [] := by
  constructor
  · rintro ⟨rules, rfl⟩ d hd
    obtain ⟨r, -, rfl⟩ := List.mem_map.mp hd
    exact r.pattern_ne_nil
  · intro h
    have hrange : ds ∈ Set.range (List.map toDeclaration) := by
      rw [Set.range_list_map]
      intro d hd
      refine ⟨⟨d.pattern, .ofAction d.action, h d hd⟩, ?_⟩
      rw [toDeclaration, Kind.toAction_ofAction]
    obtain ⟨rules, hrules⟩ := hrange
    exact ⟨rules, hrules.symm⟩

end Rule

namespace Program

/-- The script that a program would continue from. -/
def script (p : Program) : Script := { rules := p.rules.map Rule.toDeclaration, start := p.state }

/-- **The two printers agree**: a program is shown as its script is. -/
theorem display_eq_script_display (p : Program) : p.display = p.script.display := by
  unfold display script Script.display
  rw [List.flatMap_map]
  rfl

theorem ofScript_eq_ok_iff {s : Script} {p : Program} :
    ofScript s = .ok p ↔ s = p.script ∧ p.steps = 0 := by
  obtain ⟨rules, state, steps⟩ := p
  obtain ⟨ds, start⟩ := s
  have hrules : ds.mapM Rule.ofDeclaration = .ok rules ↔ ds = rules.map Rule.toDeclaration :=
    mapM_eq_ok_iff.trans Rule.map_ofDeclaration_eq_iff
  unfold ofScript script
  dsimp only
  rw [Script.mk.injEq, ← hrules]
  cases ds.mapM Rule.ofDeclaration with
  | error e => simp [bind, Except.bind]
  | ok rules' =>
    simp only [bind, Except.bind, pure, Except.pure, Except.ok.injEq, mk.injEq]
    constructor
    · rintro ⟨rfl, rfl, rfl⟩
      exact ⟨⟨rfl, rfl⟩, rfl⟩
    · rintro ⟨⟨rfl, rfl⟩, rfl⟩
      exact ⟨rfl, rfl, rfl⟩

theorem parse_eq_ok_iff {text : Word} {p : Program} :
    parse text = .ok p ↔ Script.parse text = .ok p.script ∧ p.steps = 0 := by
  unfold parse
  cases hs : Script.parse text with
  | error e => simp
  | ok s => simp [ofScript_eq_ok_iff]

theorem parse_of_error {text : Word} {e : ParseError} (h : Script.parse text = .error e) :
    parse text = .error (.parse e) := by
  rw [parse, h]

/-- A script is that of a program exactly if none of its patterns is empty. -/
theorem exists_script_eq_iff {s : Script} :
    (∃ p : Program, p.script = s ∧ p.steps = 0) ↔ ∀ d ∈ s.rules, d.pattern ≠ [] := by
  rw [← Rule.exists_map_toDeclaration_iff]
  constructor
  · rintro ⟨p, rfl, -⟩
    exact ⟨p.rules, rfl⟩
  · rintro ⟨rules, hrules⟩
    exact ⟨{ rules, state := s.start }, by rw [script, ← hrules], rfl⟩

/-- Every script that a text holds is that of a program: none of its patterns is empty. -/
theorem exists_parse_eq_ok {text : Word} {s : Script} (h : Script.parse text = .ok s) :
    ∃ p, parse text = .ok p ∧ p.script = s := by
  have hpatterns : ∀ d ∈ s.rules, d.pattern ≠ [] := by
    intro d hd
    have hread := (Script.parse_eq_ok_iff.mp h).2.rules d hd
    exact (Declaration.parse_display_iff.mp hread).1
  obtain ⟨p, rfl, hsteps⟩ := exists_script_eq_iff.mpr hpatterns
  exact ⟨p, parse_eq_ok_iff.mpr ⟨h, hsteps⟩, rfl⟩

/-! ### The condition on each line -/

theorem isReadable_script_iff {p : Program} :
    p.script.IsReadable ↔
      (∀ r ∈ p.rules, ¬ delimiter <:+: r.pattern ∧
        ∀ text, r.kind = .standard text → text ≠ Action.readMark ∧ text.head? ≠ some '~') ∧
      p.state ≠ delimiter := by
  constructor
  · rintro ⟨hrules, hstart⟩
    refine ⟨fun r hr => ?_, hstart⟩
    obtain ⟨-, hdel, haction⟩ :=
      Declaration.parse_display_iff.mp (hrules r.toDeclaration (List.mem_map_of_mem hr))
    refine ⟨hdel, fun text htext => ?_⟩
    exact Action.ofWord_display_iff.mp haction text (Kind.toAction_eq_replace_iff.mpr htext)
  · rintro ⟨hrules, hstart⟩
    refine ⟨fun d hd => ?_, hstart⟩
    obtain ⟨r, hr, rfl⟩ := List.mem_map.mp hd
    obtain ⟨hdel, hkind⟩ := hrules r hr
    have haction : Action.ofWord r.kind.toAction.display = r.kind.toAction :=
      Action.ofWord_display_iff.mpr fun text htext =>
        hkind text (Kind.toAction_eq_replace_iff.mp htext)
    exact Declaration.parse_display_iff.mpr ⟨r.pattern_ne_nil, hdel, haction⟩

theorem isClean_display_iff {r : Rule} :
    r.display.IsClean ↔ r.pattern.head? ≠ some ' ' ∧ '\n' ∉ r.display ∧
      r.display.getLast? ≠ some ' ' ∧ r.display.getLast? ≠ some '\r' := by
  have hdisplay : r.display.head? = r.pattern.head? :=
    Declaration.head?_display (d := r.toDeclaration) r.pattern_ne_nil
  constructor
  · rintro ⟨-, hnl, hhead, hspace, hreturn⟩
    exact ⟨hdisplay ▸ hhead, hnl, hspace, hreturn⟩
  · rintro ⟨hhead, hnl, hspace, hreturn⟩
    have hne : r.display ≠ [] := by simp [Rule.display, Declaration.display, delimiter]
    exact ⟨hne, hnl, hdisplay.symm ▸ hhead, hspace, hreturn⟩

theorem isClean_delimiter : delimiter.IsClean :=
  ⟨by decide, by decide, by decide, by decide, by decide⟩

theorem isClean_lines_iff {p : Program} :
    (∀ l ∈ p.script.lines, l.IsClean) ↔ (∀ r ∈ p.rules, r.display.IsClean) ∧ p.state.IsClean := by
  rw [Script.forall_mem_lines_iff]
  simp [script, Rule.display, isClean_delimiter]

/-- **When the text of a program is read back as the same program.** -/
theorem parse_display_eq_ok_iff (p : Program) :
    parse p.display = .ok p ↔
      p.steps = 0 ∧
      (∀ r ∈ p.rules, ¬ delimiter <:+: r.pattern ∧ r.pattern.head? ≠ some ' ' ∧
        (∀ text, r.kind = .standard text → text ≠ Action.readMark ∧ text.head? ≠ some '~') ∧
        '\n' ∉ r.display ∧ r.display.getLast? ≠ some ' ' ∧ r.display.getLast? ≠ some '\r') ∧
      p.state ≠ [] ∧ p.state ≠ delimiter ∧ '\n' ∉ p.state ∧ p.state.head? ≠ some ' ' ∧
      p.state.getLast? ≠ some ' ' ∧ p.state.getLast? ≠ some '\r' := by
  rw [parse_eq_ok_iff, display_eq_script_display, Script.parse_eq_ok_iff, Script.display_eq_flatMap,
    significant_texts_eq_iff, isClean_lines_iff, isReadable_script_iff]
  constructor
  · rintro ⟨⟨⟨hclean, hstate⟩, hrules, hstart⟩, hsteps⟩
    refine ⟨hsteps, fun r hr => ?_, hstate.ne_nil, hstart, hstate.newline_notMem,
      hstate.head?_ne_space, hstate.getLast?_ne_space, hstate.getLast?_ne_return⟩
    obtain ⟨hhead, hline⟩ := isClean_display_iff.mp (hclean r hr)
    exact ⟨(hrules r hr).1, hhead, (hrules r hr).2, hline⟩
  · rintro ⟨hsteps, hrules, hne, hstart, hnl, hhead, hspace, hreturn⟩
    refine ⟨⟨⟨fun r hr => ?_, hne, hnl, hhead, hspace, hreturn⟩, fun r hr => ?_, hstart⟩, hsteps⟩
    · obtain ⟨-, hhead, -, hline⟩ := hrules r hr
      exact isClean_display_iff.mpr ⟨hhead, hline⟩
    · obtain ⟨hdel, -, hkind, -⟩ := hrules r hr
      exact ⟨hdel, hkind⟩

end Program

/-! ### Scripts that were read -/

namespace Script

theorem isClean_iff_of_parse {text : Word} {s : Script} (h : parse text = .ok s) {l : Word}
    (hl : l ∈ s.lines) : l.IsClean ↔ l.getLast? ≠ some '\r' := by
  rw [← (parse_eq_ok_iff.mp h).1] at hl
  obtain ⟨line, hline, rfl⟩ := List.mem_map.mp hl
  obtain ⟨hne, hnl, hhead, hspace⟩ := trimmed_of_mem_significant hline
  exact ⟨Word.IsClean.getLast?_ne_return, fun hreturn => ⟨hne, hnl, hhead, hspace, hreturn⟩⟩

/-- **When a script that was read is read back** from its own text. -/
theorem reparse_eq_ok_iff {text : Word} {s : Script} (h : parse text = .ok s) :
    parse s.display = .ok s ↔
      (∀ d ∈ s.rules, d.display.getLast? ≠ some '\r') ∧ s.start.getLast? ≠ some '\r' := by
  have hread : s.IsReadable := (parse_eq_ok_iff.mp h).2
  have hlines : (∀ l ∈ s.lines, l.IsClean) ↔ ∀ l ∈ s.lines, l.getLast? ≠ some '\r' :=
    forall₂_congr fun l hl => isClean_iff_of_parse h hl
  rw [parse_eq_ok_iff, display_eq_flatMap, significant_texts_eq_iff, and_iff_left hread, hlines]
  simp [lines, delimiter, or_imp, forall_and]

theorem reparse_eq_ok_iff_tidy :
    let s : Script := ⟨[⟨"a\r".toList, .replace "b".toList⟩], "x".toList⟩
    parse "a\r::=b\r\n\n::=\n  x ".toList = .ok s ∧ parse s.display = .ok s :=
  have hparse : parse "a\r::=b\r\n\n::=\n  x ".toList = .ok _ := by decide +kernel
  ⟨hparse, (reparse_eq_ok_iff hparse).mpr (by decide)⟩

/-- A return at the end of a text is part of the start state, and is not read back. -/
theorem not_reparse_of_last_return :
    parse "::=\nx\r".toList = .ok ⟨[], "x\r".toList⟩ ∧
      parse (display ⟨[], "x\r".toList⟩) = .ok ⟨[], "x".toList⟩ ∧
      ¬ ∀ text s, parse text = .ok s → parse s.display = .ok s := by
  have hparse : parse "::=\nx\r".toList = .ok ⟨[], "x\r".toList⟩ := by decide +kernel
  have hreparse : parse (display ⟨[], "x\r".toList⟩) = .ok ⟨[], "x".toList⟩ := by decide +kernel
  refine ⟨hparse, hreparse, fun hall => ?_⟩
  have heq := hreparse.symm.trans (hall _ _ hparse)
  revert heq
  decide

end Script

end SemiThue
