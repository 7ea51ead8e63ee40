import Mathlib
import SemiThue.Proofs.Reparse

/-!
# SemiThue.Proofs.Conversion — scripts and the programs that run them

A program is made from a script by checking that no pattern is empty.  The reader of rule lines has
checked this already, so no script that was read from a text fails the check: reading a program from
a text fails exactly where reading its script does, for the same reason
(`Program.parse_eq_error_iff`).

Nothing is lost on the way.  Each declaration becomes a rule of the kind that its action asks for,
each rule leads back to its declaration, and although programs and scripts have printers of their
own, a program is shown by the text of its script (`Program.display_eq_of_ofScript`).
-/

namespace SemiThue
namespace Program

/-! ### Scripts that no program runs -/

theorem exists_ofScript_eq_ok_iff {s : Script} :
    (∃ p, ofScript s = .ok p) ↔ ∀ d ∈ s.rules, d.pattern ≠ [] := by
  rw [← exists_script_eq_iff]
  simp only [ofScript_eq_ok_iff, eq_comm (a := s)]

theorem exists_empty_of_ofScript {s : Script} {e : ProgramError} (h : ofScript s = .error e) :
    e = .emptyPattern ∧ ∃ d ∈ s.rules, d.pattern = [] := by
  unfold ofScript at h
  cases hrules : s.rules.mapM Rule.ofDeclaration with
  | error e' =>
    rw [hrules] at h
    cases h
    obtain ⟨d, hd, he⟩ := exists_of_mapM_eq_error hrules
    obtain ⟨rfl, hempty⟩ := Rule.ofDeclaration_eq_error_iff.mp he
    exact ⟨rfl, d, hd, hempty⟩
  | ok rules =>
    rw [hrules] at h
    cases h

/-- The only objection to a script is that one of its patterns is empty. -/
theorem ofScript_eq_error_iff {s : Script} {e : ProgramError} :
    ofScript s = .error e ↔ e = .emptyPattern ∧ ∃ d ∈ s.rules, d.pattern = [] := by
  refine ⟨exists_empty_of_ofScript, ?_⟩
  rintro ⟨rfl, d, hd, hempty⟩
  cases h : ofScript s with
  | error e => rw [(exists_empty_of_ofScript h).1]
  | ok p => exact absurd hempty (exists_ofScript_eq_ok_iff.mp ⟨p, h⟩ d hd)

/-! ### Texts -/

/-- The objections to a text as a program are those to it as a script. -/
theorem parse_eq_error_iff {text : Word} {e : ProgramError} :
    parse text = .error e ↔ ∃ cause, e = .parse cause ∧ Script.parse text = .error cause := by
  constructor
  · intro h
    cases hs : Script.parse text with
    | error cause =>
      rw [parse_of_error hs] at h
      exact ⟨cause, (Except.error.inj h).symm, rfl⟩
    | ok s =>
      obtain ⟨p, hp, -⟩ := exists_parse_eq_ok hs
      rw [hp] at h
      cases h
  · rintro ⟨cause, rfl, hs⟩
    exact parse_of_error hs

/-- A text is read as a program exactly if it is read as the script of that program. -/
theorem exists_parse_eq_ok_iff_script {text : Word} :
    (∃ p, parse text = .ok p) ↔ ∃ s, Script.parse text = .ok s := by
  constructor
  · rintro ⟨p, hp⟩
    exact ⟨p.script, (parse_eq_ok_iff.mp hp).1⟩
  · rintro ⟨s, hs⟩
    obtain ⟨p, hp, -⟩ := exists_parse_eq_ok hs
    exact ⟨p, hp⟩

/-- The text of a program: its rules line by line, the delimiter and the current state. -/
theorem display_eq_lines (p : Program) :
    p.display =
      (p.rules.map (fun r => r.pattern ++ delimiter ++ r.kind.toAction.display) ++
        [delimiter, p.state]).flatMap (· ++ ['\n']) := by
  rw [display_eq_script_display, Script.display_eq_flatMap, Script.lines, script, List.map_map]
  rfl

/-! ### What is kept -/

/-- The rules of a program are those that the declarations of its script ask for. -/
theorem rules_eq_of_ofScript {s : Script} {p : Program} (h : ofScript s = .ok p) :
    p.rules.map (fun r => (r.pattern, r.kind)) =
      s.rules.map fun d => (d.pattern, Kind.ofAction d.action) := by
  obtain ⟨rfl, -⟩ := ofScript_eq_ok_iff.mp h
  rw [script, List.map_map]
  exact List.map_congr_left fun r _ => by simp [Rule.toDeclaration]

/-- A program is shown by the text of the script that it was made from. -/
theorem display_eq_of_ofScript {s : Script} {p : Program} (h : ofScript s = .ok p) :
    p.display = s.display := by
  obtain ⟨rfl, -⟩ := ofScript_eq_ok_iff.mp h
  exact p.display_eq_script_display

theorem ofScript_of_parse {text : Word} {p : Program} {s : Script} (hp : parse text = .ok p)
    (hs : Script.parse text = .ok s) : ofScript s = .ok p := by
  unfold parse at hp
  rwa [hs] at hp

/-- Nothing of a script is lost when a program is made from it. -/
theorem kept_of_ofScript {s : Script} {p : Program} (h : ofScript s = .ok p) :
    p.steps = 0 ∧ p.state = s.start ∧
      p.rules.map (fun r => (r.pattern, r.kind)) =
        s.rules.map (fun d => (d.pattern, Kind.ofAction d.action)) ∧
      p.rules.map Rule.toDeclaration = s.rules ∧ p.display = s.display := by
  have hrules := rules_eq_of_ofScript h
  have hdisplay := display_eq_of_ofScript h
  obtain ⟨rfl, hsteps⟩ := ofScript_eq_ok_iff.mp h
  exact ⟨hsteps, rfl, hrules, rfl, hdisplay⟩

/-- **Programs are read as their scripts are.**  A text is a program exactly if it is a script, and
otherwise the error is the one for the script.  Of the scripts that are not read from a text, those
with an empty pattern are refused, for this reason.  All others are kept as they are: the program
has made no steps, it has the start state of the script and, in the same order, the rules that the
declarations ask for; these lead back to the declarations; and both are shown by the same text. -/
theorem parse_agrees_with_script :
    (∀ text,
      ((∃ p, parse text = .ok p) ↔ ∃ s, Script.parse text = .ok s) ∧
      (∀ e, parse text = .error e ↔
        ∃ cause, e = .parse cause ∧ Script.parse text = .error cause) ∧
      ∀ p s, parse text = .ok p → Script.parse text = .ok s →
        p.steps = 0 ∧ p.state = s.start ∧
        p.rules.map (fun r => (r.pattern, r.kind)) =
          s.rules.map (fun d => (d.pattern, Kind.ofAction d.action)) ∧
        p.rules.map Rule.toDeclaration = s.rules ∧
        p.display = s.display ∧
        p.display =
          (p.rules.map (fun r => r.pattern ++ delimiter ++ r.kind.toAction.display) ++
            [delimiter, p.state]).flatMap (· ++ ['\n'])) ∧
    ∀ s : Script,
      (∀ e, ofScript s = .error e ↔ e = .emptyPattern ∧ ∃ d ∈ s.rules, d.pattern = []) ∧
      ((∃ p, ofScript s = .ok p) ↔ ∀ d ∈ s.rules, d.pattern ≠ []) ∧
      ∀ p, ofScript s = .ok p →
        p.steps = 0 ∧ p.state = s.start ∧
        p.rules.map (fun r => (r.pattern, r.kind)) =
          s.rules.map (fun d => (d.pattern, Kind.ofAction d.action)) ∧
        p.rules.map Rule.toDeclaration = s.rules ∧ p.display = s.display := by
  refine ⟨fun text => ⟨exists_parse_eq_ok_iff_script, fun e => parse_eq_error_iff, ?_⟩,
    fun s => ⟨fun e => ofScript_eq_error_iff, exists_ofScript_eq_ok_iff,
      fun p => kept_of_ofScript⟩⟩
  intro p s hp hs
  obtain ⟨hsteps, hstate, hrules, hback, hdisplay⟩ := kept_of_ofScript (ofScript_of_parse hp hs)
  exact ⟨hsteps, hstate, hrules, hback, hdisplay, display_eq_lines p⟩

/-- A pattern that contains a delimiter comes from no text, but from a script made by hand, which is
kept.  An empty pattern is refused, although the other rules are in order. -/
example :
    let d : Declaration := ⟨['a', ':', ':', '=', 'b'], .read⟩
    ofScript ⟨[d], []⟩ = .ok { rules := [⟨d.pattern, .read, by decide⟩], state := [] } ∧
      ofScript ⟨[d, ⟨[], .print ['m']⟩], ['x']⟩ = .error .emptyPattern := by
  decide

end Program
end SemiThue
