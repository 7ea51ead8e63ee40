import Mathlib
import SemiThue.Proofs.LineBreaks
import SemiThue.Proofs.Scripts

/-!
# SemiThue.Proofs.Grammar — what every text is read as

The reader goes through a text line by line, in three phases.  What comes out can be said of the
text as a whole.  Let `rules` be its lines before the first one that is just the delimiter, and
`rest` those after it: `Script.Verdict rules rest` relates both to the script that they hold, or to
the first error in them.  There is one verdict for every text (`Verdict.unique`), and it is what
reading gives.

A line is described by what it contains, not by how it is searched: `Word.offence?` says what keeps
it from declaring a rule, and `Word.Declares` where it is split if nothing does.
-/

namespace SemiThue

/-! ### Lines that are not blank -/

/-- The lines of a text that are not blank, trimmed of spaces and numbered by their place among all
lines. -/
def Line.written (text : Word) : List Line :=
  (((linesBetween '\n' '\r' text).zipIdx 1).map fun (l, n) => ⟨n, Word.trimSpaces l⟩).filter
    fun line => line.text ≠ []

theorem Line.significant_eq_written (text : Word) : significant text = written text := by
  unfold significant numbered written
  rw [Word.lines_eq_linesBetween, ← List.filterMap_eq_filter, List.filterMap_map]
  refine List.filterMap_congr fun (l, n) _ => ?_
  by_cases hl : Word.trimSpaces l = []
  · simp [hl, Option.guard]
  · simp [hl]

/-! ### Lines in the place of a rule -/

namespace Word

/-- What keeps a line from declaring a rule. -/
def offence? (w : Word) : Option DeclarationError :=
  if ¬ delimiter <:+: w then some .missingDelimiter
  else if delimiter <+: w then some .emptyPattern
  else none

/-- The line `w` declares the rule `d`: its first delimiter stands between the pattern, which is not
empty, and what the action is read from. -/
structure Declares (w : Word) (d : Declaration) : Prop where
  split : ∃ rhs, w = d.pattern ++ delimiter ++ rhs ∧ d.action = Action.ofWord rhs
  first : ∀ u v, w = u ++ delimiter ++ v → d.pattern.length ≤ u.length
  pattern_ne_nil : d.pattern ≠ []

/-- The first delimiter stands at the beginning exactly if one stands there. -/
theorem isPrefix_iff_splitAtFirst? {w : Word} :
    delimiter <+: w ↔ ∃ rhs, w.splitAtFirst? delimiter = some ([], rhs) := by
  simp only [splitAtFirst?_eq_some_iff]
  constructor
  · rintro ⟨rhs, rfl⟩
    exact ⟨rhs, rfl, fun u v _ => Nat.zero_le _⟩
  · rintro ⟨rhs, hw, -⟩
    exact ⟨rhs, hw.symm⟩

end Word

namespace Declaration

theorem parse_eq_ok_iff_declares {w : Word} {d : Declaration} :
    parse w = .ok d ↔ w.Declares d := by
  simp only [parse_eq_ok_iff, Word.splitAtFirst?_eq_some_iff]
  constructor
  · rintro ⟨rhs, ⟨hw, hfirst⟩, hne, haction⟩
    exact ⟨⟨rhs, hw, haction⟩, hfirst, hne⟩
  · rintro ⟨⟨rhs, hw, haction⟩, hfirst, hne⟩
    exact ⟨rhs, ⟨hw, hfirst⟩, hne, haction⟩

theorem parse_eq_error_iff {w : Word} {e : DeclarationError} :
    parse w = .error e ↔ w.offence? = some e := by
  unfold parse Word.offence?
  rw [ite_not]
  cases hsplit : w.splitAtFirst? delimiter with
  | none =>
    rw [if_neg (Word.splitAtFirst?_eq_none_iff.mp hsplit)]
    simp
  | some parts =>
    obtain ⟨pattern, rhs⟩ := parts
    have hw := Word.eq_append_of_splitAtFirst? hsplit
    rw [if_pos ⟨pattern, rhs, hw.symm⟩]
    have hhead := Word.isPrefix_iff_splitAtFirst? (w := w)
    rw [hsplit] at hhead
    cases pattern with
    | nil => simp [hhead]
    | cons c pattern => simp [hhead]

end Declaration

/-! ### Verdicts -/

namespace Script

/-- The first line that should declare a rule and does not, as the error that it is. -/
def firstOffence? (rules : List Line) : Option ParseError :=
  rules.findSome? fun l => l.text.offence?.map (.declaration l.number)

/-- What is to be said of a text with the lines `rules` before the first delimiter line and the
lines `rest` after it.  A text without a delimiter line has no line in `rest`. -/
inductive Verdict (rules rest : List Line) : Except ParseError Script → Prop where
  | offence {e : ParseError} (h : firstOffence? rules = some e) : Verdict rules rest (.error e)
  | missingStart (h : firstOffence? rules = none) (hrest : rest = []) :
      Verdict rules rest (.error .missingStart)
  | duplicateDelimiter {l : Line} {ls : List Line} (h : firstOffence? rules = none)
      (hrest : rest = l :: ls) (hl : l.text = delimiter) :
      Verdict rules rest (.error (.duplicateDelimiter l.number))
  | trailingLine {l l' : Line} {ls : List Line} (h : firstOffence? rules = none)
      (hrest : rest = l :: l' :: ls) (hl : l.text ≠ delimiter) :
      Verdict rules rest (.error (.trailingLine l'.number))
  | script {l : Line} {ds : List Declaration} (h : firstOffence? rules = none)
      (hrest : rest = [l]) (hl : l.text ≠ delimiter)
      (hrules : List.Forall₂ (fun k d => k.text.Declares d) rules ds) :
      Verdict rules rest (.ok ⟨ds, l.text⟩)

theorem firstOffence?_cons_of_error {l : Line} {e : DeclarationError}
    (h : Declaration.parse l.text = .error e) (ls : List Line) :
    firstOffence? (l :: ls) = some (.declaration l.number e) := by
  rw [firstOffence?, List.findSome?_cons, Declaration.parse_eq_error_iff.mp h]
  rfl

theorem firstOffence?_cons_of_declares {l : Line} {d : Declaration} (h : l.text.Declares d)
    (ls : List Line) : firstOffence? (l :: ls) = firstOffence? ls := by
  have hnone : l.text.offence? = none := by
    refine Option.eq_none_iff_forall_ne_some.mpr fun e he => ?_
    have hok := Declaration.parse_eq_ok_iff_declares.mpr h
    rw [Declaration.parse_eq_error_iff.mpr he] at hok
    cases hok
  rw [firstOffence?, List.findSome?_cons, hnone]
  rfl

/-- One more rule in front changes nothing but the script. -/
theorem Verdict.cons {l : Line} {d : Declaration} (hl : l.text.Declares d) {rules rest : List Line}
    {r : Except ParseError Script} (h : Verdict rules rest r) :
    Verdict (l :: rules) rest (r.map (Script.cons d)) := by
  have hoffence := firstOffence?_cons_of_declares hl rules
  cases h with
  | offence h => exact .offence (hoffence.trans h)
  | missingStart h hrest => exact .missingStart (hoffence.trans h) hrest
  | duplicateDelimiter h hrest hdel => exact .duplicateDelimiter (hoffence.trans h) hrest hdel
  | trailingLine h hrest hdel => exact .trailingLine (hoffence.trans h) hrest hdel
  | script h hrest hdel hrules => exact .script (hoffence.trans h) hrest hdel (.cons hl hrules)

/-- No text deserves two verdicts. -/
theorem Verdict.unique {rules rest : List Line} {r r' : Except ParseError Script}
    (h : Verdict rules rest r) (h' : Verdict rules rest r') : r = r' := by
  have hdeclares : Relator.RightUnique fun (k : Line) (d : Declaration) => k.text.Declares d := by
    intro k d d' hd hd'
    rw [← Declaration.parse_eq_ok_iff_declares] at hd hd'
    exact Except.ok.inj (hd.symm.trans hd')
  -- the first error in `rules` and the first two lines of `rest` tell the cases apart
  cases h with
  | offence h => cases h' <;> simp_all
  | missingStart h hrest => cases h' <;> simp_all
  | duplicateDelimiter h hrest hdel => cases h' <;> simp_all
  | trailingLine h hrest hdel => cases h' <;> simp_all
  | script h hrest hdel hrules =>
    cases h' with
    | script h' hrest' hdel' hrules' =>
      obtain rfl := List.right_unique_forall₂' hdeclares hrules hrules'
      simp_all
    | _ => simp_all

/-! ### Reading -/

theorem collect_cons_error (e : ParseError) (items : List (Except ParseError Item)) :
    collect (.error e :: items) = .error e := by
  rw [collect, List.mapM_cons]
  rfl

theorem collect_cons_rule (d : Declaration) (items : List (Except ParseError Item)) :
    collect (.ok (.rule d) :: items) = (collect items).map (cons d) := by
  unfold collect
  rw [List.mapM_cons]
  cases items.mapM id with
  | error e => rfl
  | ok is =>
    simp only [id, bind, Except.bind, pure, Except.pure, ofItems?_cons_rule]
    cases ofItems? is <;> rfl

/-- Two lines at most are looked at after the delimiter line. -/
theorem verdict_collect_start (ls : List Line) :
    Verdict [] ls (collect (Phase.start.items ls)) := by
  cases ls with
  | nil => exact .missingStart rfl rfl
  | cons l ls =>
    by_cases hl : l.text = delimiter
    · have hitems : Phase.start.items (l :: ls) =
          .error (.duplicateDelimiter l.number) :: Phase.start.items ls := by
        simp [Phase.items, Phase.accept, hl]
      rw [hitems, collect_cons_error]
      exact .duplicateDelimiter rfl rfl hl
    · have hitems : Phase.start.items (l :: ls) = .ok (.start l.text) :: Phase.done.items ls := by
        simp [Phase.items, Phase.accept, hl]
      rw [hitems]
      cases ls with
      | nil => exact .script rfl rfl hl .nil
      | cons l' ls => exact .trailingLine rfl rfl hl

theorem verdict_collect_rules (ls : List Line) :
    Verdict (ls.takeWhile (·.text ≠ delimiter)) (ls.dropWhile (·.text ≠ delimiter)).tail
      (collect (Phase.rules.items ls)) := by
  induction ls with
  | nil => exact .missingStart rfl rfl
  | cons l ls ih =>
    by_cases hl : l.text = delimiter
    · rw [List.takeWhile_cons_of_neg (by simpa), List.dropWhile_cons_of_neg (by simpa),
        Phase.items_rules_of_delimiter hl]
      exact verdict_collect_start ls
    · rw [List.takeWhile_cons_of_pos (by simpa), List.dropWhile_cons_of_pos (by simpa)]
      cases hparse : Declaration.parse l.text with
      | error e =>
        rw [Phase.items_rules_of_error hl hparse, collect_cons_error]
        exact .offence (firstOffence?_cons_of_error hparse _)
      | ok d =>
        rw [Phase.items_rules_of_ok hl hparse, collect_cons_rule]
        exact ih.cons (Declaration.parse_eq_ok_iff_declares.mp hparse)

/-- **What a text is read as.**  Reading accepts the texts of the grammar and nothing else, and it
gives the first error of any other text. -/
theorem parse_eq_iff_verdict (text : Word) (r : Except ParseError Script) :
    parse text = r ↔
      Verdict ((Line.written text).takeWhile (·.text ≠ delimiter))
        ((Line.written text).dropWhile (·.text ≠ delimiter)).tail r := by
  have hparse := verdict_collect_rules (Line.written text)
  rw [← Line.significant_eq_written] at hparse
  rw [← Line.significant_eq_written]
  constructor
  · rintro rfl
    exact hparse
  · exact hparse.unique

/-- Of several errors the first is given, and blank lines are counted. -/
example : parse "a::=b\r\n\n ab\n::=c\n::=\n::=".toList =
    .error (.declaration 3 .missingDelimiter) := by
  decide +kernel

end Script

end SemiThue
