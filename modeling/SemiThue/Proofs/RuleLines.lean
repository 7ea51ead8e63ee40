import Mathlib
import SemiThue.Proofs.Grammar

/-!
# SemiThue.Proofs.RuleLines — lines and rules, one for one

A line in the place of a rule has no delimiter, or begins with one, or declares a rule.  Not every
rule stands on a line: the line of a rule may be split at another place, or its right-hand side may
be read as another action.  The lines that declare a rule and the rules that stand on a line belong
together one for one, and reading and showing are the two directions (`ruleOfLine`).
-/

namespace SemiThue

/-- A line that declares a rule: it has a delimiter, but does not begin with one. -/
structure Word.IsRuleLine (w : Word) : Prop where
  delimiter_infix : delimiter <:+: w
  not_delimiter_prefix : ¬ delimiter <+: w

namespace Declaration

/-- A rule that can stand on a line: its pattern is neither empty nor contains a delimiter, and a
replacement does not look like another action. -/
structure IsLegible (d : Declaration) : Prop where
  pattern_ne_nil : d.pattern ≠ []
  delimiter_free : ¬ delimiter <:+: d.pattern
  plain : ∀ text, d.action = .replace text → text ≠ Action.readMark ∧ text.head? ≠ some '~'

/-! ### Lines that declare no rule -/

theorem parse_eq_missingDelimiter_iff {w : Word} :
    parse w = .error .missingDelimiter ↔ ¬ delimiter <:+: w := by
  rw [parse_eq_error_iff, Word.offence?]
  by_cases h : delimiter <:+: w
  · rw [if_neg (not_not_intro h)]
    split_ifs <;> simp [h]
  · simp [h]

theorem parse_eq_emptyPattern_iff {w : Word} :
    parse w = .error .emptyPattern ↔ delimiter <+: w := by
  rw [parse_eq_error_iff, Word.offence?]
  by_cases h : delimiter <+: w
  · simp [h, h.isInfix]
  · rw [if_neg h]
    split_ifs <;> simp [h]

theorem isRuleLine_iff {w : Word} : w.IsRuleLine ↔ ∃ d, parse w = .ok d := by
  constructor
  · rintro ⟨hin, hprefix⟩
    cases h : parse w with
    | ok d => exact ⟨d, rfl⟩
    | error e =>
      cases e with
      | missingDelimiter => exact absurd hin (parse_eq_missingDelimiter_iff.mp h)
      | emptyPattern => exact absurd (parse_eq_emptyPattern_iff.mp h) hprefix
  · rintro ⟨d, h⟩
    refine ⟨?_, fun hprefix => ?_⟩
    · by_contra hin
      rw [parse_eq_missingDelimiter_iff.mpr hin] at h
      cases h
    · rw [parse_eq_emptyPattern_iff.mpr hprefix] at h
      cases h

/-! ### Rules that stand on a line -/

/-- The line of a rule is read as this rule exactly if the rule is legible. -/
theorem parse_display_iff_isLegible {d : Declaration} : parse d.display = .ok d ↔ d.IsLegible := by
  rw [parse_display_iff, Action.ofWord_display_iff]
  constructor
  · rintro ⟨hne, hfree, hplain⟩
    exact ⟨hne, hfree, hplain⟩
  · rintro ⟨hne, hfree, hplain⟩
    exact ⟨hne, hfree, hplain⟩

instance : DecidablePred IsLegible := fun _ => decidable_of_iff _ parse_display_iff_isLegible

/-- What is read from a line is legible, for its line is the one that it was read from. -/
theorem isLegible_of_parse {w : Word} {d : Declaration} (h : parse w = .ok d) : d.IsLegible := by
  rw [← parse_display_iff_isLegible, display_of_parse h]
  exact h

theorem isRuleLine_display {d : Declaration} (h : d.IsLegible) : d.display.IsRuleLine :=
  isRuleLine_iff.mpr ⟨d, parse_display_iff_isLegible.mpr h⟩

/-- The rule that a line declares. -/
def declared (w : {w : Word // w.IsRuleLine}) : {d : Declaration // d.IsLegible} :=
  match h : parse w.val with
  | .ok d => ⟨d, isLegible_of_parse h⟩
  | .error _ => absurd (isRuleLine_iff.mp w.property) (by simp [h])

theorem parse_eq_declared (w : {w : Word // w.IsRuleLine}) :
    parse w.val = .ok (declared w).val := by
  obtain ⟨d, hd⟩ := isRuleLine_iff.mp w.property
  unfold declared
  split
  · rename_i d' h
    exact h
  · rename_i e h
    rw [hd] at h
    cases h

/-- Lines that declare a rule, and rules that stand on a line. -/
def ruleOfLine : {w : Word // w.IsRuleLine} ≃ {d : Declaration // d.IsLegible} where
  toFun := declared
  invFun d := ⟨d.val.display, isRuleLine_display d.property⟩
  left_inv w := Subtype.ext (display_of_parse (parse_eq_declared w))
  right_inv d := by
    have h := parse_eq_declared ⟨d.val.display, isRuleLine_display d.property⟩
    rw [parse_display_iff_isLegible.mpr d.property] at h
    exact Subtype.ext (Except.ok.inj h).symm

/-- **Reading and showing rules are inverse to each other.**  A line is refused for one of two
reasons, and otherwise is the line of the rule that it declares.  A rule is read back from its line
exactly if it is legible, and only legible rules are read.  So the lines that declare a rule and the
legible rules correspond one for one. -/
theorem parse_inverse_display :
    (∀ w : Word,
      (parse w = .error .missingDelimiter ↔ ¬ delimiter <:+: w) ∧
      (parse w = .error .emptyPattern ↔ delimiter <+: w) ∧
      (w.IsRuleLine → ∃ d, parse w = .ok d ∧ d.display = w)) ∧
    (∀ d : Declaration, parse d.display = .ok d ↔ d.IsLegible) ∧
    (∀ (w : Word) (d : Declaration), parse w = .ok d → d.IsLegible ∧ w.IsRuleLine) ∧
    ∃ e : {w : Word // w.IsRuleLine} ≃ {d : Declaration // d.IsLegible},
      (∀ w, parse w.val = .ok (e w).val) ∧ ∀ d, (e.symm d).val = d.val.display := by
  refine ⟨fun w => ⟨parse_eq_missingDelimiter_iff, parse_eq_emptyPattern_iff, fun h => ?_⟩,
    fun d => parse_display_iff_isLegible, fun w d h => ?_, ruleOfLine, parse_eq_declared,
    fun d => rfl⟩
  · obtain ⟨d, hd⟩ := isRuleLine_iff.mp h
    exact ⟨d, hd, display_of_parse hd⟩
  · exact ⟨isLegible_of_parse h, isRuleLine_iff.mpr ⟨d, h⟩⟩

/-- The pattern ends as a delimiter begins, and the message looks like the mark for reading.  As a
replacement, the mark itself is not legible. -/
example : parse "a::::=~:::".toList = .ok ⟨"a::".toList, .print ":::".toList⟩ ∧
    ¬ IsLegible ⟨"a::".toList, .replace ":::".toList⟩ := by
  decide +kernel

end Declaration

end SemiThue
