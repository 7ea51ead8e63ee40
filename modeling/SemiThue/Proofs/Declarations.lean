import Mathlib
import SemiThue.Declaration

/-!
# SemiThue.Proofs.Declarations — rule lines and the rules they declare

A line is split at its first delimiter.  No proper end of `::=` is also a beginning of it, so the
first delimiter of `pattern ++ "::=" ++ rhs` is the written one unless the pattern contains one
itself (`splitAtFirst?_delimiter`).

* `display_of_parse`: a line that declares a rule is the line of that rule.
* `parse_display_iff`: exactly when the line of a rule declares this rule.
-/

namespace SemiThue

/-! ### Splitting at the first delimiter -/

namespace Word

theorem eq_append_of_splitAtFirst? {sep : Word} : ∀ {w u v : Word},
    splitAtFirst? w sep = some (u, v) → w = u ++ sep ++ v
  | [], u, v, h => by
    unfold splitAtFirst? at h
    split_ifs at h with hsep
    cases h
    simpa using hsep
  | c :: w, u, v, h => by
    unfold splitAtFirst? at h
    split_ifs at h with hprefix
    · cases h
      exact (List.prefix_iff_eq_append.mp (List.isPrefixOf_iff_prefix.mp hprefix)).symm
    · obtain ⟨⟨u', v'⟩, hrest, heq⟩ := Option.map_eq_some_iff.mp h
      cases heq
      simp only [List.cons_append, ← eq_append_of_splitAtFirst? hrest]

/-- No later place is the first one. -/
theorem length_le_of_splitAtFirst? {sep : Word} : ∀ {w u v : Word},
    splitAtFirst? w sep = some (u, v) → ∀ {u' v' : Word}, w = u' ++ sep ++ v' → u.length ≤ u'.length
  | [], u, v, h, _, _, _ => by
    unfold splitAtFirst? at h
    split_ifs at h
    cases h
    exact Nat.zero_le _
  | c :: w, u, v, h, u', v', hw => by
    unfold splitAtFirst? at h
    split_ifs at h with hprefix
    · cases h
      exact Nat.zero_le _
    · obtain ⟨⟨u₁, v₁⟩, hrest, heq⟩ := Option.map_eq_some_iff.mp h
      cases heq
      cases u' with
      | nil => exact absurd (List.isPrefixOf_iff_prefix.mpr ⟨v', hw.symm⟩) hprefix
      | cons d u' =>
        obtain ⟨rfl, hw'⟩ := List.cons_eq_cons.mp hw
        have := length_le_of_splitAtFirst? hrest hw'
        simpa using this

theorem splitAtFirst?_eq_none_iff {w sep : Word} : splitAtFirst? w sep = none ↔ ¬ sep <:+: w := by
  induction w with
  | nil => simp [splitAtFirst?]
  | cons c w ih =>
    rw [splitAtFirst?, List.infix_cons_iff, ← List.isPrefixOf_iff_prefix]
    by_cases hhead : sep.isPrefixOf (c :: w) = true
    · simp [hhead]
    · rw [if_neg hhead, Option.map_eq_none_iff, ih]
      simp [hhead]

/-- **The first place** is the one with the least before it. -/
theorem splitAtFirst?_eq_some_iff {w sep u v : Word} :
    splitAtFirst? w sep = some (u, v) ↔
      w = u ++ sep ++ v ∧ ∀ u' v', w = u' ++ sep ++ v' → u.length ≤ u'.length := by
  constructor
  · intro h
    exact ⟨eq_append_of_splitAtFirst? h, fun u' v' => length_le_of_splitAtFirst? h⟩
  · rintro ⟨hw, hfirst⟩
    cases hsplit : splitAtFirst? w sep with
    | none => exact absurd ⟨u, v, hw.symm⟩ (splitAtFirst?_eq_none_iff.mp hsplit)
    | some parts =>
      obtain ⟨u₁, v₁⟩ := parts
      have hw₁ := eq_append_of_splitAtFirst? hsplit
      have hlen : u₁.length = u.length :=
        (length_le_of_splitAtFirst? hsplit hw).antisymm (hfirst u₁ v₁ hw₁)
      obtain ⟨rfl, hrest⟩ :=
        List.append_inj (by simpa only [List.append_assoc] using hw₁.symm.trans hw) hlen
      rw [List.append_cancel_left hrest]

/-- A delimiter that begins in `u` ends in `u`, even if another one follows. -/
theorem not_isPrefix_of_delimiter_free {u : Word} (hu : u ≠ []) (h : ¬ delimiter <:+: u)
    (v : Word) : ¬ delimiter <+: u ++ delimiter ++ v := by
  intro hprefix
  obtain ⟨rest, hrest⟩ := hprefix
  unfold delimiter at hrest
  -- the delimiter has three characters, and its last one is not its first
  match u, hu with
  | [_], _ => simp at hrest
  | [_, _], _ => simp at hrest
  | a :: b :: c :: u, _ =>
    obtain ⟨rfl, rfl, rfl, -⟩ : ':' = a ∧ ':' = b ∧ '=' = c ∧ _ := by simpa using hrest
    exact h ⟨[], u, rfl⟩

theorem splitAtFirst?_of_delimiter_free : ∀ {u : Word} (v : Word), ¬ delimiter <:+: u →
    splitAtFirst? (u ++ delimiter ++ v) delimiter = some (u, v)
  | [], v, _ => rfl
  | c :: u, v, h => by
    have hprefix : ¬ delimiter.isPrefixOf (c :: (u ++ delimiter ++ v)) = true := fun hp =>
      not_isPrefix_of_delimiter_free (List.cons_ne_nil c u) h v (List.isPrefixOf_iff_prefix.mp hp)
    have hu : ¬ delimiter <:+: u := fun hin => h (List.infix_cons hin)
    show splitAtFirst? (c :: (u ++ delimiter ++ v)) delimiter = _
    rw [splitAtFirst?, if_neg hprefix, splitAtFirst?_of_delimiter_free v hu]
    rfl

/-- **The written delimiter is the first one** exactly if there is none in what stands before it. -/
theorem splitAtFirst?_delimiter {u v : Word} :
    splitAtFirst? (u ++ delimiter ++ v) delimiter = some (u, v) ↔ ¬ delimiter <:+: u := by
  constructor
  · rintro h ⟨a, b, rfl⟩
    have hle := length_le_of_splitAtFirst? h
      (show _ = a ++ delimiter ++ (b ++ delimiter ++ v) by simp)
    simp [delimiter] at hle
  · exact splitAtFirst?_of_delimiter_free v

end Word

/-! ### Reading back what was shown -/

namespace Action

theorem ofWord_tilde (message : Word) : ofWord ('~' :: message) = .print message := by
  simp [ofWord, readMark]

theorem ofWord_of_plain {text : Word} (hread : text ≠ readMark) (htilde : text.head? ≠ some '~') :
    ofWord text = .replace text := by
  unfold ofWord
  rw [if_neg hread]
  split
  · exact absurd rfl htilde
  · rfl

/-- Only a replacement that looks like another action is not read back. -/
theorem ofWord_display_iff {a : Action} :
    ofWord a.display = a ↔ ∀ text, a = .replace text → text ≠ readMark ∧ text.head? ≠ some '~' := by
  constructor
  · rintro h text rfl
    refine ⟨?_, fun hhead => ?_⟩
    · rintro rfl
      simp [ofWord, display] at h
    · obtain ⟨message, rfl⟩ := List.head?_eq_some_iff.mp hhead
      rw [display, ofWord_tilde] at h
      cases h
  · intro h
    cases a with
    | replace text => exact ofWord_of_plain (h text rfl).1 (h text rfl).2
    | print message => exact ofWord_tilde message
    | read => rfl

end Action

namespace Declaration

theorem parse_eq_ok_iff {line : Word} {d : Declaration} :
    parse line = .ok d ↔ ∃ rhs, line.splitAtFirst? delimiter = some (d.pattern, rhs) ∧
      d.pattern ≠ [] ∧ d.action = Action.ofWord rhs := by
  unfold parse
  constructor
  · intro h
    split at h
    · cases h
    · cases h
    · rename_i pattern rhs hne hsplit
      cases h
      exact ⟨rhs, hsplit, hne, rfl⟩
  · rintro ⟨rhs, hsplit, hne, haction⟩
    obtain ⟨pattern, action⟩ := d
    subst haction
    cases pattern with
    | nil => exact absurd rfl hne
    | cons c pattern => rw [hsplit]

/-- **A line that declares a rule is the line of that rule.** -/
theorem display_of_parse {line : Word} {d : Declaration} (h : parse line = .ok d) :
    d.display = line := by
  obtain ⟨rhs, hsplit, -, haction⟩ := parse_eq_ok_iff.mp h
  rw [Word.eq_append_of_splitAtFirst? hsplit, display, haction, Action.display_ofWord]

/-- **When the line of a rule declares this rule.** -/
theorem parse_display_iff {d : Declaration} :
    parse d.display = .ok d ↔ d.pattern ≠ [] ∧ ¬ delimiter <:+: d.pattern ∧
      Action.ofWord d.action.display = d.action := by
  rw [parse_eq_ok_iff]
  constructor
  · rintro ⟨rhs, hsplit, hne, haction⟩
    have hline := Word.eq_append_of_splitAtFirst? hsplit
    obtain rfl : d.action.display = rhs := List.append_cancel_left hline
    exact ⟨hne, Word.splitAtFirst?_delimiter.mp hsplit, haction.symm⟩
  · rintro ⟨hne, hdel, haction⟩
    exact ⟨_, Word.splitAtFirst?_delimiter.mpr hdel, hne, haction.symm⟩

theorem parse_delimiter : parse delimiter = .error .emptyPattern := rfl

/-- The line of a rule begins as its pattern does. -/
theorem head?_display {d : Declaration} (h : d.pattern ≠ []) :
    d.display.head? = d.pattern.head? := by
  obtain ⟨c, pattern, hpattern⟩ := List.exists_cons_of_ne_nil h
  rw [display, hpattern]
  rfl

end Declaration

end SemiThue
