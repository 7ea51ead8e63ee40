import Mathlib
import SemiThue.Proofs.Grammar

/-!
# SemiThue.Proofs.Readers — everything that a reader yields

A reader is asked for one item after the other, also after errors and after the end of its text.
Its answers are the items of the text in order, and nothing from then on
(`Reader.answer_eq_getElem?`).  They follow the lines of the text: something for every line before
the first delimiter line, nothing for that one, an error for each delimiter line directly after it,
then the start state, and an error for each line after that.

`Reader.Orderly` collects what follows from this for every text.
-/

namespace SemiThue

/-! ### Items of the lines of a text -/

/-- What a line yields in the place of a rule: the rule that it declares, or what keeps it from
declaring one. -/
inductive Line.Yields (l : Line) : Except ParseError Item → Prop where
  | rule {d : Declaration} (h : l.text.Declares d) : Yields l (.ok (.rule d))
  | offence {e : DeclarationError} (h : l.text.offence? = some e) :
      Yields l (.error (.declaration l.number e))

namespace Item

/-- What is yielded from the start state on, which is the first of the given lines. -/
def fromStart : List Line → List (Except ParseError Item)
  | [] => [.error .missingStart]
  | l :: ls => .ok (.start l.text) :: ls.map fun l => .error (.trailingLine l.number)

/-- What is yielded for the lines after the first delimiter line. -/
def afterDelimiter (ls : List Line) : List (Except ParseError Item) :=
  (ls.takeWhile (·.text = delimiter)).map (fun l => .error (.duplicateDelimiter l.number)) ++
    fromStart (ls.dropWhile (·.text = delimiter))

end Item

namespace Phase

theorem items_done (ls : List Line) :
    items .done ls = ls.map fun l => .error (.trailingLine l.number) := by
  induction ls with
  | nil => rfl
  | cons l ls ih => simp [items, accept, ih]

theorem items_start (ls : List Line) : items .start ls = Item.afterDelimiter ls := by
  unfold Item.afterDelimiter
  induction ls with
  | nil => rfl
  | cons l ls ih =>
    by_cases hl : l.text = delimiter
    · rw [List.takeWhile_cons_of_pos (by simpa), List.dropWhile_cons_of_pos (by simpa)]
      simp [items, accept, hl, ih]
    · rw [List.takeWhile_cons_of_neg (by simpa), List.dropWhile_cons_of_neg (by simpa)]
      simp [items, accept, hl, items_done, Item.fromStart]

theorem exists_items_rules_eq (ls : List Line) :
    ∃ declared, List.Forall₂ Line.Yields (ls.takeWhile (·.text ≠ delimiter)) declared ∧
      items .rules ls =
        declared ++ Item.afterDelimiter (ls.dropWhile (·.text ≠ delimiter)).tail := by
  induction ls with
  | nil => exact ⟨[], .nil, rfl⟩
  | cons l ls ih =>
    by_cases hl : l.text = delimiter
    · rw [List.takeWhile_cons_of_neg (by simpa), List.dropWhile_cons_of_neg (by simpa),
        items_rules_of_delimiter hl, items_start]
      exact ⟨[], .nil, rfl⟩
    · rw [List.takeWhile_cons_of_pos (by simpa), List.dropWhile_cons_of_pos (by simpa)]
      obtain ⟨declared, hdeclared, hitems⟩ := ih
      cases hparse : Declaration.parse l.text with
      | error e =>
        have hl' := Line.Yields.offence (Declaration.parse_eq_error_iff.mp hparse)
        exact ⟨_, .cons hl' hdeclared, by rw [items_rules_of_error hl hparse, hitems]; rfl⟩
      | ok d =>
        have hl' := Line.Yields.rule (Declaration.parse_eq_ok_iff_declares.mp hparse)
        exact ⟨_, .cons hl' hdeclared, by rw [items_rules_of_ok hl hparse, hitems]; rfl⟩

end Phase

/-! ### Answers -/

namespace Reader

/-- Everything that is still to come. -/
def items (r : Reader) : List (Except ParseError Item) := r.phase.items r.lines

/-- The answer of a reader that has given `k` answers before. -/
def answer (r : Reader) (k : Nat) : Option (Except ParseError Item) :=
  ((fun r : Reader => r.next.2)^[k] r).next.1

/-- One answer is the first item that is still to come, and leaves the others. -/
theorem nextFrom_items (phase : Phase) (ls : List Line) :
    (nextFrom phase ls).1 = (phase.items ls).head? ∧
      (nextFrom phase ls).2.items = (phase.items ls).tail := by
  induction ls generalizing phase with
  | nil => cases phase <;> exact ⟨rfl, rfl⟩
  | cons l ls ih =>
    rw [nextFrom, Phase.items]
    cases h : phase.accept l with
    | mk item? phase' =>
      cases item? with
      | none => exact ih phase'
      | some item => exact ⟨rfl, rfl⟩

/-- **The answers of a reader** are the items that are still to come, and none after these. -/
theorem answer_eq_getElem? (r : Reader) (k : Nat) : r.answer k = r.items[k]? := by
  induction k generalizing r with
  | zero =>
    rw [← List.head?_eq_getElem?]
    exact (nextFrom_items r.phase r.lines).1
  | succ k ih =>
    have hnext : r.next.2.items = r.items.tail := (nextFrom_items r.phase r.lines).2
    rw [← List.getElem?_tail, ← hnext, ← ih]
    rfl

end Reader

/-! ### The order of the answers -/

/-- Items come before the start state (0), in its place (1) or after it (2). -/
def Item.stage : Except ParseError Item → Nat
  | .ok (.rule _) | .error (.declaration ..) | .error (.duplicateDelimiter _) => 0
  | .ok (.start _) | .error .missingStart => 1
  | .error (.trailingLine _) => 2

theorem stage_of_yields {ls : List Line} {xs : List (Except ParseError Item)}
    (h : List.Forall₂ Line.Yields ls xs) : ∀ x ∈ xs, Item.stage x = 0 := by
  induction h with
  | nil => simp
  | cons hl _ ih =>
    intro x hx
    rcases List.mem_cons.mp hx with rfl | hx
    · cases hl <;> rfl
    · exact ih x hx

namespace Reader

/-- The answer number `n` is the start state, or says that there is none. -/
structure StartsAt (answer : Nat → Option (Except ParseError Item)) (n : Nat) : Prop where
  before : ∀ k < n, ∃ x, answer k = some x ∧ Item.stage x = 0
  here : ∃ x, answer n = some x ∧ Item.stage x = 1
  after : ∀ k x, n < k → answer k = some x → Item.stage x = 2
  missing : answer n = some (.error .missingStart) → ∀ k, n < k → answer k = none

/-- What the answers of a reader are like, whatever its text is.  There is at most one start state,
and no rule after it; the want of a start state is reported once, at the end; and where no error is
reported, the start state is the last item, after nothing but rules. -/
structure Orderly (answer : Nat → Option (Except ParseError Item)) : Prop where
  ends : ∃ n, ∀ k, n ≤ k → answer k = none
  ended : ∀ j k, j ≤ k → answer j = none → answer k = none
  start_unique : ∀ j k s s', answer j = some (.ok (.start s)) → answer k = some (.ok (.start s')) →
    j = k
  rule_before_start : ∀ j k d s, answer j = some (.ok (.rule d)) →
    answer k = some (.ok (.start s)) → j < k
  missing_of_no_start : (∀ k s, answer k ≠ some (.ok (.start s))) →
    ∃! k, answer k = some (.error .missingStart)
  no_missing_of_start : ∀ j k s, answer j = some (.ok (.start s)) →
    answer k ≠ some (.error .missingStart)
  missing_last : ∀ j k, answer j = some (.error .missingStart) → j < k → answer k = none
  start_last : (∀ k e, answer k ≠ some (.error e)) →
    ∃ n s, answer n = some (.ok (.start s)) ∧
      (∀ k < n, ∃ d, answer k = some (.ok (.rule d))) ∧ ∀ k, n < k → answer k = none

namespace StartsAt

variable {answer : Nat → Option (Except ParseError Item)} {n : Nat}

/-- The stage of an answer says where it stands. -/
theorem place (h : StartsAt answer n) {k : Nat} {x : Except ParseError Item}
    (hx : answer k = some x) :
    (k < n ∧ Item.stage x = 0) ∨ (k = n ∧ Item.stage x = 1) ∨ (n < k ∧ Item.stage x = 2) := by
  rcases Nat.lt_trichotomy k n with hk | rfl | hk
  · obtain ⟨y, hy, hstage⟩ := h.before k hk
    obtain rfl := Option.some.inj (hx.symm.trans hy)
    exact .inl ⟨hk, hstage⟩
  · obtain ⟨y, hy, hstage⟩ := h.here
    obtain rfl := Option.some.inj (hx.symm.trans hy)
    exact .inr (.inl ⟨rfl, hstage⟩)
  · exact .inr (.inr ⟨hk, h.after k x hk hx⟩)

theorem eq_of_stage (h : StartsAt answer n) {k : Nat} {x : Except ParseError Item}
    (hx : answer k = some x) (hstage : Item.stage x = 1) : k = n := by
  rcases h.place hx with ⟨-, h₀⟩ | ⟨hk, -⟩ | ⟨-, h₂⟩ <;> omega

/-- The start state stands there, or there is none. -/
theorem cases (h : StartsAt answer n) :
    (∃ s, answer n = some (.ok (.start s))) ∨ answer n = some (.error .missingStart) := by
  obtain ⟨x, hx, hstage⟩ := h.here
  rcases x with (⟨_⟩ | ⟨_⟩ | ⟨_⟩ | _) | (⟨_⟩ | ⟨s⟩)
  · simp [Item.stage] at hstage
  · simp [Item.stage] at hstage
  · simp [Item.stage] at hstage
  · exact .inr hx
  · simp [Item.stage] at hstage
  · exact .inl ⟨s, hx⟩

end StartsAt

/-- The lines before the start state yield as many items as there are answers before it. -/
theorem startsAt_append {front : List (Except ParseError Item)}
    (hfront : ∀ x ∈ front, Item.stage x = 0) (ls : List Line) :
    StartsAt ((front ++ Item.fromStart ls)[·]?) front.length := by
  have hlater (k : Nat) (hk : front.length < k) : (front ++ Item.fromStart ls)[k]? =
      (Item.fromStart ls).tail[k - front.length - 1]? := by
    rw [List.getElem?_append_right hk.le, List.getElem?_tail]
    congr 1
    omega
  constructor
  · intro k hk
    rw [List.getElem?_append_left hk, List.getElem?_eq_getElem hk]
    exact ⟨_, rfl, hfront _ (List.getElem_mem hk)⟩
  · rw [List.getElem?_append_right le_rfl, Nat.sub_self]
    cases ls with
    | nil => exact ⟨_, rfl, rfl⟩
    | cons l ls => exact ⟨_, rfl, rfl⟩
  · intro k x hk hx
    rw [hlater k hk] at hx
    have hmem := List.mem_of_getElem? hx
    cases ls with
    | nil => cases hmem
    | cons l ls =>
      obtain ⟨l', -, rfl⟩ := List.mem_map.mp hmem
      rfl
  · intro hmissing k hk
    rw [List.getElem?_append_right le_rfl, Nat.sub_self] at hmissing
    rw [hlater k hk]
    cases ls with
    | nil => rfl
    | cons l ls => cases hmissing

theorem StartsAt.orderly {xs : List (Except ParseError Item)} {n : Nat}
    (h : StartsAt (xs[·]?) n) : Orderly (xs[·]?) where
  ends := ⟨xs.length, fun k hk => List.getElem?_eq_none hk⟩
  ended j k hjk hj := by
    rw [List.getElem?_eq_none_iff] at hj ⊢
    omega
  start_unique j k s s' hj hk := by
    rw [h.eq_of_stage hj rfl, h.eq_of_stage hk rfl]
  rule_before_start j k d s hj hk := by
    rw [h.eq_of_stage hk rfl]
    rcases h.place hj with ⟨hlt, -⟩ | ⟨-, hstage⟩ | ⟨-, hstage⟩
    · exact hlt
    · cases hstage
    · cases hstage
  missing_of_no_start hno := by
    rcases h.cases with ⟨s, hs⟩ | hmissing
    · exact absurd hs (hno n s)
    · exact ⟨n, hmissing, fun k hk => h.eq_of_stage hk rfl⟩
  no_missing_of_start j k s hj hk := by
    rw [h.eq_of_stage hj rfl, ← h.eq_of_stage hk rfl, hk] at hj
    cases hj
  missing_last j k hj hjk := by
    obtain rfl := h.eq_of_stage hj rfl
    exact h.missing hj k hjk
  start_last hok := by
    rcases h.cases with ⟨s, hs⟩ | hmissing
    · refine ⟨n, s, hs, fun k hk => ?_, fun k hk => ?_⟩
      · obtain ⟨x, hx, hstage⟩ := h.before k hk
        rcases x with e | (d | s')
        · exact absurd hx (hok k e)
        · exact ⟨d, hx⟩
        · cases hstage
      · by_contra hne
        obtain ⟨x, hx⟩ := Option.ne_none_iff_exists'.mp hne
        have hstage := h.after k x hk hx
        rcases x with e | (d | s')
        · exact hok k e hx
        · cases hstage
        · cases hstage
    · exact absurd hmissing (hok n _)

/-- **What a reader yields**, line by line.  Before the first delimiter line every line yields a
rule or an error, and that line yields nothing.  The delimiter lines directly after it are errors,
the next line is the start state, and all lines after that are errors.  A text that ends before the
start state yields one error more, and after its end a text yields nothing for ever.  Hence the
answers are orderly. -/
theorem answers_of_lines (text : Word) :
    let answer := (ofText text).answer
    let lines := Line.written text
    let rules := lines.takeWhile (·.text ≠ delimiter)
    let rest := (lines.dropWhile (·.text ≠ delimiter)).tail
    let again := rest.takeWhile (·.text = delimiter)
    let others := rest.dropWhile (·.text = delimiter)
    (∃ declared, List.Forall₂ Line.Yields rules declared ∧
      ∀ k, answer k = (declared ++ again.map (fun l => .error (.duplicateDelimiter l.number)) ++
        Item.fromStart others)[k]?) ∧
    Orderly answer := by
  intro answer lines rules rest again others
  obtain ⟨declared, hdeclared, hitems⟩ := Phase.exists_items_rules_eq lines
  have hanswer : answer = ((declared ++ again.map (fun l =>
      .error (.duplicateDelimiter l.number)) ++ Item.fromStart others)[·]?) := by
    funext k
    rw [List.append_assoc]
    show (ofText text).answer k = (declared ++ Item.afterDelimiter rest)[k]?
    rw [← hitems, answer_eq_getElem?, items, ofText, Line.significant_eq_written]
  refine ⟨⟨declared, hdeclared, congrFun hanswer⟩, ?_⟩
  rw [hanswer]
  refine (startsAt_append (fun x hx => ?_) others).orderly
  rcases List.mem_append.mp hx with hx | hx
  · exact stage_of_yields hdeclared x hx
  · obtain ⟨l, -, rfl⟩ := List.mem_map.mp hx
    rfl

/-- Reading goes on after errors of all kinds, and blank lines are counted. -/
example : (List.range 6).map (ofText "ab\n::=\n\n::=\r\nx\n::=".toList).answer =
    [some (.error (.declaration 1 .missingDelimiter)), some (.error (.duplicateDelimiter 4)),
      some (.ok (.start ['x'])), some (.error (.trailingLine 6)), none, none] := by
  decide +kernel

end Reader

end SemiThue
