import Mathlib
import SemiThue.Proofs.Declarations
import SemiThue.Script

/-!
# SemiThue.Proofs.Scripts — texts and the scripts they hold

A text holds a script exactly if its significant lines are the lines of that script, and each of
these is read as what it was written for (`Script.parse_eq_ok_iff`).  Nothing else of the text
matters.
-/

namespace SemiThue

/-- The lines of the text of a script. -/
def Script.lines (s : Script) : List Word := s.rules.map Declaration.display ++ [delimiter, s.start]

/-- The items that the lines of a script stand for. -/
def Script.items (s : Script) : List Item := s.rules.map .rule ++ [.start s.start]

/-- Every line of a script is read as what it was written for. -/
structure Script.IsReadable (s : Script) : Prop where
  rules : ∀ d ∈ s.rules, Declaration.parse d.display = .ok d
  start : s.start ≠ delimiter

namespace Script

/-- A script with one more rule before the others. -/
def cons (d : Declaration) (s : Script) : Script := { s with rules := d :: s.rules }

theorem forall_mem_lines_iff {s : Script} {P : Word → Prop} :
    (∀ l ∈ s.lines, P l) ↔ (∀ d ∈ s.rules, P d.display) ∧ P delimiter ∧ P s.start := by
  simp [lines, or_imp, forall_and]

@[simp] theorem lines_cons (d : Declaration) (s : Script) :
    (s.cons d).lines = d.display :: s.lines := rfl

@[simp] theorem items_cons (d : Declaration) (s : Script) :
    (s.cons d).items = .rule d :: s.items := rfl

theorem isReadable_cons_iff {d : Declaration} {s : Script} :
    (s.cons d).IsReadable ↔ Declaration.parse d.display = .ok d ∧ s.IsReadable := by
  constructor
  · rintro ⟨hrules, hstart⟩
    exact ⟨hrules d List.mem_cons_self, fun e he => hrules e (List.mem_cons_of_mem d he), hstart⟩
  · rintro ⟨hd, hrules, hstart⟩
    refine ⟨fun e he => ?_, hstart⟩
    rcases List.mem_cons.mp he with rfl | he
    · exact hd
    · exact hrules e he

/-- The first line of a script that can be read is the delimiter, or it declares the first rule. -/
theorem lines_cases {s : Script} (hread : s.IsReadable) {w : Word} {ws : List Word}
    (h : w :: ws = s.lines) :
    (w = delimiter ∧ ws = [s.start] ∧ s.rules = []) ∨
      ∃ d s', s = cons d s' ∧ Declaration.parse w = .ok d ∧ ws = s'.lines ∧ s'.IsReadable := by
  obtain ⟨rules, start⟩ := s
  cases rules with
  | nil =>
    obtain ⟨rfl, rfl⟩ := List.cons_eq_cons.mp h
    exact .inl ⟨rfl, rfl, rfl⟩
  | cons d rules =>
    obtain ⟨rfl, rfl⟩ := List.cons_eq_cons.mp h
    have hcons : (cons d ⟨rules, start⟩).IsReadable := hread
    obtain ⟨hd, hread'⟩ := isReadable_cons_iff.mp hcons
    exact .inr ⟨d, ⟨rules, start⟩, rfl, hd, rfl, hread'⟩

end Script

/-- A list is gone through without an error exactly if each of its items is. -/
theorem mapM_eq_ok_iff {ε α β : Type} {f : α → Except ε β} {xs : List α} {ys : List β} :
    xs.mapM f = .ok ys ↔ xs.map f = ys.map .ok := by
  induction xs generalizing ys with
  | nil => cases ys <;> simp [pure, Except.pure]
  | cons x xs ih =>
    rw [List.mapM_cons, List.map_cons]
    cases hx : f x with
    | error e => cases ys <;> simp [bind, Except.bind]
    | ok y =>
      cases hxs : xs.mapM f with
      | error e => cases ys <;> simp [bind, Except.bind, ← ih, hxs]
      | ok zs => cases ys <;> simp [bind, Except.bind, pure, Except.pure, ← ih, hxs]

/-- The error of a list is the error of one of its items. -/
theorem exists_of_mapM_eq_error {ε α β : Type} {f : α → Except ε β} {xs : List α} {e : ε}
    (h : xs.mapM f = .error e) : ∃ x ∈ xs, f x = .error e := by
  induction xs with
  | nil => cases h
  | cons x xs ih =>
    rw [List.mapM_cons] at h
    cases hx : f x with
    | error e' =>
      rw [hx] at h
      cases h
      exact ⟨x, List.mem_cons_self, hx⟩
    | ok y =>
      cases hxs : xs.mapM f with
      | error e' =>
        rw [hx, hxs] at h
        cases h
        obtain ⟨x', hx', he⟩ := ih hxs
        exact ⟨x', List.mem_cons_of_mem x hx', he⟩
      | ok ys =>
        rw [hx, hxs] at h
        cases h

theorem mapM_id_eq_ok_iff {ε α : Type} {xs : List (Except ε α)} {ys : List α} :
    xs.mapM id = .ok ys ↔ xs = ys.map .ok := by
  rw [mapM_eq_ok_iff, List.map_id]

/-! ### Items without an error -/

namespace Phase

theorem items_done_eq_iff {ls : List Line} {is : List Item} :
    items .done ls = is.map .ok ↔ ls = [] ∧ is = [] := by
  cases ls with
  | nil => cases is <;> simp [items, finish]
  | cons l ls => cases is <;> simp [items, accept]

theorem items_start_eq_iff {ls : List Line} {is : List Item} :
    items .start ls = is.map .ok ↔ ∃ l, ls = [l] ∧ l.text ≠ delimiter ∧ is = [.start l.text] := by
  cases ls with
  | nil => cases is <;> simp [items, finish]
  | cons l ls =>
    by_cases hl : l.text = delimiter
    · cases is <;> simp [items, accept, hl]
    · cases is with
      | nil => simp [items, accept, hl]
      | cons i is =>
        simp only [items, accept, hl, if_false, Option.toList_some, List.singleton_append,
          List.map_cons, List.cons.injEq, items_done_eq_iff]
        constructor
        · rintro ⟨hi, rfl, rfl⟩
          exact ⟨l, ⟨rfl, rfl⟩, hl, (Except.ok.inj hi).symm, rfl⟩
        · rintro ⟨l', ⟨rfl, rfl⟩, -, rfl, rfl⟩
          exact ⟨rfl, rfl, rfl⟩

theorem items_rules_of_delimiter {l : Line} (hl : l.text = delimiter) (ls : List Line) :
    items .rules (l :: ls) = items .start ls := by
  simp [items, accept, hl]

theorem items_rules_of_error {l : Line} (hl : l.text ≠ delimiter) {e : DeclarationError}
    (h : Declaration.parse l.text = .error e) (ls : List Line) :
    items .rules (l :: ls) = .error (.declaration l.number e) :: items .rules ls := by
  simp [items, accept, hl, h, Except.mapError, Except.map]

theorem items_rules_of_ok {l : Line} (hl : l.text ≠ delimiter) {d : Declaration}
    (h : Declaration.parse l.text = .ok d) (ls : List Line) :
    items .rules (l :: ls) = .ok (.rule d) :: items .rules ls := by
  simp [items, accept, hl, h, Except.mapError, Except.map]

/-- The lines up to the first delimiter are declarations, and the line after it is the
start state. -/
theorem items_rules_eq_iff {ls : List Line} {is : List Item} :
    items .rules ls = is.map .ok ↔
      ∃ s : Script, is = s.items ∧ ls.map Line.text = s.lines ∧ s.IsReadable := by
  induction ls generalizing is with
  | nil => cases is <;> simp [items, finish, Script.lines]
  | cons l ls ih =>
    by_cases hl : l.text = delimiter
    · rw [items_rules_of_delimiter hl, items_start_eq_iff]
      constructor
      · rintro ⟨l', rfl, hstart, rfl⟩
        exact ⟨⟨[], l'.text⟩, rfl, by simp [Script.lines, hl], by simp, hstart⟩
      · rintro ⟨s, rfl, htexts, hread⟩
        rcases Script.lines_cases hread htexts with ⟨-, hstart, hrules⟩ | ⟨d, s', -, hd, -⟩
        · obtain ⟨l', rfl, hl'⟩ := List.map_eq_singleton_iff.mp hstart
          exact ⟨l', rfl, hl' ▸ hread.start, by rw [Script.items, hrules, hl']; rfl⟩
        · -- no rule is declared by the delimiter alone
          rw [hl, Declaration.parse_delimiter] at hd
          cases hd
    · cases hparse : Declaration.parse l.text with
      | error e =>
        rw [items_rules_of_error hl hparse]
        constructor
        · intro h
          cases is <;> cases h
        · rintro ⟨s, rfl, htexts, hread⟩
          rcases Script.lines_cases hread htexts with ⟨hdel, -⟩ | ⟨d, s', -, hd, -⟩
          · exact absurd hdel hl
          · rw [hparse] at hd
            cases hd
      | ok d =>
        have hdisplay := Declaration.display_of_parse hparse
        rw [items_rules_of_ok hl hparse]
        constructor
        · intro h
          cases is with
          | nil => cases h
          | cons i is =>
            obtain ⟨hi, his⟩ := List.cons_eq_cons.mp h
            obtain ⟨s, rfl, htexts, hread⟩ := ih.mp his
            refine ⟨s.cons d, ?_, ?_, Script.isReadable_cons_iff.mpr ⟨?_, hread⟩⟩
            · rw [← Except.ok.inj hi, Script.items_cons]
            · rw [List.map_cons, htexts, ← hdisplay, Script.lines_cons]
            · rw [hdisplay, hparse]
        · rintro ⟨s, rfl, htexts, hread⟩
          rcases Script.lines_cases hread htexts with
            ⟨hdel, -⟩ | ⟨d', s', rfl, hd', htexts', hread'⟩
          · exact absurd hdel hl
          · rw [hparse] at hd'
            obtain rfl := Except.ok.inj hd'
            rw [ih.mpr ⟨s', rfl, htexts', hread'⟩, Script.items_cons, List.map_cons]

end Phase

/-! ### Parsing -/

namespace Script

theorem ofItems?_cons_rule (d : Declaration) (is : List Item) :
    ofItems? (.rule d :: is) = (ofItems? is).map (cons d) := by
  unfold ofItems?
  rw [List.findSome?_cons, List.filterMap_cons, Option.map_map]
  rfl

theorem ofItems?_items (s : Script) : ofItems? s.items = some s := by
  obtain ⟨rules, start⟩ := s
  unfold items
  induction rules with
  | nil => rfl
  | cons d rules ih =>
    simp only [List.map_cons, List.cons_append] at ih ⊢
    rw [ofItems?_cons_rule, ih]
    rfl

/-- **What a text has to look like to hold a script.** -/
theorem parse_eq_ok_iff {text : Word} {s : Script} :
    parse text = .ok s ↔ (Line.significant text).map Line.text = s.lines ∧ s.IsReadable := by
  unfold parse collect
  constructor
  · intro h
    cases hitems : (Item.all text).mapM id with
    | error e =>
      rw [hitems] at h
      cases h
    | ok is =>
      obtain ⟨s', rfl, htexts, hread⟩ := Phase.items_rules_eq_iff.mp (mapM_id_eq_ok_iff.mp hitems)
      rw [hitems] at h
      simp only [bind, Except.bind, ofItems?_items, Except.ok.injEq] at h
      exact h ▸ ⟨htexts, hread⟩
  · rintro ⟨htexts, hread⟩
    have hitems : (Item.all text).mapM id = .ok s.items :=
      mapM_id_eq_ok_iff.mpr (Phase.items_rules_eq_iff.mpr ⟨s, rfl, htexts, hread⟩)
    rw [hitems]
    simp only [bind, Except.bind, ofItems?_items]

theorem display_eq_flatMap (s : Script) : s.display = s.lines.flatMap (· ++ ['\n']) := by
  simp [display, lines, List.flatMap_map]

end Script

end SemiThue
