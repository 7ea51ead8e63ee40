import Mathlib
import SemiThue.Proofs.Grammar

/-!
# SemiThue.Proofs.Layouts — layout has no meaning

The same lines can be laid out in many ways: with spaces on both sides, with either kind of line
break, and with lines of spaces between them.

* `LaidOut ls text`: the text is a layout of the lines `ls`.
* `insertBlank blanks ls`: the lines `ls` with blank lines between them.
* `Line.numbered_lines`, `Line.numbered_insertBlank`: what is left of a layout are the lines that
  are not blank, and blank lines before them only raise their numbers.
* `Script.collect_renumber`: a reading depends on the numbers of the lines in the number of its
  error only.
-/

namespace SemiThue

/-! ### Layouts -/

/-- A line with `i` spaces before it and `j` spaces after it. -/
def Word.pad (i j : Nat) (l : Word) : Word := List.replicate i ' ' ++ l ++ List.replicate j ' '

/-- The text holds the given lines, each between any numbers of spaces and followed by a line feed
or by a return and a line feed.  The line break after the last line may be missing. -/
inductive LaidOut : List Word → Word → Prop
  | nil : LaidOut [] []
  | last (l : Word) (i j : Nat) : LaidOut [l] (l.pad i j)
  | line {ls : List Word} {text lineBreak : Word} (l : Word) (i j : Nat)
      (hbreak : lineBreak = ['\n'] ∨ lineBreak = ['\r', '\n']) (h : LaidOut ls text) :
      LaidOut (l :: ls) (l.pad i j ++ lineBreak ++ text)

/-- The lines `ls`, of which the first one has the place `k`, with `blanks k` blank lines before the
line at place `k`, and as many after the last line as belong to the place after it. -/
def insertBlankFrom (blanks : Nat → Nat) : Nat → List Word → List Word
  | k, [] => List.replicate (blanks k) []
  | k, l :: ls => List.replicate (blanks k) [] ++ l :: insertBlankFrom blanks (k + 1) ls

/-- The given lines with blank lines between them: `blanks k` of them after the first `k` lines. -/
def insertBlank (blanks : Nat → Nat) (ls : List Word) : List Word := insertBlankFrom blanks 0 ls

/-- The number that a line has once the blank lines are inserted, if it had the number `n` before:
as many more as there are blank lines before it. -/
def raised (blanks : Nat → Nat) (n : Nat) : Nat := n + ∑ k ∈ Finset.range n, blanks k

theorem forall_mem_insertBlankFrom {P : Word → Prop} (hblank : P []) {ls : List Word}
    (hls : ∀ l ∈ ls, P l) (blanks : Nat → Nat) (k : Nat) :
    ∀ l ∈ insertBlankFrom blanks k ls, P l := by
  have hreplicate (m : Nat) : ∀ l ∈ List.replicate m [], P l := by
    intro l hl
    rwa [List.eq_of_mem_replicate hl]
  induction ls generalizing k with
  | nil => exact hreplicate (blanks k)
  | cons l ls ih =>
    intro l' hl'
    rcases List.mem_append.mp hl' with hl' | hl'
    · exact hreplicate (blanks k) l' hl'
    · rcases List.mem_cons.mp hl' with rfl | hl'
      · exact hls l' List.mem_cons_self
      · exact ih (fun l' hl' => hls l' (List.mem_cons_of_mem l hl')) (k + 1) l' hl'

theorem forall_mem_insertBlank {P : Word → Prop} (hblank : P []) {ls : List Word}
    (hls : ∀ l ∈ ls, P l) (blanks : Nat → Nat) : ∀ l ∈ insertBlank blanks ls, P l :=
  forall_mem_insertBlankFrom hblank hls blanks 0

namespace Word

theorem dropWhile_replicate_space (i : Nat) (w : Word) :
    (List.replicate i ' ' ++ w).dropWhile (· == ' ') = w.dropWhile (· == ' ') :=
  List.dropWhile_append_of_pos fun c hc => by simp [List.eq_of_mem_replicate hc]

@[simp] theorem trimSpaces_pad (i j : Nat) (l : Word) : trimSpaces (l.pad i j) = trimSpaces l := by
  have hspaces := dropWhile_replicate_space j []
  rw [List.append_nil, List.dropWhile_nil] at hspaces
  unfold trimSpaces pad
  rw [List.append_assoc, dropWhile_replicate_space, List.dropWhile_append]
  by_cases hl : l.dropWhile (· == ' ') = []
  · simp [hl, hspaces]
  · rw [if_neg (by simpa using hl), List.reverse_append, List.reverse_replicate,
      dropWhile_replicate_space]

theorem notMem_pad {c : Char} (hc : c ≠ ' ') {i j : Nat} {l : Word} (h : c ∉ l) :
    c ∉ l.pad i j := by
  simp [pad, List.mem_replicate, hc, h]

end Word

namespace Line

open Word

theorem numbered_cons_congr {n : Nat} {l l' : Word} {ls ls' : List Word}
    (hl : trimSpaces l = trimSpaces l') (hls : numbered (n + 1) ls = numbered (n + 1) ls') :
    numbered n (l :: ls) = numbered n (l' :: ls') := by
  rw [numbered_cons, numbered_cons, hl, hls]

/-- A layout has the lines that it is made of, but for spaces and blank lines. -/
theorem numbered_lines {ls : List Word} {text : Word} (h : LaidOut ls text)
    (hls : ∀ l ∈ ls, '\n' ∉ l ∧ '\r' ∉ l) (n : Nat) :
    numbered n (lines text) = numbered n ls := by
  induction h generalizing n with
  | nil => rfl
  | last l i j =>
    obtain ⟨hfeed, -⟩ := hls l List.mem_cons_self
    rw [lines_of_notMem (notMem_pad (by decide) hfeed)]
    split_ifs with hnil
    · -- a last line without anything in it is no line at all, but it would be blank
      have htrim : trimSpaces l = [] := by rw [← trimSpaces_pad i j, hnil]; rfl
      rw [numbered_cons, if_pos htrim]
      rfl
    · exact numbered_cons_congr (trimSpaces_pad i j l) rfl
  | @line ls text lineBreak l i j hbreak h ih =>
    obtain ⟨hfeed, hreturn⟩ := hls l List.mem_cons_self
    have hfeed : '\n' ∉ l.pad i j := notMem_pad (by decide) hfeed
    have hreturn : '\r' ∉ l.pad i j := notMem_pad (by decide) hreturn
    have hlines : lines (l.pad i j ++ lineBreak ++ text) = l.pad i j :: lines text := by
      rcases hbreak with rfl | rfl
      · rw [List.append_assoc, List.singleton_append, lines_append_newline _ hfeed,
          dropReturn_eq_self_iff.mpr fun hlast => hreturn (List.mem_of_getLast? hlast)]
      · have hfeed' : '\n' ∉ l.pad i j ++ ['\r'] := by simpa using hfeed
        have hsplit : l.pad i j ++ ['\r', '\n'] ++ text =
            (l.pad i j ++ ['\r']) ++ '\n' :: text := by simp
        rw [hsplit, lines_append_newline _ hfeed', dropReturn_concat_return]
    rw [hlines]
    exact numbered_cons_congr (trimSpaces_pad i j l)
      (ih (fun l' hl' => hls l' (List.mem_cons_of_mem l hl')) (n + 1))

/-! ### Blank lines -/

def renumber (f : Nat → Nat) (l : Line) : Line := { l with number := f l.number }

theorem numbered_replicate_append (n m : Nat) (ls : List Word) :
    numbered n (List.replicate m [] ++ ls) = numbered (n + m) ls := by
  induction m generalizing n with
  | zero => rfl
  | succ m ih =>
    have hblank : trimSpaces [] = [] := rfl
    rw [List.replicate_succ, List.cons_append, numbered_cons, if_pos hblank, List.nil_append, ih]
    congr 1
    omega

theorem raised_succ (blanks : Nat → Nat) (k : Nat) :
    raised blanks (k + 1) = raised blanks k + blanks k + 1 := by
  rw [raised, raised, Finset.sum_range_succ]
  omega

/-- Blank lines raise the numbers of the lines after them, and have no other effect. -/
theorem numbered_insertBlankFrom (blanks : Nat → Nat) (ls : List Word) (k : Nat) :
    numbered (raised blanks k + 1) (insertBlankFrom blanks k ls) =
      (numbered (k + 1) ls).map (renumber (raised blanks)) := by
  induction ls generalizing k with
  | nil =>
    have h := numbered_replicate_append (raised blanks k + 1) (blanks k) []
    rw [List.append_nil] at h
    exact h
  | cons l ls ih =>
    rw [insertBlankFrom, numbered_replicate_append, numbered_cons, numbered_cons, List.map_append,
      ← ih (k + 1)]
    have hnumber : raised blanks k + 1 + blanks k = raised blanks (k + 1) := by
      rw [raised_succ]
      omega
    rw [hnumber]
    split_ifs <;> rfl

theorem numbered_insertBlank (blanks : Nat → Nat) (ls : List Word) :
    numbered 1 (insertBlank blanks ls) = (numbered 1 ls).map (renumber (raised blanks)) :=
  numbered_insertBlankFrom blanks ls 0

end Line

/-! ### Numbers of lines -/

/-- The same error on another line. -/
def ParseError.renumber (f : Nat → Nat) : ParseError → ParseError
  | .declaration n e => .declaration (f n) e
  | .duplicateDelimiter n => .duplicateDelimiter (f n)
  | .trailingLine n => .trailingLine (f n)
  | .missingStart => .missingStart

namespace Phase

variable (f : Nat → Nat)

theorem accept_renumber (phase : Phase) (l : Line) :
    phase.accept (l.renumber f) =
      ((phase.accept l).1.map (·.mapError (·.renumber f)), (phase.accept l).2) := by
  cases phase with
  | rules =>
    by_cases hl : l.text = delimiter
    · simp [accept, Line.renumber, hl]
    · cases hparse : Declaration.parse l.text with
      | error e => simp [accept, Line.renumber, hl, hparse, Except.mapError, Except.map,
          ParseError.renumber]
      | ok d => simp [accept, Line.renumber, hl, hparse, Except.mapError, Except.map]
  | start =>
    by_cases hl : l.text = delimiter
    · simp [accept, Line.renumber, hl, Except.mapError, ParseError.renumber]
    · simp [accept, Line.renumber, hl, Except.mapError]
  | done => rfl

theorem items_renumber (phase : Phase) (ls : List Line) :
    phase.items (ls.map (·.renumber f)) = (phase.items ls).map (·.mapError (·.renumber f)) := by
  induction ls generalizing phase with
  | nil => cases phase <;> rfl
  | cons l ls ih =>
    rw [List.map_cons, items, items, accept_renumber, ih, List.map_append]
    cases (phase.accept l).1 <;> rfl

end Phase

theorem mapM_id_map_mapError {ε ε' α : Type} (g : ε → ε') (xs : List (Except ε α)) :
    (xs.map (·.mapError g)).mapM id = (xs.mapM id).mapError g := by
  induction xs with
  | nil => rfl
  | cons x xs ih =>
    rw [List.map_cons, List.mapM_cons, List.mapM_cons, ih]
    cases x with
    | error e => rfl
    | ok y => cases xs.mapM id <;> rfl

namespace Script

theorem collect_renumber (f : Nat → Nat) (items : List (Except ParseError Item)) :
    collect (items.map (·.mapError (·.renumber f))) = (collect items).mapError (·.renumber f) := by
  unfold collect
  rw [mapM_id_map_mapError]
  cases items.mapM id with
  | error e => rfl
  | ok is =>
    cases hs : ofItems? is with
    | none => simp [bind, Except.bind, Except.mapError, hs, ParseError.renumber]
    | some s => simp [bind, Except.bind, Except.mapError, hs]

/-- Only the lines matter that a text is a layout of. -/
theorem parse_eq_collect_numbered {ls : List Word} {text : Word} (h : LaidOut ls text)
    (hls : ∀ l ∈ ls, '\n' ∉ l ∧ '\r' ∉ l) :
    parse text = collect (Phase.rules.items (Line.numbered 1 ls)) := by
  rw [parse, Item.all, Line.significant, Line.numbered_lines h hls]

/-- **Layout has no meaning.**  All layouts of the same lines give the same script, or the same
error on the same line.  Lines of spaces, wherever they are inserted, leave a script as it is, and
an error as it is but for its line, whose number is raised by the lines inserted before it. -/
theorem parse_of_laidOut (ls : List Word) (hls : ∀ l ∈ ls, '\n' ∉ l ∧ '\r' ∉ l) :
    (∀ text text', LaidOut ls text → LaidOut ls text' → parse text = parse text') ∧
    ∀ blanks text text', LaidOut ls text → LaidOut (insertBlank blanks ls) text' →
      parse text' = (parse text).mapError (·.renumber (raised blanks)) := by
  constructor
  · intro text text' h h'
    rw [parse_eq_collect_numbered h hls, parse_eq_collect_numbered h' hls]
  · intro blanks text text' h h'
    rw [parse_eq_collect_numbered h hls,
      parse_eq_collect_numbered h' (forall_mem_insertBlank (by simp) hls blanks),
      Line.numbered_insertBlank, Phase.items_renumber, collect_renumber]

/-- A line after the start state is an error in both layouts.  With one more line before the
delimiter and two more after the start state, it is the same error three lines further on. -/
theorem parse_of_laidOut_trailing :
    let ls : List Word := [delimiter, ['x'], ['y']]
    let text : Word := [':', ':', '=', '\n', 'x', '\n', 'y']
    let text' : Word := [' ', ':', ':', '=', '\r', '\n', 'x', ' ', '\n', 'y', '\r', '\n']
    let blanks : Nat → Nat := fun k => [1, 0, 2].getD k 0
    let spaced : Word :=
      ['\n', ':', ':', '=', '\n', 'x', '\n', ' ', '\r', '\n', '\n', 'y', '\n']
    (∀ l ∈ ls, '\n' ∉ l ∧ '\r' ∉ l) ∧ LaidOut ls text ∧ LaidOut ls text' ∧
      LaidOut (insertBlank blanks ls) spaced ∧ parse text = .error (.trailingLine 3) ∧
      parse text' = .error (.trailingLine 3) ∧ parse spaced = .error (.trailingLine 6) := by
  intro ls text text' blanks spaced
  have hls : ∀ l ∈ ls, '\n' ∉ l ∧ '\r' ∉ l := by decide
  have h := LaidOut.line delimiter 0 0 (.inl rfl) (.line ['x'] 0 0 (.inl rfl) (.last ['y'] 0 0))
  have h' := LaidOut.line delimiter 1 0 (.inr rfl)
    (.line ['x'] 0 1 (.inl rfl) (.line ['y'] 0 0 (.inr rfl) .nil))
  have hspaced := LaidOut.line [] 0 0 (.inl rfl) (.line delimiter 0 0 (.inl rfl)
    (.line ['x'] 0 0 (.inl rfl) (.line [] 1 0 (.inr rfl) (.line [] 0 0 (.inl rfl)
      (.line ['y'] 0 0 (.inl rfl) .nil)))))
  have hparse : parse text = .error (.trailingLine 3) := by decide +kernel
  obtain ⟨hsame, hinsert⟩ := parse_of_laidOut ls hls
  have hparse' := hsame text text' h h'
  have hraised := hinsert blanks text spaced h hspaced
  rw [hparse] at hparse' hraised
  exact ⟨hls, h, h', hspaced, hparse, hparse'.symm, hraised⟩

end Script

end SemiThue
