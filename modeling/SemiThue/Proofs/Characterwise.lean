import Mathlib
import SemiThue.Proofs.Halting

/-!
# SemiThue.Proofs.Characterwise — programs that rewrite single characters

If every pattern is a single character, no two patterns are the same, and no replacement brings a
pattern back, then it is clear from the start what becomes of each character: its rule replaces or
removes it, once.  The order in which this happens shows only in the order of the messages.

* `result`, `owed`: what becomes of a state, and the messages that it has still to print.
* `Progress rules k c c'`: what `k` steps keep.  The result is the same, the patterns that are left
  are `k` fewer, and the messages printed are those that are no longer owed.
* `run_characterwise`: all runs end in the same state, after the same number of steps.
-/

namespace SemiThue
namespace Characterwise

section Characters

variable (rules : List Rule)

/-- The character is the pattern of a rule. -/
def IsPattern (c : Char) : Prop := ∃ r ∈ rules, r.pattern = [c]

instance : DecidablePred (IsPattern rules) := fun c =>
  inferInstanceAs (Decidable (∃ r ∈ rules, r.pattern = [c]))

/-- What the rule for a character does. -/
def kind? (c : Char) : Option Kind := (rules.find? (·.pattern = [c])).map (·.kind)

/-- What becomes of a character. -/
def image (c : Char) : Word :=
  match kind? rules c with
  | some (.standard text) => text
  | some (.print _) => []
  | _ => [c]

/-- What is printed for a character. -/
def message? (c : Char) : Option Word :=
  match kind? rules c with
  | some (.print message) => some (if message = [] then ['\n'] else message)
  | _ => none

/-- The number of characters of a word that are patterns. -/
def pending (w : Word) : Nat := w.countP (IsPattern rules ·)

/-- What becomes of a word. -/
def result (w : Word) : Word := w.flatMap (image rules)

/-- The messages for the characters of a word, once for each occurrence. -/
def owed (w : Word) : List Word := w.filterMap (message? rules)

end Characters

/-- The patterns are single characters and pairwise distinct, no rule reads, and no replacement
contains a pattern. -/
structure IsCharacterwise (rules : List Rule) : Prop where
  single : ∀ r ∈ rules, ∃ c, r.pattern = [c]
  distinct : (rules.map (·.pattern)).Nodup
  no_read : ∀ r ∈ rules, r.kind ≠ .read
  inert : ∀ r ∈ rules, ∀ text, r.kind = .standard text → ∀ c ∈ text, ¬ IsPattern rules c

variable {rules : List Rule}

/-! ### Words and what becomes of them -/

@[simp]
theorem pending_append (u v : Word) : pending rules (u ++ v) = pending rules u + pending rules v :=
  List.countP_append

@[simp]
theorem result_append (u v : Word) : result rules (u ++ v) = result rules u ++ result rules v :=
  List.flatMap_append

@[simp]
theorem owed_append (u v : Word) : owed rules (u ++ v) = owed rules u ++ owed rules v :=
  List.filterMap_append

theorem pending_eq_zero_iff {w : Word} : pending rules w = 0 ↔ ∀ c ∈ w, ¬ IsPattern rules c := by
  simp [pending]

theorem kind?_of_not_isPattern {c : Char} (h : ¬ IsPattern rules c) : kind? rules c = none := by
  unfold kind?
  rw [Option.map_eq_none_iff, List.find?_eq_none]
  intro r hr hc
  exact h ⟨r, hr, by simpa using hc⟩

/-- A word without patterns stays as it is. -/
theorem result_of_pending_eq_zero {w : Word} (h : pending rules w = 0) : result rules w = w := by
  have himage : ∀ c ∈ w, image rules c = [c] := by
    intro c hc
    rw [image, kind?_of_not_isPattern (pending_eq_zero_iff.mp h c hc)]
  rw [result, List.flatMap_congr himage, List.flatMap_singleton']

theorem owed_of_pending_eq_zero {w : Word} (h : pending rules w = 0) : owed rules w = [] := by
  refine List.filterMap_eq_nil_iff.mpr fun c hc => ?_
  rw [message?, kind?_of_not_isPattern (pending_eq_zero_iff.mp h c hc)]

namespace IsCharacterwise

/-- A character has one rule at most. -/
theorem kind?_eq (h : IsCharacterwise rules) {r : Rule} (hr : r ∈ rules) {c : Char}
    (hc : r.pattern = [c]) : kind? rules c = some r.kind := by
  unfold kind?
  cases hfind : rules.find? (·.pattern = [c]) with
  | none => simpa [hc] using List.find?_eq_none.mp hfind r hr
  | some r' =>
    have hc' : r'.pattern = [c] := by simpa using List.find?_some hfind
    have hsame : r' = r := List.inj_on_of_nodup_map h.distinct (List.mem_of_find?_eq_some hfind) hr
      (hc'.trans hc.symm)
    rw [hsame, Option.map_some]

/-- No pattern occurs exactly if no character is one. -/
theorem isNormal_iff {p : Program} (h : IsCharacterwise p.rules) :
    p.IsNormal ↔ pending p.rules p.state = 0 := by
  rw [Program.IsNormal, pending_eq_zero_iff]
  constructor
  · rintro hnormal c hc ⟨r, hr, hpattern⟩
    obtain ⟨u, v, hs⟩ := List.append_of_mem hc
    exact hnormal r hr ⟨u, v, by rw [hpattern, hs]; simp⟩
  · rintro hfree r hr hin
    obtain ⟨c, hpattern⟩ := h.single r hr
    rw [hpattern] at hin
    exact hfree c (hin.subset List.mem_cons_self) ⟨r, hr, hpattern⟩

/-- What a rule does to its character. -/
theorem effect (h : IsCharacterwise rules) {r : Rule} (hr : r ∈ rules) {c : Char}
    (hc : r.pattern = [c]) {b b' : Buffer} {o : Word} (he : Effect r.kind b o b') :
    result rules [c] = o ∧ pending rules o = 0 ∧ b'.input = b.input ∧
      b'.output = b.output ++ (owed rules [c]).flatten := by
  have hkind := h.kind?_eq hr hc
  have hread := h.no_read r hr
  have hinert := h.inert r hr
  unfold result owed image message?
  generalize r.kind = k at hkind hread hinert he
  cases he with
  | standard =>
    exact ⟨by simp [hkind], pending_eq_zero_iff.mpr (hinert o rfl), rfl, by simp [hkind]⟩
  | newline input output => exact ⟨by simp [hkind], rfl, rfl, by simp [hkind]⟩
  | print hm input output => exact ⟨by simp [hkind], rfl, rfl, by simp [hkind, hm]⟩
  | read => exact absurd rfl hread
  | readEnd => exact absurd rfl hread

end IsCharacterwise

/-! ### Steps -/

/-- What `k` steps from `c` to `c'` leave as it is, and what they get done. -/
structure Progress (rules : List Rule) (k : Nat) (c c' : Configuration) : Prop where
  pending_eq : pending rules c.state = pending rules c'.state + k
  result_eq : result rules c.state = result rules c'.state
  input_eq : c'.console.input = c.console.input
  printed : ∃ messages : List Word, (messages ++ owed rules c'.state).Perm (owed rules c.state) ∧
    c'.console.output = c.console.output ++ messages.flatten

namespace Progress

theorem refl (c : Configuration) : Progress rules 0 c c :=
  ⟨rfl, rfl, rfl, [], .refl _, (List.append_nil _).symm⟩

theorem trans {k l : Nat} {c c' c'' : Configuration} (h : Progress rules k c c')
    (h' : Progress rules l c' c'') : Progress rules (k + l) c c'' := by
  obtain ⟨messages, hperm, houtput⟩ := h.printed
  obtain ⟨messages', hperm', houtput'⟩ := h'.printed
  have hpending := h.pending_eq
  have hpending' := h'.pending_eq
  refine ⟨by omega, h.result_eq.trans h'.result_eq, h'.input_eq.trans h.input_eq,
    messages ++ messages', ?_, ?_⟩
  · rw [List.append_assoc]
    exact (hperm'.append_left messages).trans hperm
  · rw [houtput', houtput, List.flatten_append, List.append_assoc]

/-- A step does for one character what is to be done for it. -/
theorem of_step (h : IsCharacterwise rules) {c c' : Configuration} {x : Redex}
    (hstep : Step rules c x c') : Progress rules 1 c c' := by
  obtain @⟨i, r, u, v, o, b, b', hr, he⟩ := hstep
  have hr := List.mem_of_getElem? hr
  obtain ⟨a, ha⟩ := h.single r hr
  obtain ⟨hresult, hfree, hinput, houtput⟩ := h.effect hr ha he
  have hone : pending rules [a] = 1 := List.countP_eq_length.mpr (by simpa using ⟨r, hr, ha⟩)
  rw [ha]
  refine ⟨?_, ?_, hinput, owed rules [a], ?_, houtput⟩
  · simp only [pending_append, hone, hfree]
    omega
  · rw [result_append, result_append, result_append, result_append, hresult,
      result_of_pending_eq_zero hfree]
  · rw [owed_append, owed_append, owed_append, owed_append, owed_of_pending_eq_zero hfree,
      List.append_nil, List.append_assoc]
    exact List.perm_append_comm_assoc _ _ _

theorem of_derivation (h : IsCharacterwise rules) {c c' : Configuration}
    {ds : List (Redex × Configuration)} (hds : Derivation rules c ds c') :
    Progress rules ds.length c c' := by
  induction hds with
  | refl c => exact .refl c
  | @step c c₁ c₂ x ds hstep _ ih =>
    have hprogress := (of_step h hstep).trans ih
    rwa [Nat.add_comm] at hprogress

end Progress

end Characterwise

/-! ### Runs -/

namespace Machine

open Characterwise

variable {m : Machine Buffer}

theorem progress_of_productive (h : IsCharacterwise m.program.rules) {k : Nat}
    (hk : m.Productive k) :
    Progress m.program.rules k m.configuration (m.after k).configuration := by
  obtain ⟨ds, rfl, hds⟩ := exists_derivation_of_productive hk
  exact .of_derivation h hds

/-- Every step takes one pattern away, so there are as many steps as patterns. -/
theorem haltsAfter_pending (h : IsCharacterwise m.program.rules) :
    m.HaltsAfter (pending m.program.rules m.program.state) := by
  have hcount : ∀ k, m.Productive k → pending m.program.rules m.program.state =
      pending m.program.rules (m.after k).program.state + k :=
    fun k hk => (progress_of_productive h hk).pending_eq
  have hbound : ∀ k, m.Productive k → k ≤ pending m.program.rules m.program.state := by
    intro k hk
    rw [hcount k hk]
    omega
  obtain ⟨k, -, hhalts⟩ := exists_haltsAfter hbound
  have hzero : pending m.program.rules (m.after k).program.state = 0 := by
    have hrules := m.rules_after k
    rw [← hrules, ← IsCharacterwise.isNormal_iff (hrules ▸ h)]
    exact hhalts.isNormal
  rw [hcount k hhalts.productive, hzero, Nat.zero_add]
  exact hhalts

/-- **Programs that rewrite single characters are confluent.**  Whatever the tape, such a program
halts after as many steps as the state has patterns, and runs reach their bound unless it is greater
than that.  In the final state every character with a rule has been replaced or removed.  The
messages of all characters that print have been written, in some order, and no input was read. -/
theorem run_characterwise (m : Machine Buffer) (h : IsCharacterwise m.program.rules) :
    let rules := m.program.rules
    let start := m.program.state
    let k := pending rules start
    m.HaltsAfter k ∧
    ∃ final : Machine Buffer,
      (∀ n > k, m.runBounded n = (.fixpoint, final) ∧ m.run? n = some final) ∧
      (∀ n ≤ k, (m.runBounded n).1 = .limit ∧ m.run? n = none) ∧
      final.program = { rules, state := result rules start, steps := m.program.steps + k } ∧
      final.console.input = m.console.input ∧
      ∃ messages : List Word, messages.Perm (owed rules start) ∧
        final.console.output = m.console.output ++ messages.flatten := by
  intro rules start k
  have hhalts : m.HaltsAfter k := haltsAfter_pending h
  obtain ⟨final, hgreater, hothers, hprogram, hconsole⟩ := hhalts.runs
  obtain ⟨hpending, hresult, hinput, messages, hperm, houtput⟩ :=
    progress_of_productive h hhalts.productive
  have hzero : pending rules (m.after k).program.state = 0 := by
    have : k = pending rules (m.after k).program.state + k := hpending
    omega
  refine ⟨hhalts, final, hgreater, hothers, ?_, ?_, messages, ?_, ?_⟩
  · have hstate : (m.after k).program.state = result rules start := by
      rw [← result_of_pending_eq_zero hzero]
      exact hresult.symm
    have hrules : rules = (m.after k).program.rules := (m.rules_after k).symm
    rw [hprogram, ← hstate, ← steps_after hhalts.productive, hrules]
  · rw [hconsole]
    exact hinput
  · have howed : owed rules (m.after k).configuration.state = [] := owed_of_pending_eq_zero hzero
    rwa [howed, List.append_nil] at hperm
  · rw [hconsole]
    exact houtput

/-- Five of six characters have a rule.  Two of them are replaced, and three print, one of them a
newline. -/
theorem run_characterwise_five :
    let rules : List Rule := [⟨['a'], .standard ['x', 'ä'], by decide⟩,
      ⟨['b'], .print [], by decide⟩, ⟨['c'], .print ['m'], by decide⟩]
    let p : Program := { rules, state := ['c', 'a', 'b', 'a', '€', 'c'] }
    let m : Machine Buffer :=
      { console := ⟨[['l']], ['>']⟩, tape := .ofWords [3000000000, 7, 1], program := p }
    IsCharacterwise rules ∧ m.run? 5 = none ∧
      ∃ final, m.run? 6 = some final ∧
        final.program = { rules, state := ['x', 'ä', 'x', 'ä', '€'], steps := 5 } ∧
        final.console.input = [['l']] ∧
        ∃ messages : List Word, messages.Perm [['m'], ['\n'], ['m']] ∧
          final.console.output = ['>'] ++ messages.flatten := by
  intro rules p m
  have hrules : IsCharacterwise rules :=
    ⟨by simp [rules], by decide, by decide, by simp [rules, IsPattern]⟩
  obtain ⟨-, final, hgreater, hothers, hprogram, hinput, houtput⟩ := run_characterwise m hrules
  have hcount : pending m.program.rules m.program.state = 5 := by decide
  rw [hcount] at hgreater hothers hprogram
  have hresult : result m.program.rules m.program.state = ['x', 'ä', 'x', 'ä', '€'] := by decide
  have howed : owed m.program.rules m.program.state = [['m'], ['\n'], ['m']] := by decide
  rw [hresult] at hprogram
  rw [howed] at houtput
  exact ⟨hrules, (hothers 5 le_rfl).2, final, (hgreater 6 (by omega)).2, hprogram, hinput, houtput⟩

end Machine

end SemiThue
