import Mathlib
import SemiThue.Proofs.Rewriting
import SemiThue.Proofs.Shuffle

/-!
# SemiThue.Proofs.Pass — what a pass does

One lemma for each function on the way from a rule to a pass.  The lemmas hold for every console,
every tape, and every order that is left over from earlier passes.

* `Engine.drawOrder_eq`: the order of a pass depends on the draws alone.
* `Rule.substitute_of_occurs`, `Rule.substitute_of_not_occurs`: a substitution replaces the
  occurrence that is drawn; where the pattern does not occur, tape and console stay as they are.
* `Program.attempt_append`: rules that cannot be applied leave no trace, however many of them are
  tried.  So an attempt applies the first rule of the order that can be applied
  (`Program.attempt_of_find?`).
* `Machine.pass_cases` says all that a pass can do.
* `Machine.applied_eq_none_iff`, `Machine.split_of_applied`: a pass applies a rule whenever there is
  one that can be applied, and then the new state is the old one with an occurrence of the pattern
  replaced.
-/

namespace SemiThue

variable {C : Type}

/-! ### The order of a pass -/

/-- Nothing is left of an earlier order. -/
theorem Engine.drawOrder_eq (e : Engine C) (n : Nat) :
    e.drawOrder n = { e with
      order := arrangement (List.range n) (e.tape.shuffleDraws n).1
      tape := (e.tape.shuffleDraws n).2 } := by
  simp only [drawOrder, clearOrder, extendOrder, shuffleOrder, Tape.shuffle, List.nil_append,
    List.length_range, arrangement]

namespace Machine

variable (m : Machine C)

/-- The draws of the shuffle that a pass begins with. -/
def orderDraws : List Nat := (m.tape.shuffleDraws m.program.rules.length).1

/-- The tape after the shuffle that a pass begins with. -/
def shuffledTape : Tape := (m.tape.shuffleDraws m.program.rules.length).2

theorem orderDraws_mem : m.orderDraws ∈ drawVectors m.program.rules.length :=
  shuffleDraws_mem _ m.tape

end Machine

variable [Console C]

/-! ### Substitutions -/

theorem Tape.choose_of_ne_nil {α : Type} (t : Tape) {xs : List α} (h : xs ≠ []) :
    let draw := t.below (.forPlace xs.length) xs.length
    t.choose xs = (xs[draw.1]?, draw.2) := by
  cases xs with
  | nil => exact absurd rfl h
  | cons x xs => rfl

namespace Rule

theorem occurrences_eq_nil_iff (r : Rule) {state : Word} :
    state.occurrences r.pattern = [] ↔ ¬ r.pattern <:+: state := by
  rw [List.eq_nil_iff_forall_not_mem]
  constructor
  · rintro h ⟨u, v, rfl⟩
    exact h (Word.byteLength u) ((Word.mem_occurrences_iff r.pattern_ne_nil).mpr ⟨u, v, rfl, rfl⟩)
  · intro h k hk
    obtain ⟨u, v, rfl, -⟩ := (Word.mem_occurrences_iff r.pattern_ne_nil).mp hk
    exact h ⟨u, v, rfl⟩

/-- A rule that does not match draws no word, and neither prints nor reads. -/
theorem substitute_of_not_occurs (r : Rule) {state : Word} (tape : Tape) (console : C)
    (h : ¬ r.pattern <:+: state) : r.substitute state tape console = (.missed, tape, console) := by
  unfold substitute
  rw [r.occurrences_eq_nil_iff.mpr h]
  rfl

/-- A single draw below the number of occurrences says which occurrence is replaced. -/
theorem substitute_of_occurs (r : Rule) {state : Word} (tape : Tape) (console : C)
    (h : r.pattern <:+: state) :
    let positions := state.occurrences r.pattern
    let draw := tape.below (.forPlace positions.length) positions.length
    let effect := r.kind.perform console
    ∃ u v, state = u ++ r.pattern ++ v ∧ positions[draw.1]? = some u.byteLength ∧
      r.substitute state tape console =
        (.applied { position := u.byteLength, replacement := effect.1, state := u ++ effect.1 ++ v
                    events := r.kind.events console }, draw.2, effect.2) := by
  intro positions draw effect
  have hne : positions ≠ [] := fun hnil => r.occurrences_eq_nil_iff.mp hnil h
  have hlt : draw.1 < positions.length := tape.below_lt _ (List.length_pos_of_ne_nil hne)
  have hget := List.getElem?_eq_getElem hlt
  obtain ⟨u, v, hs, hpos⟩ := (Word.mem_occurrences_iff r.pattern_ne_nil).mp (List.getElem_mem hlt)
  rw [hpos] at hget
  have hchoose : tape.choose positions = (some u.byteLength, draw.2) := by
    rw [tape.choose_of_ne_nil hne, ← hget]
  have hsplice : state.splice? u.byteLength (u.byteLength + r.pattern.byteLength) effect.1 =
      some (u ++ effect.1 ++ v) := by
    rw [hs, Word.splice?_infix]
  refine ⟨u, v, hs, hget, ?_⟩
  unfold substitute
  rw [hchoose]
  dsimp only
  rw [hsplice]

end Rule

/-! ### Attempts -/

namespace Program

/-- The rule at the given place can be applied. -/
def Applies (p : Program) (i : Nat) : Prop := ∃ r, p.rules[i]? = some r ∧ r.pattern <:+: p.state

instance (p : Program) : DecidablePred p.Applies := fun i =>
  decidable_of_iff (∃ r ∈ p.rules[i]?, r.pattern <:+: p.state) Iff.rfl

theorem Applies.lt_length {p : Program} {i : Nat} (h : p.Applies i) : i < p.rules.length := by
  obtain ⟨r, hr, -⟩ := h
  exact (List.getElem?_eq_some_iff.mp hr).1

theorem forall_not_applies_iff {p : Program} :
    (∀ i, ¬ p.Applies i) ↔ ∀ r ∈ p.rules, ¬ r.pattern <:+: p.state := by
  constructor
  · intro h r hr hin
    obtain ⟨i, hi⟩ := List.getElem?_of_mem hr
    exact h i ⟨r, hi, hin⟩
  · rintro h i ⟨r, hr, hin⟩
    exact h r (List.mem_of_getElem? hr) hin

variable {p : Program}

/-- Trying a rule that cannot be applied leads to the next one, on the same tape and console. -/
theorem attempt_cons_of_not_applies {i : Nat} (order : List Nat) (tape : Tape) (console : C)
    (hi : i < p.rules.length) (h : ¬ p.Applies i) :
    p.attempt (i :: order) tape console = p.attempt order tape console := by
  have hr := List.getElem?_eq_getElem hi
  have hin : ¬ (p.rules[i]).pattern <:+: p.state := fun hin => h ⟨_, hr, hin⟩
  rw [attempt, hr]
  dsimp only
  rw [Rule.substitute_of_not_occurs _ tape console hin]

/-- Trying a rule that can be applied ends the attempt with its substitution. -/
theorem attempt_cons_of_applies {i : Nat} (order : List Nat) (tape : Tape) (console : C)
    (h : p.Applies i) :
    ∃ rule result tape' console', p.rules[i]? = some rule ∧ rule.pattern <:+: p.state ∧
      rule.substitute p.state tape console = (.applied result, tape', console') ∧
      p.attempt (i :: order) tape console =
        (.applied { index := i, rule, result }, tape', console') := by
  obtain ⟨rule, hr, hin⟩ := h
  obtain ⟨u, v, -, -, hsub⟩ := rule.substitute_of_occurs tape console hin
  refine ⟨rule, _, _, _, hr, hin, hsub, ?_⟩
  rw [attempt, hr]
  dsimp only
  rw [hsub]

/-- **Rules that do not match leave no trace.**  After any number of them the attempt goes on as if
they had not been tried. -/
theorem attempt_append {missed : List Nat} (order : List Nat) (tape : Tape) (console : C)
    (hlt : ∀ i ∈ missed, i < p.rules.length) (h : ∀ i ∈ missed, ¬ p.Applies i) :
    p.attempt (missed ++ order) tape console = p.attempt order tape console := by
  induction missed with
  | nil => rfl
  | cons i missed ih =>
    rw [List.forall_mem_cons] at hlt h
    rw [List.cons_append, attempt_cons_of_not_applies _ _ _ hlt.1 h.1, ih hlt.2 h.2]

theorem attempt_of_find?_eq_none {order : List Nat} (tape : Tape) (console : C)
    (hlt : ∀ i ∈ order, i < p.rules.length) (h : order.find? (p.Applies ·) = none) :
    p.attempt order tape console = (.missed, tape, console) := by
  have hnone : ∀ i ∈ order, ¬ p.Applies i := by simpa using h
  have := attempt_append [] tape console hlt hnone
  rw [List.append_nil] at this
  rw [this, attempt]

/-- An attempt applies the first rule of the order that can be applied, and that rule finds tape and
console as they were before the attempt. -/
theorem attempt_of_find? {order : List Nat} {i : Nat} (tape : Tape) (console : C)
    (hlt : ∀ i ∈ order, i < p.rules.length) (h : order.find? (p.Applies ·) = some i) :
    ∃ rule result tape' console', p.rules[i]? = some rule ∧ rule.pattern <:+: p.state ∧
      rule.substitute p.state tape console = (.applied result, tape', console') ∧
      p.attempt order tape console =
        (.applied { index := i, rule, result }, tape', console') := by
  obtain ⟨happ, missed, rest, rfl, hmissed⟩ := List.find?_eq_some_iff_append.mp h
  rw [attempt_append _ tape console (fun j hj => hlt j (List.mem_append_left _ hj))
    (by simpa using hmissed)]
  exact attempt_cons_of_applies rest tape console (by simpa using happ)

end Program

/-! ### Passes -/

namespace Machine

variable (m : Machine C)

theorem pass_order :
    m.pass.order = arrangement (List.range m.program.rules.length) m.orderDraws := by
  unfold pass
  rw [Engine.drawOrder_eq]
  dsimp only
  split <;> rfl

/-- The rules are tried in some order, each of them once. -/
theorem pass_order_perm : m.pass.order.Perm (List.range m.program.rules.length) := by
  rw [pass_order]
  exact arrangement_perm _ _

/-- No place is missing that the shuffle of a pass exchanges. -/
theorem rearrange?_orderDraws :
    rearrange? m.orderDraws (Array.range m.program.rules.length) = some m.pass.order.toArray := by
  rw [rearrange?_eq_some m.orderDraws_mem (by simp), pass_order, arrangement, List.toArray_range]

theorem mem_pass_order {i : Nat} : i ∈ m.pass.order ↔ i < m.program.rules.length := by
  rw [m.pass_order_perm.mem_iff, List.mem_range]

/-- Tape and console of a pass are those that its attempt hands on. -/
theorem attempt_pass_order : m.program.attempt m.pass.order m.shuffledTape m.console =
    (m.pass.outcome, m.pass.machine.tape, m.pass.machine.console) := by
  rw [pass_order]
  unfold pass
  rw [Engine.drawOrder_eq]
  dsimp only [Engine.record]
  split <;> rfl

theorem program_of_missed (h : m.pass.outcome = .missed) : m.pass.machine.program = m.program := by
  unfold pass at h ⊢
  dsimp only at h ⊢
  split at h <;> simp_all

theorem program_of_applied {a : Application} (h : m.pass.outcome = .applied a) :
    m.pass.machine.program = m.program.apply a := by
  unfold pass at h ⊢
  dsimp only at h ⊢
  split at h <;> simp_all

/-- **All that a pass can do.**  Either no rule of its order can be applied, and nothing changes but
the tape; or the first rule of its order that can be applied is applied. -/
theorem pass_cases :
    (m.pass.order.find? (m.program.Applies ·) = none ∧ m.pass.outcome = .missed ∧
      m.pass.machine.tape = m.shuffledTape ∧ m.pass.machine.console = m.console ∧
      m.pass.machine.program = m.program) ∨
    ∃ a, m.pass.order.find? (m.program.Applies ·) = some a.index ∧ m.pass.outcome = .applied a ∧
      m.program.rules[a.index]? = some a.rule ∧ a.rule.pattern <:+: m.program.state ∧
      a.rule.substitute m.program.state m.shuffledTape m.console =
        (.applied a.result, m.pass.machine.tape, m.pass.machine.console) ∧
      m.pass.machine.program = m.program.apply a := by
  have hlt : ∀ i ∈ m.pass.order, i < m.program.rules.length := fun i => m.mem_pass_order.mp
  have hpass := m.attempt_pass_order
  cases hf : m.pass.order.find? (m.program.Applies ·) with
  | none =>
    rw [Program.attempt_of_find?_eq_none _ _ hlt hf, Prod.mk.injEq, Prod.mk.injEq] at hpass
    obtain ⟨ho, ht, hc⟩ := hpass
    exact .inl ⟨rfl, ho.symm, ht.symm, hc.symm, m.program_of_missed ho.symm⟩
  | some i =>
    obtain ⟨rule, result, tape, console, hr, hin, hsub, hatt⟩ :=
      Program.attempt_of_find? m.shuffledTape m.console hlt hf
    rw [hatt, Prod.mk.injEq, Prod.mk.injEq] at hpass
    obtain ⟨ho, ht, hc⟩ := hpass
    rw [ht, hc] at hsub
    exact .inr ⟨_, rfl, ho.symm, hr, hin, hsub, m.program_of_applied ho.symm⟩

/-- No place is missing that a pass looks up or cuts at. -/
theorem pass_outcome_ne_fault : m.pass.outcome ≠ .fault := by
  obtain ⟨-, h, -⟩ | ⟨a, -, h, -⟩ := m.pass_cases <;> simp [h]

theorem applied_map_index : m.pass.applied.map (·.index) =
    (arrangement (List.range m.program.rules.length) m.orderDraws).find? (m.program.Applies ·) := by
  rw [← pass_order, Pass.applied]
  obtain ⟨hf, h, -⟩ | ⟨a, hf, h, -⟩ := m.pass_cases <;> rw [hf, h] <;> rfl

/-- **A pass misses no rule.**  It applies none exactly when no pattern occurs in the state. -/
theorem applied_eq_none_iff :
    m.pass.applied = none ↔ ∀ r ∈ m.program.rules, ¬ r.pattern <:+: m.program.state := by
  rw [← Program.forall_not_applies_iff, ← Option.map_eq_none_iff (f := (·.index)),
    applied_map_index, ← pass_order, List.find?_eq_none]
  constructor
  · intro h i hi
    exact h i (m.mem_pass_order.mpr hi.lt_length) (by simpa using hi)
  · intro h i _
    simpa using h i

theorem pass_machine_of_none (h : m.pass.applied = none) :
    m.pass.machine.console = m.console ∧ m.pass.machine.program = m.program ∧
      m.pass.machine.tape = m.shuffledTape := by
  obtain ⟨-, -, ht, hc, hp⟩ | ⟨a, -, ha, -⟩ := m.pass_cases
  · exact ⟨hc, hp, ht⟩
  · simp [Pass.applied, ha, Attempt.applied?] at h

variable {m}

theorem substitute_of_applied {a : Application} (h : m.pass.applied = some a) :
    m.program.rules[a.index]? = some a.rule ∧ a.rule.pattern <:+: m.program.state ∧
      a.rule.substitute m.program.state m.shuffledTape m.console =
        (.applied a.result, m.pass.machine.tape, m.pass.machine.console) ∧
      m.pass.machine.program = m.program.apply a := by
  obtain ⟨-, hmissed, -⟩ | ⟨a', -, ha', hr, hin, hsub, hp⟩ := m.pass_cases
  · simp [Pass.applied, hmissed, Attempt.applied?] at h
  · rw [Pass.applied, ha'] at h
    cases h
    exact ⟨hr, hin, hsub, hp⟩

/-- **A pass replaces one occurrence.**  The rule is the first of the order that can be applied, one
more draw says which of its occurrences is replaced, and what the rule does is done once. -/
theorem split_of_applied {a : Application} (h : m.pass.applied = some a) :
    let positions := m.program.state.occurrences a.rule.pattern
    let draw := m.shuffledTape.below (.forPlace positions.length) positions.length
    let effect := a.rule.kind.perform m.console
    m.program.rules[a.index]? = some a.rule ∧ positions[draw.1]? = some a.result.position ∧
      m.pass.machine.tape = draw.2 ∧ a.result.replacement = effect.1 ∧
      ∃ u v, m.program.state = u ++ a.rule.pattern ++ v ∧ a.result.position = u.byteLength ∧
        m.pass.machine.program.state = u ++ effect.1 ++ v ∧
        m.pass.machine.console = effect.2 := by
  intro positions draw effect
  obtain ⟨hr, hin, hsub, hprogram⟩ := substitute_of_applied h
  obtain ⟨u, v, hs, hget, hsub'⟩ := a.rule.substitute_of_occurs m.shuffledTape m.console hin
  rw [hsub, Prod.mk.injEq, Prod.mk.injEq] at hsub'
  obtain ⟨hres, htape, hconsole⟩ := hsub'
  have hres := Attempt.applied.inj hres
  have hpos : a.result.position = u.byteLength := by rw [hres]
  refine ⟨hr, hpos ▸ hget, htape, by rw [hres], u, v, hs, hpos, ?_, hconsole⟩
  rw [hprogram]
  show a.result.state = _
  rw [hres]

variable (m)

theorem rules_pass : m.pass.machine.program.rules = m.program.rules := by
  obtain ⟨-, -, -, -, hp⟩ | ⟨a, -, -, -, -, -, hp⟩ := m.pass_cases <;> rw [hp]
  rfl

end Machine

end SemiThue
