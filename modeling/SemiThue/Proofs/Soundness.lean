import Mathlib
import SemiThue.Proofs.Pass

/-!
# SemiThue.Proofs.Soundness — runs are derivations

Passes on a console in memory follow the labelled rewriting relation: each pass that applies a rule
is one step, at the redex that it names, and all other passes change nothing that can be seen.
-/

namespace SemiThue

variable {C : Type}

/-- The redex at which a rule was applied. -/
def Application.redex (a : Application) : Redex :=
  { index := a.index, position := a.result.position }

namespace Machine

variable [Console C]

/-- The machine after `n` passes. -/
def after (n : Nat) (m : Machine C) : Machine C := (fun m : Machine C => m.pass.machine)^[n] m

/-- The first `n` passes. -/
def passes (n : Nat) (m : Machine C) : List (Pass C) := (List.range n).map fun k => (m.after k).pass

theorem after_succ (n : Nat) (m : Machine C) : m.after (n + 1) = (m.after n).pass.machine :=
  Function.iterate_succ_apply' _ n m

theorem passes_succ (n : Nat) (m : Machine C) :
    m.passes (n + 1) = m.passes n ++ [(m.after n).pass] := by
  simp [passes, List.range_succ]

theorem passes_succ_cons (n : Nat) (m : Machine C) :
    m.passes (n + 1) = m.pass :: m.pass.machine.passes n := by
  unfold passes
  rw [List.range_succ_eq_map, List.map_cons, List.map_map]
  rfl

@[simp] theorem rules_after (n : Nat) (m : Machine C) :
    (m.after n).program.rules = m.program.rules := by
  induction n with
  | zero => rfl
  | succ n ih => rw [after_succ, rules_pass, ih]

/-- What the machine shows: its state and its console. -/
def configuration (m : Machine Buffer) : Configuration :=
  { state := m.program.state, console := m.console }

end Machine

/-- The step that a pass made, with the configuration after it. -/
def Pass.step? (p : Pass Buffer) : Option (Redex × Configuration) :=
  p.applied.map fun a => (a.redex, p.machine.configuration)

theorem Pass.changed_eq_false_iff {p : Pass C} : p.changed = false ↔ p.applied = none := by
  rw [Pass.changed, Option.isSome_eq_false_iff, Option.isNone_iff_eq_none]

theorem Derivation.snoc {rules : List Rule} {c c' c'' : Configuration}
    {ds : List (Redex × Configuration)} {x : Redex} (h : Derivation rules c ds c')
    (hx : Step rules c' x c'') :
    Derivation rules c (ds ++ [(x, c'')]) c'' := by
  induction h with
  | refl => exact .step hx (.refl _)
  | step h' _ ih => exact .step h' (ih hx)

/-- Cutting the state where a rule was found never fails. -/
theorem Rule.exists_splice?_eq (r : Rule) {state : Word} {i : Nat}
    (h : i ∈ state.occurrences r.pattern) (output : Word) :
    ∃ new, state.splice? i (i + r.pattern.byteLength) output = some new := by
  obtain ⟨u, v, rfl, rfl⟩ := (Word.mem_occurrences_iff r.pattern_ne_nil).mp h
  exact ⟨_, Word.splice?_infix u r.pattern v output⟩

namespace Machine

variable {m : Machine Buffer}

theorem step_of_applied {a : Application} (h : m.pass.applied = some a) :
    Step m.program.rules m.configuration a.redex m.pass.machine.configuration := by
  obtain ⟨hr, -, -, -, u, v, hs, hpos, hs', hc⟩ := split_of_applied h
  have heffect := effect_iff_perform.mpr (rfl : a.rule.kind.perform m.console = _)
  have hstep := Step.rewrite (u := u) (v := v) hr heffect
  unfold configuration Application.redex
  rw [hs, hpos, hs', hc]
  exact hstep

theorem steps_of_applied {a : Application} (h : m.pass.applied = some a) :
    m.pass.machine.program.steps = m.program.steps + 1 := by
  rw [(substitute_of_applied h).2.2.2]
  rfl

theorem unchanged_of_applied_eq_none (h : m.pass.applied = none) :
    m.pass.machine.configuration = m.configuration ∧
      m.pass.machine.program.steps = m.program.steps := by
  obtain ⟨hc, hp, -⟩ := m.pass_machine_of_none h
  unfold configuration
  rw [hc, hp]
  exact ⟨rfl, rfl⟩

/-- The passes that apply a rule make up a derivation, which ends where the passes end. -/
theorem derivation_passes (m : Machine Buffer) (n : Nat) :
    Derivation m.program.rules m.configuration ((m.passes n).filterMap Pass.step?)
      (m.after n).configuration := by
  induction n with
  | zero => exact .refl _
  | succ n ih =>
    rw [passes_succ, List.filterMap_append, after_succ]
    cases h : (m.after n).pass.applied with
    | none =>
      have hnone : (m.after n).pass.step? = none := by rw [Pass.step?, h]; rfl
      rw [(unchanged_of_applied_eq_none h).1]
      simpa [hnone] using ih
    | some a =>
      have hsome : (m.after n).pass.step? =
          some (a.redex, (m.after n).pass.machine.configuration) := by
        rw [Pass.step?, h]; rfl
      have hstep := step_of_applied h
      rw [rules_after] at hstep
      simpa [hsome] using ih.snoc hstep

/-- **Runs are derivations**, on every engine, whatever order an earlier program has left on it.
The first `n` passes follow the rewriting relation, and for each pass of the run: a pass that
changes the program is one step at the redex that it names, and counts as one; it changes nothing
exactly if no pattern occurs in the state, and then the console stays as it is, although every rule
was tried; the rules stay the same; and the places that it exchanges, looks up and cuts at all
exist. -/
theorem passes_sound (m : Machine Buffer) (n : Nat) :
    Derivation m.program.rules m.configuration ((m.passes n).filterMap Pass.step?)
      (m.after n).configuration ∧
    ∀ k, let before := m.after k
      let p := before.pass
      (p.changed = true → ∃ x, p.step? = some (x, p.machine.configuration) ∧
        Step m.program.rules before.configuration x p.machine.configuration ∧
        p.machine.program.steps = before.program.steps + 1) ∧
      (p.changed = false ↔ ∀ r ∈ m.program.rules, ¬ r.pattern <:+: before.program.state) ∧
      (p.changed = false → p.machine.configuration = before.configuration ∧
        p.machine.program.steps = before.program.steps) ∧
      p.machine.program.rules = m.program.rules ∧
      p.outcome ≠ .fault ∧
      before.orderDraws ∈ drawVectors m.program.rules.length ∧
      rearrange? before.orderDraws (Array.range m.program.rules.length) = some p.order.toArray ∧
      p.order.Perm (List.range m.program.rules.length) ∧
      ∀ r ∈ m.program.rules, ∀ i ∈ before.program.state.occurrences r.pattern, ∀ output,
        ∃ new, before.program.state.splice? i (i + r.pattern.byteLength) output = some new := by
  refine ⟨m.derivation_passes n, fun k => ?_⟩
  have hrules := m.rules_after k
  refine ⟨?_, ?_, ?_, ?_, (m.after k).pass_outcome_ne_fault, ?_, ?_, ?_, ?_⟩
  · intro h
    obtain ⟨a, ha⟩ := Option.isSome_iff_exists.mp h
    refine ⟨a.redex, by rw [Pass.step?, ha]; rfl, ?_, steps_of_applied ha⟩
    rw [← hrules]
    exact step_of_applied ha
  · rw [Pass.changed_eq_false_iff, applied_eq_none_iff, hrules]
  · intro h
    exact unchanged_of_applied_eq_none (Pass.changed_eq_false_iff.mp h)
  · rw [rules_pass, hrules]
  · rw [← hrules]
    exact (m.after k).orderDraws_mem
  · rw [← hrules]
    exact (m.after k).rearrange?_orderDraws
  · rw [← hrules]
    exact (m.after k).pass_order_perm
  · intro r _ i hi output
    exact r.exists_splice?_eq hi output

end Machine

end SemiThue
