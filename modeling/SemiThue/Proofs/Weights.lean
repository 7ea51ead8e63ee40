import Mathlib
import SemiThue.Proofs.Halting

/-!
# SemiThue.Proofs.Weights — programs that make their state lighter

Characters have weights, and a word weighs as much as its characters together.  If every rule puts
something lighter in the place of its pattern, a step takes at least one from the weight of the
state, wherever it is made.  So there are no more steps than the state weighs.

The condition is on the rules alone.  What is read from a console may weigh anything, so there is no
such condition for rules that read.
-/

namespace SemiThue

/-- What the characters of a word weigh together. -/
def Word.weigh (weight : Char → Nat) (w : Word) : Nat := (w.map weight).sum

@[simp]
theorem Word.weigh_append (weight : Char → Nat) (u v : Word) :
    weigh weight (u ++ v) = weigh weight u + weigh weight v := by
  simp [weigh]

/-- No rule reads, and each of them puts something lighter in the place of its pattern: a lighter
text, or nothing in the place of something that weighs at least one. -/
structure Lightens (weight : Char → Nat) (rules : List Rule) : Prop where
  no_read : ∀ r ∈ rules, r.kind ≠ .read
  standard : ∀ r ∈ rules, ∀ text, r.kind = .standard text →
    text.weigh weight < r.pattern.weigh weight
  print : ∀ r ∈ rules, ∀ message, r.kind = .print message → 1 ≤ r.pattern.weigh weight

variable {C : Type} [Console C] {weight : Char → Nat}

/-- On every console, what a rule gives is lighter than its pattern. -/
theorem Lightens.perform {rules : List Rule} (h : Lightens weight rules) {r : Rule} (hr : r ∈ rules)
    (console : C) : (r.kind.perform console).1.weigh weight < r.pattern.weigh weight := by
  cases hkind : r.kind with
  | standard text => exact h.standard r hr text hkind
  | print message => exact h.print r hr message hkind
  | read => exact absurd hkind (h.no_read r hr)

namespace Machine

variable {m : Machine C}

/-- A pass that applies a rule makes the state lighter. -/
theorem weigh_pass_lt (h : Lightens weight m.program.rules) (hc : m.pass.changed = true) :
    m.pass.machine.program.state.weigh weight < m.program.state.weigh weight := by
  obtain ⟨a, ha⟩ := Option.isSome_iff_exists.mp hc
  obtain ⟨hr, -, -, -, u, v, hs, -, hs', -⟩ := split_of_applied ha
  have hlighter := h.perform (List.mem_of_getElem? hr) m.console
  rw [hs, hs']
  simp only [Word.weigh_append]
  omega

/-- Steps and weight together never grow. -/
theorem add_weigh_after_le (h : Lightens weight m.program.rules) {k : Nat} (hk : m.Productive k) :
    k + (m.after k).program.state.weigh weight ≤ m.program.state.weigh weight := by
  induction k with
  | zero => exact (Nat.zero_add _).le
  | succ k ih =>
    have hbefore := ih fun j hj => hk j (Nat.lt_succ_of_lt hj)
    have hrules : Lightens weight (m.after k).program.rules := by rwa [rules_after]
    have hstep := weigh_pass_lt hrules (hk k (Nat.lt_succ_self k))
    rw [after_succ]
    omega

theorem exists_haltsAfter_le_weigh (h : Lightens weight m.program.rules) :
    ∃ k ≤ m.program.state.weigh weight, m.HaltsAfter k := by
  refine exists_haltsAfter fun k hk => ?_
  have := add_weigh_after_le h hk
  omega

/-- **Programs that make their state lighter halt.**  A bound that is greater than the weight of the
state is not reached, whatever the tape and the console, and a run without a bound ends as well.
All runs, those that reach their bound included, make no more steps than the state has lost in
weight. -/
theorem runBounded_of_lightens (weight : Char → Nat) (m : Machine C)
    (h : Lightens weight m.program.rules) (n : Nat) :
    let final := (m.runBounded n).2
    (m.program.state.weigh weight < n →
      m.runBounded n = (.fixpoint, final) ∧ m.run? n = some final) ∧
    ∃ k, final.program.steps = m.program.steps + k ∧
      k + final.program.state.weigh weight ≤ m.program.state.weigh weight := by
  intro final
  constructor
  · intro hn
    obtain ⟨k, hk, hhalts⟩ := exists_haltsAfter_le_weigh h
    obtain ⟨final', hgreater, -⟩ := hhalts.runs
    obtain ⟨hbounded, hrun⟩ := hgreater n (by omega)
    have hfinal : final = final' := congrArg Prod.snd hbounded
    rw [hfinal]
    exact ⟨hbounded, hrun⟩
  · obtain ⟨k, -, hprod, hprogram⟩ := exists_productive_runBounded n m
    refine ⟨k, ?_, ?_⟩
    · rw [hprogram, steps_after hprod]
    · rw [hprogram]
      exact add_weigh_after_le h hprod

/-- The state has three characters and grows before it shrinks.  It weighs eleven, so twelve passes
are enough. -/
theorem runBounded_of_lightens_growing :
    let weight : Char → Nat := fun c => if c = 'a' then 5 else if c = 'b' then 2 else 1
    let rules : List Rule := [⟨['a'], .standard ['b', 'b'], by decide⟩,
      ⟨['b', 'b'], .standard ['c'], by decide⟩, ⟨['c'], .print ['m'], by decide⟩]
    let m : Machine Buffer :=
      { console := {}, tape := .ofWords [7], program := { rules, state := ['a', '€', 'a'] } }
    Lightens weight rules ∧ m.program.state.weigh weight = 11 ∧
      ∃ final, m.runBounded 12 = (.fixpoint, final) ∧ m.run? 12 = some final ∧
        ∃ k, final.program.steps = k ∧ k + final.program.state.weigh weight ≤ 11 := by
  intro weight rules m
  have hrules : Lightens weight rules := by
    refine ⟨by decide, ?_, ?_⟩
    · simp [rules, weight, Word.weigh]
    · simp [rules, weight, Word.weigh]
  have hweight : m.program.state.weigh weight = 11 := by decide
  obtain ⟨hhalts, k, hsteps, hle⟩ := runBounded_of_lightens weight m hrules 12
  obtain ⟨hbounded, hrun⟩ := hhalts (by rw [hweight]; decide)
  exact ⟨hrules, hweight, _, hbounded, hrun, k, by rw [hsteps]; exact Nat.zero_add k, hweight ▸ hle⟩

end Machine

end SemiThue
