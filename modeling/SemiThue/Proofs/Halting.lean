import Mathlib
import SemiThue.Proofs.Runs

/-!
# SemiThue.Proofs.Halting — runs that end by themselves

A machine halts after `k` steps if `k` passes apply a rule and no pattern occurs after them.  Then
the bound of a run matters only as far as it is greater than `k` or not (`HaltsAfter.runs`).

A machine halts as soon as there is a bound on its steps at all (`exists_haltsAfter`), so a measure
that every step decreases is enough.  Steps of a console in memory are those of the rewriting
relation (`exists_derivation_of_productive`).

A program whose rules only replace leaves its console alone, so all that matters is the state.  If
every state that it comes to can be rewritten in one way only, tape and console have no influence at
all, and what the program does can be read off its rules.

* `Rewrites rules s s'`: one replacement makes `s'` of `s`.
* `Forced rules k s s'`: the only way from `s` has `k` steps and ends at `s'`.
* `Machine.haltsAfter_of_forced`: every machine goes this way.
-/

namespace SemiThue
namespace Machine

variable {C : Type} [Console C]

/-- The first `k` passes apply a rule, and no pattern occurs after them. -/
structure HaltsAfter (k : Nat) (m : Machine C) : Prop where
  productive : m.Productive k
  isNormal : (m.after k).program.IsNormal

variable {k : Nat} {m : Machine C}

theorem HaltsAfter.unchanged (h : m.HaltsAfter k) : (m.after k).pass.changed = false :=
  changed_eq_false_iff.mpr h.isNormal

/-- No machine can go on making steps if their number is bounded. -/
theorem exists_haltsAfter {bound : Nat} (h : ∀ k, m.Productive k → k ≤ bound) :
    ∃ k ≤ bound, m.HaltsAfter k := by
  rcases advance_cases (bound + 1) m with ⟨k, hk, hprod, hlast, -⟩ | ⟨hprod, -⟩
  · exact ⟨k, by omega, hprod, changed_eq_false_iff.mp hlast⟩
  · have := h _ hprod
    omega

namespace HaltsAfter

/-- No more than `k` passes apply a rule. -/
theorem le_of_productive (h : m.HaltsAfter k) {n : Nat} (hn : m.Productive n) : n ≤ k := by
  by_contra hlt
  have hk := hn k (Nat.lt_of_not_le hlt)
  rw [h.unchanged] at hk
  cases hk

/-- A bound that allows one pass more than there are steps is not reached. -/
theorem advance_of_lt (h : m.HaltsAfter k) {n : Nat} (hn : k < n) :
    m.advance n = (.fixpoint, m.after (k + 1)) := by
  rcases advance_cases n m with ⟨j, -, hprod, hlast, hadv, -⟩ | ⟨hprod, -⟩
  · rcases (h.le_of_productive hprod).lt_or_eq with hjk | rfl
    · rw [h.productive j hjk] at hlast
      cases hlast
    · exact hadv
  · have := h.le_of_productive hprod
    omega

/-- A bound that allows no more passes than there are steps is reached. -/
theorem advance_of_le (h : m.HaltsAfter k) {n : Nat} (hn : n ≤ k) :
    m.advance n = (.limit, m.after n) := by
  rcases advance_cases n m with ⟨j, hj, -, hlast, -⟩ | ⟨-, hadv, -⟩
  · rw [h.productive j (by omega)] at hlast
    cases hlast
  · exact hadv

/-- **How a machine runs that halts after `k` steps.**  All runs with a greater bound, and those
without a bound, end in the same way, with the program and the console as they are after `k`
passes.  All other runs reach their bound. -/
theorem runs (h : m.HaltsAfter k) :
    ∃ final : Machine C,
      (∀ n > k, m.runBounded n = (.fixpoint, final) ∧ m.run? n = some final) ∧
      (∀ n ≤ k, (m.runBounded n).1 = .limit ∧ m.run? n = none) ∧
      final.program = (m.after k).program ∧ final.console = (m.after k).console := by
  obtain ⟨hprogram, hconsole⟩ := unchanged_pass h.unchanged
  refine ⟨(m.runBounded (k + 1)).2, fun n hn => ?_, fun n hn => ?_, ?_, ?_⟩
  · have hfix : (m.runBounded (k + 1)).1 = .fixpoint := by
      rw [runBounded_eq, h.advance_of_lt (Nat.lt_succ_self k)]
    have hrun := runBounded_of_le hfix (Nat.succ_le_of_lt hn)
    rw [run?_eq_some_iff, hrun, ← hfix]
    exact ⟨rfl, rfl⟩
  · have hlimit : (m.runBounded n).1 = .limit := by rw [runBounded_eq, h.advance_of_le hn]
    exact ⟨hlimit, run?_eq_none_iff.mpr hlimit⟩
  · rw [runBounded_eq, program_noteHalt, h.advance_of_lt (Nat.lt_succ_self k), after_succ, hprogram]
  · rw [runBounded_eq, console_noteHalt, h.advance_of_lt (Nat.lt_succ_self k), after_succ, hconsole]

end HaltsAfter

/-- Passes that apply a rule are the steps of a derivation. -/
theorem exists_derivation_of_productive {m : Machine Buffer} (h : m.Productive k) :
    ∃ ds, ds.length = k ∧
      Derivation m.program.rules m.configuration ds (m.after k).configuration := by
  refine ⟨_, ?_, m.derivation_passes k⟩
  have hsteps : ∀ p ∈ m.passes k, p.step?.isSome = true := by
    intro p hp
    obtain ⟨j, hj, rfl⟩ := List.mem_map.mp hp
    rw [Pass.step?, Option.isSome_map]
    exact h j (List.mem_range.mp hj)
  rw [List.filterMap_length_eq_length.mpr hsteps, passes, List.length_map, List.length_range]

end Machine

/-! ### Runs that have no choice -/

/-- No rule prints or reads. -/
def OnlyReplace (rules : List Rule) : Prop := ∀ r ∈ rules, ∃ text, r.kind = .standard text

/-- One of the rules replaces one occurrence of its pattern. -/
def Rewrites (rules : List Rule) (s s' : Word) : Prop :=
  ∃ r ∈ rules, ∃ text u v, r.kind = .standard text ∧ s = u ++ r.pattern ++ v ∧ s' = u ++ text ++ v

/-- There is only one way to go on from `s` until nothing can be replaced any more.  It has `k`
steps and ends at `s'`. -/
inductive Forced (rules : List Rule) : Nat → Word → Word → Prop
  | done {s : Word} (h : ∀ s', ¬ Rewrites rules s s') : Forced rules 0 s s
  | step {k : Nat} {s s₁ s₂ : Word} (h : ∀ s', Rewrites rules s s' ↔ s' = s₁)
      (hrest : Forced rules k s₁ s₂) : Forced rules (k + 1) s s₂

/-- Where the rules only replace, a state is final if it cannot be rewritten. -/
theorem Program.isNormal_iff_not_rewrites {p : Program} (h : OnlyReplace p.rules) :
    p.IsNormal ↔ ∀ s', ¬ Rewrites p.rules p.state s' := by
  constructor
  · rintro hnormal s' ⟨r, hr, text, u, v, -, hs, -⟩
    exact hnormal r hr ⟨u, v, hs.symm⟩
  · rintro hnone r hr ⟨u, v, hs⟩
    obtain ⟨text, htext⟩ := h r hr
    exact hnone _ ⟨r, hr, text, u, v, htext, hs.symm, rfl⟩

namespace Machine

variable {C : Type} [Console C] {m : Machine C}

theorem rewrites_pass (h : OnlyReplace m.program.rules) (hc : m.pass.changed = true) :
    Rewrites m.program.rules m.program.state m.pass.machine.program.state ∧
      m.pass.machine.console = m.console := by
  obtain ⟨a, ha⟩ := Option.isSome_iff_exists.mp hc
  obtain ⟨hr, -, -, -, u, v, hs, -, hs', hconsole⟩ := split_of_applied ha
  have hr := List.mem_of_getElem? hr
  obtain ⟨text, htext⟩ := h a.rule hr
  rw [htext] at hs' hconsole
  exact ⟨⟨a.rule, hr, text, u, v, htext, hs, hs'⟩, hconsole⟩

/-- **A machine goes the only way there is**, whatever its tape, and does not use its console. -/
theorem haltsAfter_of_forced {rules : List Rule} (hrules : OnlyReplace rules) {k : Nat}
    {s s' : Word} (h : Forced rules k s s') : ∀ {m : Machine C}, m.program.rules = rules →
    m.program.state = s → m.HaltsAfter k ∧ (m.after k).program.state = s' ∧
      (m.after k).console = m.console := by
  induction h with
  | @done s hnone =>
    rintro m rfl rfl
    have hnormal := (Program.isNormal_iff_not_rewrites hrules).mpr hnone
    exact ⟨⟨fun j hj => absurd hj (Nat.not_lt_zero j), hnormal⟩, rfl, rfl⟩
  | @step k s s₁ s₂ honly _ ih =>
    rintro m rfl rfl
    cases hc : m.pass.changed with
    | false =>
      have hnone := (Program.isNormal_iff_not_rewrites hrules).mp (changed_eq_false_iff.mp hc)
      exact absurd ((honly s₁).mpr rfl) (hnone s₁)
    | true =>
      obtain ⟨hs, hconsole⟩ := rewrites_pass hrules hc
      obtain ⟨hhalts, hstate, hconsole'⟩ := ih m.rules_pass ((honly _).mp hs)
      exact ⟨⟨productive_succ_iff.mpr ⟨hc, hhalts.productive⟩, hhalts.isNormal⟩, hstate,
        hconsole'.trans hconsole⟩

end Machine
end SemiThue
