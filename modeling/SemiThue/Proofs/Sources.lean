import Mathlib
import SemiThue.Proofs.Runs

/-!
# SemiThue.Proofs.Sources — the words that a run draws

A run looks at no other words than those that it draws.  So tapes that serve the same words up to
the place where a run ends bring it to the same end, whatever they hold after that
(`Machine.runBounded_of_words`).

A source of words that never ends is no tape, but each of its cuts is one (`Tape.cut`).  All cuts
that hold the words that a run draws give the same run (`Machine.runBounded_cut`,
`Machine.run?_cut`).  In this way, what is shown about runs on tapes holds for
every run on a source that comes to an end.
-/

namespace SemiThue

variable {α β C : Type}

namespace Tape

/-! ### Tapes with the same words -/

/-- The word in a cell, which is zero in a blank one. -/
def word (t : Tape) (i : Nat) : UInt32 := if i < t.size then t.cell i else 0

/-- The heads are at the same cell, and the words between it and cell `k` are the same. -/
structure AgreesTo (k : Nat) (t t' : Tape) : Prop where
  head : t.head = t'.head
  word : ∀ i, t.head ≤ i → i < k → t.word i = t'.word i

/-- What `f` answers depends on the words that it draws, and on no others. -/
structure DrawsOnly (f : Tape → α × Tape) : Prop where
  head_le (t : Tape) : t.head ≤ (f t).2.head
  agrees {k : Nat} {t t' : Tape} (h : t.AgreesTo k t') (hk : (f t).2.head ≤ k) :
    (f t).1 = (f t').1 ∧ (f t).2.AgreesTo k (f t').2

namespace DrawsOnly

theorem pure (a : α) : DrawsOnly fun t => (a, t) := ⟨fun _ => le_rfl, fun h _ => ⟨rfl, h⟩⟩

/-- Draws after draws. -/
theorem bind {f : Tape → α × Tape} {g : α → Tape → β × Tape} (hf : DrawsOnly f)
    (hg : ∀ a, DrawsOnly (g a)) : DrawsOnly fun t => g (f t).1 (f t).2 := by
  refine ⟨fun t => (hf.head_le t).trans ((hg _).head_le _), fun {k t t'} h hk => ?_⟩
  obtain ⟨hanswer, hrest⟩ := hf.agrees h (((hg _).head_le _).trans hk)
  rw [← hanswer]
  exact (hg _).agrees hrest hk

end DrawsOnly

/-! ### Draws -/

theorem drawsOnly_read : DrawsOnly fun t => (t.read, t.moved) := by
  refine ⟨fun t => Nat.le_succ t.head, fun {k t t'} h hk => ⟨?_, ?_⟩⟩
  · show t.word t.head = t'.word t'.head
    rw [← h.head]
    exact h.word t.head le_rfl hk
  · exact ⟨congrArg Nat.succ h.head, fun i hi hik => h.word i (Nat.le_of_succ_le hi) hik⟩

theorem drawsOnly_draw (w : Width) : DrawsOnly (·.draw w) := by
  cases w with
  | single => exact drawsOnly_read.bind fun word => .pure word.toNat
  | double =>
    exact drawsOnly_read.bind fun low => drawsOnly_read.bind fun high =>
      .pure (low.toNat + UInt32.size * high.toNat)

/-- The number of draws depends on the words, but only on those that are drawn. -/
theorem drawsOnly_below (w : Width) (r : Nat) : DrawsOnly (·.below w r) := by
  have hdraw := drawsOnly_draw w
  have hhead (t : Tape) : t.head ≤ (t.below w r).2.head := by
    fun_induction below w r t with
    | case1 t k h => exact hdraw.head_le t
    | case2 t h ih => exact (hdraw.head_le t).trans ih
  refine ⟨hhead, fun {k t t'} h hk => ?_⟩
  fun_induction below w r t generalizing t' with
  | case1 t a hacc =>
    obtain ⟨hanswer, hrest⟩ : (t.draw w).1 = (t'.draw w).1 ∧ _ := hdraw.agrees h hk
    rw [hanswer] at hacc
    rw [below_of_accept? hacc]
    exact ⟨rfl, hrest⟩
  | case2 t href ih =>
    obtain ⟨hanswer, hrest⟩ : (t.draw w).1 = (t'.draw w).1 ∧ _ :=
      hdraw.agrees h ((hhead _).trans hk)
    rw [hanswer] at href
    rw [below_of_refuse href]
    exact ih hrest hk

theorem drawsOnly_shuffleDraws : ∀ n : Nat, DrawsOnly (shuffleDraws n)
  | 0 => .pure []
  | 1 => .pure []
  | n + 2 => (drawsOnly_below .double (n + 2)).bind fun j =>
      (drawsOnly_shuffleDraws (n + 1)).bind fun draws => .pure (j :: draws)

theorem drawsOnly_choose : ∀ xs : List α, DrawsOnly (·.choose xs)
  | [] => .pure none
  | x :: xs => (drawsOnly_below (.forPlace (xs.length + 1)) (xs.length + 1)).bind fun i =>
      .pure ((x :: xs)[i]?)

end Tape

variable [Console C]

/-! ### Substitutions -/

namespace Rule

/-- A substitution uses the tape for the choice of an occurrence, and for nothing else. -/
theorem tape_substitute (r : Rule) (state : Word) (t : Tape) (console : C) :
    (r.substitute state t console).2.1 = (t.choose (state.occurrences r.pattern)).2 := by
  unfold substitute
  rcases t.choose (state.occurrences r.pattern) with ⟨_ | position, t'⟩
  · rfl
  · dsimp only
    split <;> rfl

theorem substitute_of_choice (r : Rule) {state : Word} {t t' : Tape} (console : C)
    (h : (t.choose (state.occurrences r.pattern)).1 = (t'.choose (state.occurrences r.pattern)).1) :
    (r.substitute state t console).1 = (r.substitute state t' console).1 ∧
      (r.substitute state t console).2.2 = (r.substitute state t' console).2.2 := by
  unfold substitute
  revert h
  rcases t.choose (state.occurrences r.pattern) with ⟨choice, t₁⟩
  rcases t'.choose (state.occurrences r.pattern) with ⟨choice', t₁'⟩
  rintro (rfl : choice = choice')
  cases choice with
  | none => exact ⟨rfl, rfl⟩
  | some position =>
    dsimp only
    split <;> exact ⟨rfl, rfl⟩

theorem head_le_substitute (r : Rule) (state : Word) (t : Tape) (console : C) :
    t.head ≤ (r.substitute state t console).2.1.head := by
  rw [tape_substitute]
  exact (Tape.drawsOnly_choose _).head_le t

end Rule

theorem Tape.AgreesTo.substitute {k : Nat} {t t' : Tape} (h : t.AgreesTo k t') (r : Rule)
    (state : Word) (console : C) (hk : (r.substitute state t console).2.1.head ≤ k) :
    (r.substitute state t console).1 = (r.substitute state t' console).1 ∧
      (r.substitute state t console).2.2 = (r.substitute state t' console).2.2 ∧
      (r.substitute state t console).2.1.AgreesTo k (r.substitute state t' console).2.1 := by
  rw [r.tape_substitute] at hk
  obtain ⟨hchoice, hrest⟩ := (Tape.drawsOnly_choose _).agrees h hk
  obtain ⟨houtcome, hconsole⟩ := r.substitute_of_choice console hchoice
  rw [r.tape_substitute, r.tape_substitute]
  exact ⟨houtcome, hconsole, hrest⟩

/-! ### Machines on tapes with the same words -/

namespace Machine

/-- The same program and the same console, and tapes with the same words up to cell `k`. -/
structure AgreesTo (k : Nat) (m m' : Machine C) : Prop where
  program : m.program = m'.program
  console : m.console = m'.console
  tape : m.tape.AgreesTo k m'.tape

theorem head_shuffledTape_le (m : Machine C) :
    m.shuffledTape.head ≤ m.pass.machine.tape.head := by
  obtain ⟨-, -, ht, -⟩ | ⟨a, -, -, -, -, hsub, -⟩ := m.pass_cases
  · rw [ht]
  · have hhead := a.rule.head_le_substitute m.program.state m.shuffledTape m.console
    rwa [hsub] at hhead

theorem head_le_pass (m : Machine C) : m.tape.head ≤ m.pass.machine.tape.head :=
  ((Tape.drawsOnly_shuffleDraws _).head_le m.tape).trans m.head_shuffledTape_le

theorem head_le_advance (n : Nat) (m : Machine C) : m.tape.head ≤ (m.advance n).2.tape.head := by
  induction n generalizing m with
  | zero => exact le_rfl
  | succ n ih =>
    by_cases hc : m.pass.changed = true
    · rw [advance_of_changed n hc]
      exact m.head_le_pass.trans (ih _)
    · rw [advance_of_unchanged n (Bool.not_eq_true _ ▸ hc)]
      exact m.head_le_pass

namespace AgreesTo

variable {k : Nat} {m m' : Machine C}

/-- A pass that ends before cell `k` does not notice a difference. -/
theorem pass (h : m.AgreesTo k m') (hk : m.pass.machine.tape.head ≤ k) :
    m.pass.changed = m'.pass.changed ∧ m.pass.machine.AgreesTo k m'.pass.machine := by
  obtain ⟨hdraws, hrest⟩ :=
    (Tape.drawsOnly_shuffleDraws _).agrees h.tape (m.head_shuffledTape_le.trans hk)
  have hshuffled : m.shuffledTape.AgreesTo k m'.shuffledTape := by
    rw [shuffledTape, shuffledTape, ← h.program]
    exact hrest
  have horder : m.pass.order = m'.pass.order := by
    rw [pass_order, pass_order, orderDraws, orderDraws, ← h.program, hdraws]
  unfold Pass.changed Pass.applied
  obtain ⟨hf, ho, ht, hc, hp⟩ | ⟨a, hf, ho, hr, -, hsub, hp⟩ := m.pass_cases
  · obtain ⟨-, ho', ht', hc', hp'⟩ | ⟨a', hf', -⟩ := m'.pass_cases
    · rw [ho, ho']
      refine ⟨rfl, by rw [hp, hp', h.program], by rw [hc, hc', h.console], ?_⟩
      rw [ht, ht']
      exact hshuffled
    · rw [horder, h.program, hf'] at hf
      cases hf
  · obtain ⟨hf', -⟩ | ⟨a', hf', ho', hr', -, hsub', hp'⟩ := m'.pass_cases
    · rw [horder, h.program, hf'] at hf
      cases hf
    · -- the same rule, and the same choice among its occurrences
      rw [horder, h.program, hf'] at hf
      rw [h.program, ← Option.some.inj hf, hr'] at hr
      have hagrees := hshuffled.substitute a.rule m.program.state m.console (by rwa [hsub])
      rw [hsub, h.program, h.console, ← Option.some.inj hr, hsub'] at hagrees
      obtain ⟨hresult, hconsole, htape⟩ := hagrees
      rw [ho, ho']
      refine ⟨rfl, ?_, hconsole, htape⟩
      rw [hp, hp', h.program, Program.apply, Program.apply, Attempt.applied.inj hresult]

theorem advance (h : m.AgreesTo k m') {n : Nat} (hk : (m.advance n).2.tape.head ≤ k) :
    (m.advance n).1 = (m'.advance n).1 ∧ (m.advance n).2.AgreesTo k (m'.advance n).2 := by
  induction n generalizing m m' with
  | zero => exact ⟨rfl, h⟩
  | succ n ih =>
    by_cases hc : m.pass.changed = true
    · rw [advance_of_changed n hc] at hk ⊢
      obtain ⟨hchanged, hpass⟩ := h.pass ((head_le_advance n _).trans hk)
      rw [advance_of_changed n (hchanged ▸ hc)]
      exact ih hpass hk
    · rw [Bool.not_eq_true] at hc
      rw [advance_of_unchanged n hc] at hk ⊢
      obtain ⟨hchanged, hpass⟩ := h.pass hk
      rw [advance_of_unchanged n (hchanged ▸ hc)]
      exact ⟨rfl, hpass⟩

end AgreesTo

/-- **A run depends on the words that it draws**, and on no others. -/
theorem runBounded_of_words {n : Nat} {m m' : Machine C} (hprogram : m.program = m'.program)
    (hconsole : m.console = m'.console) (hhead : m.tape.head = m'.tape.head)
    (hwords : ∀ i, m.tape.head ≤ i → i < (m.runBounded n).2.tape.head →
      m.tape.word i = m'.tape.word i) :
    let final := m.runBounded n
    let final' := m'.runBounded n
    final.1 = final'.1 ∧ final.2.program = final'.2.program ∧
      final.2.console = final'.2.console ∧ final.2.tape.head = final'.2.tape.head := by
  intro final final'
  have hstart : m.AgreesTo final.2.tape.head m' := ⟨hprogram, hconsole, hhead, hwords⟩
  have hend : (m.advance n).2.tape.head ≤ final.2.tape.head := by
    rw [show final = _ from runBounded_eq n m, tape_noteHalt]
  obtain ⟨hhalt, hfinal⟩ := hstart.advance hend
  rw [show final = _ from runBounded_eq n m, show final' = _ from runBounded_eq n m']
  simp only [program_noteHalt, console_noteHalt, tape_noteHalt]
  exact ⟨hhalt, hfinal.program, hfinal.console, hfinal.tape.head⟩

end Machine

/-! ### Sources that never end -/

/-- The first `n` words of a source, and zeros after them. -/
def Tape.cut (source : Nat → UInt32) (n : Nat) : Tape := { size := n, cell := source }

theorem Tape.word_cut {source : Nat → UInt32} {n i : Nat} (h : i < n) :
    (cut source n).word i = source i := if_pos h

namespace Machine

/-- **Where a source is cut does not matter**, as long as all words are kept that the run draws. -/
theorem runBounded_cut (source : Nat → UInt32) (m : Machine C) {n k l : Nat} :
    let final := runBounded n { m with tape := .cut source k }
    let final' := runBounded n { m with tape := .cut source l }
    final.2.tape.head ≤ k → final.2.tape.head ≤ l →
      final.1 = final'.1 ∧ final.2.program = final'.2.program ∧
        final.2.console = final'.2.console ∧ final.2.tape.head = final'.2.tape.head := by
  intro final final' hk hl
  refine runBounded_of_words rfl rfl rfl fun i _ hi => ?_
  have hi : i < final.2.tape.head := hi
  rw [Tape.word_cut (hi.trans_le hk), Tape.word_cut (hi.trans_le hl)]

/-- A run without a bound that ends on a cut of a source ends alike on every other cut. -/
theorem run?_cut (source : Nat → UInt32) (m final : Machine C) {fuel k l : Nat}
    (h : run? fuel { m with tape := .cut source k } = some final) (hk : final.tape.head ≤ k)
    (hl : final.tape.head ≤ l) :
    ∃ final', run? fuel { m with tape := .cut source l } = some final' ∧
      final'.program = final.program ∧ final'.console = final.console ∧
      final'.tape.head = final.tape.head := by
  have hrun := run?_eq_some_iff.mp h
  have hcut := runBounded_cut source m (n := fuel) (k := k) (l := l)
  rw [hrun] at hcut
  obtain ⟨hhalt, hprogram, hconsole, hhead⟩ := hcut hk hl
  have hfix : (runBounded fuel { m with tape := .cut source l }).1 = .fixpoint := hhalt.symm
  have hrun' : run? fuel { m with tape := .cut source l } = some _ :=
    run?_eq_some_iff.mpr (Prod.ext hfix rfl)
  exact ⟨_, hrun', hprogram.symm, hconsole.symm, hhead.symm⟩

end Machine

end SemiThue
