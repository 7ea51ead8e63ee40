import Mathlib
import SemiThue.Machine

/-!
# SemiThue.Proofs.Rewriting — the labelled rewriting relation

Rewriting as a relation, without tapes, orders and offsets into buffers.  A step takes any rule and
any way to write the state as `u ++ pattern ++ v`, and exchanges the pattern for what the kind of
the rule gives.

* `Effect` says what a kind of rule gives and what it does to the console (`effect_iff_perform`).
* `Step rules c x c'` is one step from `c` to `c'`, made at the redex `x`.
* `Derivation rules c ds c'` is a sequence of steps, with all redexes and configurations that it
  goes through.
-/

namespace SemiThue

/-- What a run shows at any time: the state, the lines still to be read and the output. -/
structure Configuration where
  state : Word
  console : Buffer

/-- The place of a rule in the program, and the offset of an occurrence of its pattern in
the state. -/
structure Redex where
  index : Nat
  position : Nat
  deriving DecidableEq

/-- `Effect k b o b'`: on the console `b` a rule of kind `k` gives the replacement `o`, and leaves
the console `b'`. -/
inductive Effect : Kind → Buffer → Word → Buffer → Prop
  | standard (text : Word) (b : Buffer) : Effect (.standard text) b text b
  | newline (input : List Word) (output : Word) :
      Effect (.print []) ⟨input, output⟩ [] ⟨input, output ++ ['\n']⟩
  | print {message : Word} (h : message ≠ []) (input : List Word) (output : Word) :
      Effect (.print message) ⟨input, output⟩ [] ⟨input, output ++ message⟩
  | read (line : Word) (input : List Word) (output : Word) :
      Effect .read ⟨line :: input, output⟩ line ⟨input, output⟩
  | readEnd (output : Word) : Effect .read ⟨[], output⟩ [] ⟨[], output⟩

/-- One step: the rule at place `i` is applied to the pattern between `u` and `v`. -/
inductive Step (rules : List Rule) : Configuration → Redex → Configuration → Prop
  | rewrite {i : Nat} {r : Rule} {u v o : Word} {b b' : Buffer} (hr : rules[i]? = some r)
      (he : Effect r.kind b o b') :
      Step rules ⟨u ++ r.pattern ++ v, b⟩ ⟨i, u.byteLength⟩ ⟨u ++ o ++ v, b'⟩

/-- Steps one after the other, each with its redex and the configuration that it leads to. -/
inductive Derivation (rules : List Rule) :
    Configuration → List (Redex × Configuration) → Configuration → Prop
  | refl (c : Configuration) : Derivation rules c [] c
  | step {c c' c'' : Configuration} {x : Redex} {ds : List (Redex × Configuration)}
      (h : Step rules c x c') (hds : Derivation rules c' ds c'') :
      Derivation rules c ((x, c') :: ds) c''

/-- Performing a rule on a console in memory has the effect of its kind, and no other. -/
theorem effect_iff_perform {k : Kind} {b b' : Buffer} {o : Word} :
    Effect k b o b' ↔ k.perform b = (o, b') := by
  constructor
  · rintro (_ | _ | ⟨h, input, output⟩ | _ | _)
    · rfl
    · rfl
    · simp [Kind.perform, Console.write, Buffer.write, h]
    · rfl
    · rfl
  · intro h
    obtain ⟨rfl, rfl⟩ := Prod.mk.inj h
    obtain ⟨input, output⟩ := b
    cases k with
    | standard text => exact .standard text _
    | print message =>
      by_cases hm : message = []
      · subst hm
        exact .newline input output
      · simpa [Kind.perform, Console.write, Buffer.write, hm] using Effect.print hm input output
    | read =>
      cases input with
      | nil => exact .readEnd output
      | cons line input => exact .read line input output

end SemiThue
