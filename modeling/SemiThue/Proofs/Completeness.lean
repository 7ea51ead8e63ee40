import Mathlib
import SemiThue.Proofs.Occurrences
import SemiThue.Proofs.Soundness

/-!
# SemiThue.Proofs.Completeness — every derivation is a run

Each step of the rewriting relation is made by a pass on a suitable tape: the draws of the shuffle
bring the wanted rule to the front of the order, and the draw after them takes the wanted
occurrence.  The words that force these draws can stand anywhere on the tape, so the words of all
steps, one after the other, force the whole derivation.
-/

namespace SemiThue

/-- The redex determines what a step leads to. -/
theorem Step.det {rules : List Rule} {c c₁ c₂ : Configuration} {x : Redex} (h₁ : Step rules c x c₁)
    (h₂ : Step rules c x c₂) : c₁ = c₂ := by
  generalize hc : c = d at h₂
  generalize hx : x = y at h₂
  obtain @⟨i, r, u, v, o, b, b', hr, he⟩ := h₁
  obtain @⟨i', r', u', v', o', b₂, b₂', hr', he'⟩ := h₂
  obtain ⟨hs, rfl⟩ := Configuration.mk.inj hc
  obtain ⟨rfl, hl⟩ := Redex.mk.inj hx
  -- the same rule, and as many bytes before the pattern
  obtain rfl := Option.some.inj (hr.symm.trans hr')
  rw [List.append_assoc, List.append_assoc] at hs
  obtain ⟨rfl, hv⟩ := Word.append_inj_of_byteLength hs hl
  obtain rfl := List.append_cancel_left hv
  rw [effect_iff_perform] at he he'
  obtain ⟨rfl, rfl⟩ := Prod.mk.inj (he.symm.trans he')
  rfl

/-- Draws that bring a given item to the front. -/
theorem exists_arrangement_head {n i : Nat} (hi : i < n) :
    ∃ draws ∈ drawVectors n, ∃ others, arrangement (List.range n) draws = i :: others := by
  have hperm : (i :: (List.range n).erase i).Perm (List.range n) :=
    (List.perm_cons_erase (List.mem_range.mpr hi)).symm
  obtain ⟨draws, hdraws, harr⟩ := exists_arrangement_eq List.nodup_range hperm
  rw [List.length_range] at hdraws
  exact ⟨draws, hdraws, _, harr⟩

namespace Machine

/-- **Each step can be forced.**  Some words make a pass take this step, on every tape that serves
them next. -/
theorem exists_forces_step {rules : List Rule} {c c' : Configuration} {x : Redex}
    (h : Step rules c x c') (hrules : rules.length < 2 ^ 32)
    (hlen : c.state.byteLength < 2 ^ 32) :
    ∃ ws, ∀ (m : Machine Buffer) (rest : List UInt32),
      m.program.rules = rules → m.configuration = c → m.tape.Serves (ws ++ rest) →
      m.pass.step? = some (x, c') ∧ m.pass.machine.tape.Serves rest := by
  have hstep := h
  obtain @⟨i, r, u, v, o, b, b', hr, he⟩ := h
  set state := u ++ r.pattern ++ v with hstate
  -- the words for the shuffle
  have hi : i < rules.length := (List.getElem?_eq_some_iff.mp hr).1
  obtain ⟨draws, hdraws, others, harr⟩ := exists_arrangement_head hi
  obtain ⟨ws₁, hws₁⟩ := exists_forces_shuffleDraws (by omega) hdraws
  -- the words for the occurrence
  have hmem : u.byteLength ∈ Word.occurrences state r.pattern :=
    (Word.mem_occurrences_iff r.pattern_ne_nil).mpr ⟨u, v, rfl, rfl⟩
  obtain ⟨d, hd, hget⟩ := List.getElem_of_mem hmem
  have hcount : (Word.occurrences state r.pattern).length < 2 ^ 32 :=
    (Word.length_occurrences_le state r.pattern).trans_lt hlen
  obtain ⟨ws₂, hws₂⟩ :=
    Tape.exists_forces_below _ (Width.le_size_forPlace (hcount.le.trans (by decide))) hd
  refine ⟨ws₁ ++ ws₂, fun m rest hm hc ht => ?_⟩
  -- the pass makes these draws, so it applies this rule at this occurrence
  rw [List.append_assoc] at ht
  have hs : m.program.state = state := congrArg Configuration.state hc
  obtain ⟨hshuffle, ht₁⟩ := hws₁ m.tape _ ht
  obtain ⟨hbelow, ht₂⟩ := hws₂ _ _ ht₁
  have horder : m.orderDraws = draws := by rw [orderDraws, hm, hshuffle]
  have htape : m.shuffledTape = (m.tape.shuffleDraws rules.length).2 := by rw [shuffledTape, hm]
  have happlies : m.program.Applies i := ⟨r, by rw [hm, hr], by rw [hs]; exact ⟨u, v, rfl⟩⟩
  have hindex : m.pass.applied.map (·.index) = some i := by
    rw [applied_map_index, horder, hm, harr, List.find?_cons_of_pos (by simpa using happlies)]
  obtain ⟨a, ha, rfl⟩ := Option.map_eq_some_iff.mp hindex
  obtain ⟨hrule, hpos, htape', -⟩ := split_of_applied ha
  rw [hm, hr] at hrule
  obtain rfl := Option.some.inj hrule
  rw [hs, htape] at hpos htape'
  rw [hbelow, List.getElem?_eq_getElem hd, hget] at hpos
  have hredex : a.redex = ⟨a.index, u.byteLength⟩ := by rw [Application.redex, Option.some.inj hpos]
  have hstep' := step_of_applied ha
  rw [hm, hc, hredex] at hstep'
  refine ⟨?_, htape' ▸ ht₂⟩
  rw [Pass.step?, ha, Option.map_some, hredex, hstep.det hstep']

/-- The words for the steps of a derivation, one after the other, force the derivation. -/
theorem exists_forces_derivation {rules : List Rule} {c c' : Configuration}
    {ds : List (Redex × Configuration)} (h : Derivation rules c ds c')
    (hrules : rules.length < 2 ^ 32) (hlen : c.state.byteLength < 2 ^ 32)
    (hlens : ∀ d ∈ ds, d.2.state.byteLength < 2 ^ 32) :
    ∃ ws, ∀ m : Machine Buffer, m.program.rules = rules → m.configuration = c → m.tape.Serves ws →
      (m.passes ds.length).map Pass.step? = ds.map some := by
  induction h with
  | refl => exact ⟨[], fun _ _ _ _ => rfl⟩
  | @step c c₁ c₂ x ds hstep _ ih =>
    obtain ⟨ws₁, hws₁⟩ := exists_forces_step hstep hrules hlen
    obtain ⟨ws₂, hws₂⟩ := ih (hlens _ List.mem_cons_self) fun d hd =>
      hlens d (List.mem_cons_of_mem _ hd)
    refine ⟨ws₁ ++ ws₂, fun m hm hc ht => ?_⟩
    obtain ⟨hpass, ht₁⟩ := hws₁ m ws₂ hm hc ht
    have hc₁ : m.pass.machine.configuration = c₁ := by
      obtain ⟨a, -, ha⟩ := Option.map_eq_some_iff.mp hpass
      exact (Prod.mk.inj ha).2
    have hrest := hws₂ m.pass.machine (by rw [rules_pass, hm]) hc₁ ht₁
    rw [List.length_cons, passes_succ_cons, List.map_cons, List.map_cons, hpass, hrest]

/-- **Every derivation is a run.**  For each derivation from the state of a program there are words
with which the passes go through exactly this derivation: the same redexes, and the same
configurations after each pass. -/
theorem exists_words_passes_eq (p : Program) (console : Buffer) (order : List Nat)
    (journal : Journal)
    {c : Configuration} {ds : List (Redex × Configuration)}
    (h : Derivation p.rules ⟨p.state, console⟩ ds c)
    (hrules : p.rules.length < 2 ^ 32) (hlen : p.state.byteLength < 2 ^ 32)
    (hlens : ∀ d ∈ ds, d.2.state.byteLength < 2 ^ 32) :
    ∃ ws : List UInt32,
      (passes ds.length { console, tape := Tape.ofWords ws, order, journal, program := p }).map
        Pass.step? = ds.map some := by
  obtain ⟨ws, hws⟩ := exists_forces_derivation h hrules hlen hlens
  exact ⟨ws, hws _ rfl rfl (Tape.serves_ofWords ws)⟩

/-- Of two overlapping occurrences of `aa` the second one is replaced by a line of input, and then
the `a` of that line, although other rules and places compete each time. -/
theorem exists_words_passes_eq_overlapping :
    let rules : List Rule :=
      [⟨['a'], .standard ['b'], by decide⟩, ⟨['a', 'a'], .read, by decide⟩]
    let console : Buffer := ⟨[['x', 'a']], []⟩
    let p : Program := { rules, state := ['a', 'a', 'a'] }
    let ds : List (Redex × Configuration) :=
      [(⟨1, 1⟩, ⟨['a', 'x', 'a'], ⟨[], []⟩⟩), (⟨0, 2⟩, ⟨['a', 'x', 'b'], ⟨[], []⟩⟩)]
    Derivation p.rules ⟨p.state, console⟩ ds ⟨['a', 'x', 'b'], ⟨[], []⟩⟩ ∧
      ∃ ws : List UInt32,
        (passes 2 { console, tape := Tape.ofWords ws, program := p }).map Pass.step? =
          ds.map some := by
  intro rules console p ds
  have h₁ : Step p.rules ⟨p.state, console⟩ ⟨1, 1⟩ ⟨['a', 'x', 'a'], ⟨[], []⟩⟩ :=
    .rewrite (r := ⟨['a', 'a'], .read, by decide⟩) (u := ['a']) (v := [])
      rfl (.read ['x', 'a'] [] [])
  have h₂ : Step p.rules ⟨['a', 'x', 'a'], ⟨[], []⟩⟩ ⟨0, 2⟩ ⟨['a', 'x', 'b'], ⟨[], []⟩⟩ :=
    .rewrite (r := ⟨['a'], .standard ['b'], by decide⟩) (u := ['a', 'x']) (v := [])
      rfl (.standard ['b'] _)
  have h : Derivation p.rules ⟨p.state, console⟩ ds ⟨['a', 'x', 'b'], ⟨[], []⟩⟩ :=
    .step h₁ (.step h₂ (.refl _))
  exact ⟨h, exists_words_passes_eq p console [] {} h (by decide) (by decide) (by decide)⟩

end Machine

end SemiThue
