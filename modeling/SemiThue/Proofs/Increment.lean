import Mathlib
import SemiThue.Program
import SemiThue.Proofs.Halting

/-!
# SemiThue.Proofs.Increment — the sample adds one to every binary number

The sample starts from a binary number between two underscores.  If the number ends with a zero, one
rule makes it a one.  Otherwise the last underscore becomes the mark `++`, which moves to the left
over the ones and turns them into zeros, until it comes to a zero or to the underscore in front of
the number, and makes that a one.

Six rules compete, but there is never a choice between two of them.  In all states after the first
one an underscore stands only at the beginning and before a one (`UnderscoreLeads`), so that no rule
for underscores applies there, and the mark stands at one place at most.
-/

namespace SemiThue

/-! ### Binary numerals -/

/-- A binary numeral without leading zeros. -/
structure Word.IsBinary (w : Word) : Prop where
  digits : ∀ c ∈ w, c = '0' ∨ c = '1'
  head?_eq : w.head? = some '1'

namespace Word

/-- The number that a binary numeral stands for. -/
def binaryValue (w : Word) : Nat := Nat.ofDigitChars 2 w 0

/-- The ones at the end of a word. -/
def trailingOnes (w : Word) : Nat := (w.reverse.takeWhile (· = '1')).length

namespace IsBinary

theorem ne_nil {w : Word} (h : w.IsBinary) : w ≠ [] := by
  rintro rfl
  cases h.head?_eq

theorem notMem {w : Word} (h : w.IsBinary) {c : Char} (h₀ : c ≠ '0') (h₁ : c ≠ '1') : c ∉ w := by
  intro hc
  rcases h.digits c hc with rfl | rfl
  · exact h₀ rfl
  · exact h₁ rfl

theorem head?_append {w : Word} (h : w.IsBinary) (v : Word) : (w ++ v).head? = some '1' := by
  rw [List.head?_append, h.head?_eq]
  rfl

theorem append {w v : Word} (h : w.IsBinary) (hv : ∀ c ∈ v, c = '0' ∨ c = '1') :
    IsBinary (w ++ v) := by
  refine ⟨fun c hc => ?_, h.head?_append v⟩
  rcases List.mem_append.mp hc with hc | hc
  · exact h.digits c hc
  · exact hv c hc

theorem one_zeros (t : Nat) : IsBinary ('1' :: List.replicate t '0') := by
  refine ⟨fun c hc => ?_, rfl⟩
  rcases List.mem_cons.mp hc with rfl | hc
  · exact .inr rfl
  · exact .inl (List.eq_of_mem_replicate hc)

/-- A numeral is a one, or a shorter numeral followed by a digit. -/
theorem concat_cases {w : Word} {d : Char} (h : IsBinary (w ++ [d])) :
    (w = [] ∧ d = '1') ∨ (w.IsBinary ∧ (d = '0' ∨ d = '1')) := by
  have hd : d = '0' ∨ d = '1' := h.digits d (by simp)
  cases w with
  | nil => exact .inl ⟨rfl, by simpa using h.head?_eq⟩
  | cons c w =>
    refine .inr ⟨⟨fun c' hc' => h.digits c' (List.mem_append_left _ hc'), ?_⟩, hd⟩
    simpa using h.head?_eq

/-- **Numerals are read back.**  A numeral is the numeral of the number that it stands for. -/
theorem toDigits_binaryValue {w : Word} (h : w.IsBinary) : Nat.toDigits 2 (binaryValue w) = w := by
  induction w using List.reverseRecOn with
  | nil => exact absurd rfl h.ne_nil
  | append_singleton w d ih =>
    rcases h.concat_cases with ⟨rfl, rfl⟩ | ⟨hw, hd⟩
    · decide
    · have hself := ih hw
      have hpos : 0 < binaryValue w := by
        by_contra hzero
        rw [Nat.eq_zero_of_not_pos hzero] at hself
        have hhead := hw.head?_eq
        rw [← hself] at hhead
        cases hhead
      have hdigit : ∃ b < 2, Nat.toDigits 2 b = [d] ∧ d.toNat - '0'.toNat = b := by
        rcases hd with rfl | rfl
        · exact ⟨0, by decide⟩
        · exact ⟨1, by decide⟩
      obtain ⟨b, hb, hchar, hvalue⟩ := hdigit
      have hconcat : binaryValue (w ++ [d]) = 2 * binaryValue w + b := by
        rw [binaryValue, Nat.ofDigitChars_append, Nat.ofDigitChars_cons, Nat.ofDigitChars_nil,
          hvalue, binaryValue]
      rw [hconcat, ← Nat.toDigits_append_toDigits (by decide) hpos hb, hself, hchar]

end IsBinary

end Word

/-! ### The rules of the sample -/

namespace Sample

/-- The rules of the sample, in the order of their declaration. -/
def incrementRules : List Rule :=
  [⟨['1', '_'], .standard ['1', '+', '+'], by decide⟩,
    ⟨['0', '_'], .standard ['1'], by decide⟩,
    ⟨['0', '1', '+', '+'], .standard ['1', '0'], by decide⟩,
    ⟨['1', '1', '+', '+'], .standard ['1', '+', '+', '0'], by decide⟩,
    ⟨['_', '0'], .standard ['_'], by decide⟩,
    ⟨['_', '1', '+', '+'], .standard ['1', '0'], by decide⟩]

theorem parse_binaryIncrement : Program.parse binaryIncrement =
    .ok { rules := incrementRules, state := "_1111111111_".toList } := by
  decide +kernel

theorem onlyReplace_incrementRules : OnlyReplace incrementRules := by
  simp [OnlyReplace, incrementRules]

/-- What the last digit and the underscore after it become. -/
def atEnd (d : Char) : Word := if d = '1' then ['1', '+', '+'] else ['1']

/-- What the mark, the one before it and the character before that become. -/
def atMark (a : Char) : Word := if a = '1' then ['1', '+', '+', '0'] else ['1', '0']

/-- **What the rules can do**: begin at the last digit, drop a leading zero, or move the mark. -/
theorem rewrites_iff {s s' : Word} : Rewrites incrementRules s s' ↔ ∃ u v,
    (∃ d, (d = '0' ∨ d = '1') ∧ s = u ++ [d, '_'] ++ v ∧ s' = u ++ atEnd d ++ v) ∨
    (s = u ++ ['_', '0'] ++ v ∧ s' = u ++ ['_'] ++ v) ∨
    ∃ a, (a = '0' ∨ a = '1' ∨ a = '_') ∧ s = u ++ [a, '1', '+', '+'] ++ v ∧
      s' = u ++ atMark a ++ v := by
  constructor
  · rintro ⟨r, hr, text, u, v, htext, hs, rfl⟩
    refine ⟨u, v, ?_⟩
    simp only [incrementRules, List.mem_cons, List.not_mem_nil, or_false] at hr
    rcases hr with rfl | rfl | rfl | rfl | rfl | rfl <;> obtain rfl := Kind.standard.inj htext
    · exact .inl ⟨'1', .inr rfl, hs, rfl⟩
    · exact .inl ⟨'0', .inl rfl, hs, rfl⟩
    · exact .inr (.inr ⟨'0', .inl rfl, hs, rfl⟩)
    · exact .inr (.inr ⟨'1', .inr (.inl rfl), hs, rfl⟩)
    · exact .inr (.inl ⟨hs, rfl⟩)
    · exact .inr (.inr ⟨'_', .inr (.inr rfl), hs, rfl⟩)
  · rintro ⟨u, v, ⟨d, rfl | rfl, rfl, rfl⟩ | ⟨rfl, rfl⟩ | ⟨a, rfl | rfl | rfl, rfl, rfl⟩⟩
    · exact ⟨_, List.mem_of_getElem? (i := 1) rfl, _, u, v, rfl, rfl, rfl⟩
    · exact ⟨_, List.mem_of_getElem? (i := 0) rfl, _, u, v, rfl, rfl, rfl⟩
    · exact ⟨_, List.mem_of_getElem? (i := 4) rfl, _, u, v, rfl, rfl, rfl⟩
    · exact ⟨_, List.mem_of_getElem? (i := 2) rfl, _, u, v, rfl, rfl, rfl⟩
    · exact ⟨_, List.mem_of_getElem? (i := 3) rfl, _, u, v, rfl, rfl, rfl⟩
    · exact ⟨_, List.mem_of_getElem? (i := 5) rfl, _, u, v, rfl, rfl, rfl⟩

/-! ### States in which only the mark can move -/

/-- An underscore stands only at the beginning, and before a one. -/
def UnderscoreLeads (s : Word) : Prop :=
  ∀ u v, s = u ++ '_' :: v → u = [] ∧ v.head? = some '1'

theorem underscoreLeads_of_notMem {s : Word} (h : '_' ∉ s) : UnderscoreLeads s := by
  rintro u v rfl
  simp at h

theorem underscoreLeads_cons {s : Word} (h : '_' ∉ s) (hhead : s.head? = some '1') :
    UnderscoreLeads ('_' :: s) := by
  intro u v hs
  cases u with
  | nil => exact ⟨rfl, (List.cons_eq_cons.mp hs).2 ▸ hhead⟩
  | cons c u =>
    rw [(List.cons_eq_cons.mp hs).2] at h
    simp at h

namespace UnderscoreLeads

variable {s s' : Word}

theorem exists_mark (h : UnderscoreLeads s) (hs : Rewrites incrementRules s s') :
    ∃ u v a, s = u ++ [a, '1', '+', '+'] ++ v ∧ s' = u ++ atMark a ++ v := by
  obtain ⟨u, v, ⟨d, -, rfl, -⟩ | ⟨rfl, -⟩ | ⟨a, -, hs, hs'⟩⟩ := rewrites_iff.mp hs
  · have := (h (u ++ [d]) v (by simp)).1
    simp at this
  · have := (h u ('0' :: v) (by simp)).2
    simp at this
  · exact ⟨u, v, a, hs, hs'⟩

theorem not_rewrites (h : UnderscoreLeads s) (hmark : '+' ∉ s) :
    ¬ Rewrites incrementRules s s' := by
  intro hs
  obtain ⟨u, v, a, rfl, -⟩ := h.exists_mark hs
  simp at hmark

end UnderscoreLeads

/-- There is one place at most for the mark. -/
theorem mark_unique {p q p' q' : Word} (hp : '+' ∉ p) (hq : '+' ∉ q)
    (h : p ++ '+' :: '+' :: q = p' ++ '+' :: '+' :: q') : p = p' ∧ q = q' := by
  have hcount := congrArg (List.count '+') h
  simp only [List.count_append, List.count_cons_self, List.count_eq_zero_of_not_mem hp,
    List.count_eq_zero_of_not_mem hq] at hcount
  have hp' : '+' ∉ p' := List.count_eq_zero.mp (by omega)
  have hlen : p.length = p'.length := by
    have hidx := congrArg (List.idxOf '+') h
    rw [List.idxOf_append_of_notMem hp, List.idxOf_append_of_notMem hp', List.idxOf_cons_self,
      List.idxOf_cons_self] at hidx
    exact hidx
  obtain ⟨rfl, hrest⟩ := List.append_inj h hlen
  exact ⟨rfl, by simpa using hrest⟩

/-- The mark moves in one way only. -/
theorem rewrites_mark_iff {u z s' : Word} {a : Char} (ha : a = '0' ∨ a = '1' ∨ a = '_')
    (hu : '+' ∉ u) (hz : '+' ∉ z) (h : UnderscoreLeads (u ++ [a, '1', '+', '+'] ++ z)) :
    Rewrites incrementRules (u ++ [a, '1', '+', '+'] ++ z) s' ↔ s' = u ++ atMark a ++ z := by
  constructor
  · intro hs
    obtain ⟨u', v, a', hsplit, rfl⟩ := h.exists_mark hs
    have hfree : '+' ∉ u ++ [a, '1'] := by
      rcases ha with rfl | rfl | rfl <;> simpa using hu
    have heq : (u ++ [a, '1']) ++ '+' :: '+' :: z = (u' ++ [a', '1']) ++ '+' :: '+' :: v := by
      simpa using hsplit
    obtain ⟨hfront, rfl⟩ := mark_unique hfree hz heq
    obtain ⟨rfl, hpair⟩ := List.append_inj' hfront rfl
    rw [(List.cons_eq_cons.mp hpair).1]
  · rintro rfl
    exact rewrites_iff.mpr ⟨u, z, .inr (.inr ⟨a, ha, rfl, rfl⟩)⟩

/-! ### The first state -/

section Start

variable {x u v : Word} (h : x.IsBinary)
include h

/-- The second underscore is the last character. -/
theorem eq_of_last_underscore (hsplit : x ++ ['_'] = u ++ '_' :: v) : x = u ∧ v = [] := by
  have hfree : '_' ∉ x := h.notMem (by decide) (by decide)
  obtain ⟨hu, -, hv⟩ := (List.append_cons_inj_of_notMem hfree List.not_mem_nil).mp hsplit
  exact ⟨hu, hv.symm⟩

/-- A digit before an underscore is the last one. -/
theorem exists_last_digit {d : Char} (hd : d = '0' ∨ d = '1')
    (hsplit : '_' :: (x ++ ['_']) = u ++ [d, '_'] ++ v) :
    ∃ w, x = w ++ [d] ∧ u = '_' :: w ∧ v = [] := by
  cases u with
  | nil =>
    obtain ⟨rfl, -⟩ := List.cons_eq_cons.mp hsplit
    simp at hd
  | cons c w =>
    obtain ⟨rfl, htail⟩ := List.cons_eq_cons.mp hsplit
    have htail' : x ++ ['_'] = (w ++ [d]) ++ '_' :: v := by simpa using htail
    obtain ⟨rfl, rfl⟩ := eq_of_last_underscore h htail'
    exact ⟨w, rfl, rfl, rfl⟩

theorem ne_leading_zero : '_' :: (x ++ ['_']) ≠ u ++ ['_', '0'] ++ v := by
  intro hsplit
  cases u with
  | nil =>
    have hhead := h.head?_append ['_']
    rw [(List.cons_eq_cons.mp hsplit).2] at hhead
    simp at hhead
  | cons c u =>
    have htail : x ++ ['_'] = u ++ '_' :: ('0' :: v) := by
      simpa using (List.cons_eq_cons.mp hsplit).2
    cases (eq_of_last_underscore h htail).2

end Start

/-- In the first state, the last digit decides. -/
theorem rewrites_start_iff {w s' : Word} {d : Char} (h : Word.IsBinary (w ++ [d])) :
    Rewrites incrementRules ('_' :: ((w ++ [d]) ++ ['_'])) s' ↔ s' = '_' :: w ++ atEnd d := by
  constructor
  · intro hs
    obtain ⟨u, v, ⟨d', hd', hsplit, rfl⟩ | ⟨hsplit, -⟩ | ⟨a, -, hsplit, -⟩⟩ := rewrites_iff.mp hs
    · obtain ⟨w', hw', rfl, rfl⟩ := exists_last_digit h hd' hsplit
      obtain ⟨rfl, hd⟩ := List.append_inj' hw' rfl
      rw [(List.cons_eq_cons.mp hd).1, List.append_nil]
    · exact absurd hsplit (ne_leading_zero h)
    · have hmark : '+' ∉ '_' :: ((w ++ [d]) ++ ['_']) := by
        simpa using h.notMem (c := '+') (by decide) (by decide)
      rw [hsplit] at hmark
      simp at hmark
  · rintro rfl
    have hd : d = '0' ∨ d = '1' := h.digits d (by simp)
    exact rewrites_iff.mpr ⟨'_' :: w, [], .inl ⟨d, hd, by simp, by simp⟩⟩

/-! ### The way of the mark -/

/-- `Front q a`: what stands before the ones at the end of the number in the first state.  It is the
first underscore alone, or it ends with a zero of the number. -/
inductive Front : Word → Char → Prop
  | empty : Front [] '_'
  | zero {y : Word} (hy : y.IsBinary) : Front ('_' :: y) '0'

namespace Front

variable {q : Word} {a : Char}

theorem mark_notMem (h : Front q a) : '+' ∉ q ++ [a] := by
  cases h with
  | empty => simp
  | zero hy => simpa using hy.notMem (c := '+') (by decide) (by decide)

/-- With a one behind it, or in the place of its last character, the front makes no rule for
underscores applicable. -/
theorem underscoreLeads (h : Front q a) {z : Word} (hz : '_' ∉ z) :
    UnderscoreLeads (q ++ a :: '1' :: z) ∧ UnderscoreLeads (q ++ '1' :: z) := by
  cases h with
  | empty =>
    exact ⟨underscoreLeads_cons (by simpa using hz) rfl,
      underscoreLeads_of_notMem (by simpa using hz)⟩
  | @zero y hy =>
    have hfree : '_' ∉ y := hy.notMem (by decide) (by decide)
    exact ⟨underscoreLeads_cons (by simp [hfree, hz]) (hy.head?_append _),
      underscoreLeads_cons (by simp [hfree, hz]) (hy.head?_append _)⟩

/-- The mark moves over the ones, and ends at the front. -/
theorem forced_mark (h : Front q a) : ∀ (t : Nat) {z : Word}, '_' ∉ z → '+' ∉ z →
    Forced incrementRules (t + 1) (q ++ a :: (List.replicate (t + 1) '1' ++ '+' :: '+' :: z))
      (q ++ '1' :: (List.replicate (t + 1) '0' ++ z))
  | 0, z, hz, hmark => by
    have hstate : q ++ a :: (List.replicate 1 '1' ++ '+' :: '+' :: z) =
        q ++ [a, '1', '+', '+'] ++ z := by simp
    have hleads := (h.underscoreLeads (z := '+' :: '+' :: z) (by simpa using hz)).1
    have hfinal := (h.underscoreLeads (z := '0' :: z) (by simpa using hz)).2
    have ha : a = '0' ∨ a = '1' ∨ a = '_' := by cases h <;> simp
    have hat : atMark a = ['1', '0'] := by cases h <;> rfl
    have hq : '+' ∉ q := fun hin => h.mark_notMem (List.mem_append_left _ hin)
    rw [hstate]
    refine .step (fun s' => rewrites_mark_iff ha hq hmark (hstate ▸ hleads)) ?_
    rw [hat]
    have hnext : q ++ ['1', '0'] ++ z = q ++ '1' :: (List.replicate 1 '0' ++ z) := by simp
    rw [hnext]
    exact .done fun s' => hfinal.not_rewrites (by simpa [hq] using hmark)
  | t + 1, z, hz, hmark => by
    have hstate : q ++ a :: (List.replicate (t + 2) '1' ++ '+' :: '+' :: z) =
        (q ++ a :: List.replicate t '1') ++ ['1', '1', '+', '+'] ++ z := by
      simp [List.replicate_succ']
    have hleads := (h.underscoreLeads
      (z := List.replicate (t + 1) '1' ++ '+' :: '+' :: z) (by simpa using hz)).1
    have hfront : '+' ∉ q ++ a :: List.replicate t '1' := by
      simpa using h.mark_notMem
    have hnext : (q ++ a :: List.replicate t '1') ++ atMark '1' ++ z =
        q ++ a :: (List.replicate (t + 1) '1' ++ '+' :: '+' :: '0' :: z) := by
      simp [atMark, List.replicate_succ']
    have hfinal : q ++ '1' :: (List.replicate (t + 2) '0' ++ z) =
        q ++ '1' :: (List.replicate (t + 1) '0' ++ '0' :: z) := by
      simp [List.replicate_succ']
    rw [hstate, hfinal]
    refine .step (fun s' => rewrites_mark_iff (.inr (.inl rfl)) hfront hmark (hstate ▸ hleads)) ?_
    rw [hnext]
    exact h.forced_mark t (by simpa using hz) (by simpa using hmark)

/-- A number with `t` ones at its end takes `t + 1` steps. -/
theorem forced_start (h : Front q a) {w : Word} (hw : w.IsBinary) {t : Nat}
    (hsplit : '_' :: w = q ++ a :: List.replicate t '1') :
    Forced incrementRules (t + 1) ('_' :: w ++ ['_']) (q ++ '1' :: List.replicate t '0') := by
  obtain ⟨w, d, rfl⟩ := (List.eq_nil_or_concat' w).resolve_left hw.ne_nil
  have hstep : ∀ s', Rewrites incrementRules ('_' :: ((w ++ [d]) ++ ['_'])) s' ↔
      s' = '_' :: w ++ atEnd d := fun s' => rewrites_start_iff hw
  cases t with
  | zero =>
    -- the number ends with the zero of the front
    have hsplit' : ('_' :: w) ++ [d] = q ++ [a] := hsplit
    obtain ⟨rfl, hlast⟩ := List.append_inj' hsplit' rfl
    obtain rfl := (List.cons_eq_cons.mp hlast).1
    cases h with
    | zero hy =>
      refine .step hstep (.done fun s' => ?_)
      exact ((Front.zero hy).underscoreLeads List.not_mem_nil).2.not_rewrites
        (by simpa [atEnd] using hy.notMem (c := '+') (by decide) (by decide))
  | succ t =>
    have hsplit' : ('_' :: w) ++ [d] = (q ++ a :: List.replicate t '1') ++ ['1'] := by
      simpa [List.replicate_succ'] using hsplit
    obtain ⟨hfront, hlast⟩ := List.append_inj' hsplit' rfl
    obtain rfl := (List.cons_eq_cons.mp hlast).1
    refine .step hstep ?_
    have hnext : '_' :: w ++ atEnd '1' =
        q ++ a :: (List.replicate (t + 1) '1' ++ '+' :: '+' :: []) := by
      rw [hfront]
      simp [atEnd, List.replicate_succ']
    have hforced := h.forced_mark t (z := []) List.not_mem_nil List.not_mem_nil
    rw [List.append_nil] at hforced
    rw [hnext]
    exact hforced

end Front

end Sample

/-! ### The number that is left -/

namespace Word

/-- Every number has a front. -/
theorem IsBinary.exists_front {w : Word} (h : w.IsBinary) :
    ∃ q a, Sample.Front q a ∧ '_' :: w = q ++ a :: List.replicate (trailingOnes w) '1' := by
  induction w using List.reverseRecOn with
  | nil => exact absurd rfl h.ne_nil
  | append_singleton w d ih =>
    rcases h.concat_cases with ⟨rfl, rfl⟩ | ⟨hw, rfl | rfl⟩
    · exact ⟨[], '_', .empty, rfl⟩
    · exact ⟨'_' :: w, '0', .zero hw, by simp [trailingOnes]⟩
    · obtain ⟨q, a, hfront, hsplit⟩ := ih hw
      have hones : trailingOnes (w ++ ['1']) = trailingOnes w + 1 := by simp [trailingOnes]
      refine ⟨q, a, hfront, ?_⟩
      rw [hones, List.replicate_succ', ← List.cons_append, hsplit]
      simp

/-- Ones at the end of a numeral are one less than a power of two. -/
theorem ofDigitChars_replicate_one (t n : Nat) :
    Nat.ofDigitChars 2 (List.replicate t '1') n + 1 = 2 ^ t * (n + 1) := by
  induction t generalizing n with
  | zero => simp
  | succ t ih =>
    have hdigit : '1'.toNat - '0'.toNat = 1 := rfl
    rw [List.replicate_succ, Nat.ofDigitChars_cons, hdigit, ih, pow_succ]
    ring

/-- The numeral that ends with a one and `t` zeros. -/
theorem toDigits_carried {y : Word} (hy : y = [] ∨ y.IsBinary) (t : Nat) :
    Nat.toDigits 2 (2 ^ t * (2 * binaryValue y + 1)) = y ++ '1' :: List.replicate t '0' := by
  have hbinary : IsBinary (y ++ '1' :: List.replicate t '0') := by
    rcases hy with rfl | hy
    · exact .one_zeros t
    · exact hy.append (IsBinary.one_zeros t).digits
  have hvalue : binaryValue (y ++ '1' :: List.replicate t '0') =
      2 ^ t * (2 * binaryValue y + 1) := by
    have hdigit : '1'.toNat - '0'.toNat = 1 := rfl
    rw [binaryValue, Nat.ofDigitChars_append, Nat.ofDigitChars_cons, hdigit,
      Nat.ofDigitChars_replicate_zero, binaryValue]
  rw [← hvalue, hbinary.toDigits_binaryValue]

end Word

namespace Sample

/-- **What the rules leave is the numeral of the next number**, with the first underscore before it
unless that was needed for a new digit. -/
theorem Front.eq_toDigits {q : Word} {a : Char} (h : Front q a) {w : Word} {t : Nat}
    (hsplit : '_' :: w = q ++ a :: List.replicate t '1') :
    q ++ '1' :: List.replicate t '0' =
      (if ∀ c ∈ w, c = '1' then [] else ['_']) ++ Nat.toDigits 2 (w.binaryValue + 1) := by
  cases h with
  | empty =>
    obtain rfl := (List.cons_eq_cons.mp hsplit).2
    have hvalue : Word.binaryValue (List.replicate t '1') + 1 =
        2 ^ t * (2 * Word.binaryValue [] + 1) := Word.ofDigitChars_replicate_one t 0
    rw [if_pos fun c hc => List.eq_of_mem_replicate hc, hvalue, Word.toDigits_carried (.inl rfl)]
    rfl
  | @zero y hy =>
    obtain rfl : w = y ++ '0' :: List.replicate t '1' := (List.cons_eq_cons.mp hsplit).2
    have hzero : ¬ ∀ c ∈ y ++ '0' :: List.replicate t '1', c = '1' := by
      intro hall
      have := hall '0' (by simp)
      simp at this
    have hvalue : Word.binaryValue (y ++ '0' :: List.replicate t '1') + 1 =
        2 ^ t * (2 * y.binaryValue + 1) := by
      have hdigit : '0'.toNat - '0'.toNat = 0 := rfl
      rw [Word.binaryValue, Nat.ofDigitChars_append, Nat.ofDigitChars_cons, hdigit, Nat.add_zero,
        Word.ofDigitChars_replicate_one, Word.binaryValue]
    rw [if_neg hzero, hvalue, Word.toDigits_carried (.inr hy)]
    rfl

end Sample

/-! ### Runs -/

namespace Machine

open Sample Word

variable {C : Type} [Console C]

/-- **The sample adds one to every binary number.**  On the rules of the sample, every machine that
starts from a binary numeral between underscores halts after one step more than the numeral has ones
at its end, whatever its tape.  The final state is the numeral of the next number, which has an
underscore before it unless the first numeral had ones only.  The console is not used: it is the
same afterwards, also if it is of a kind that notes every use. -/
theorem run_binaryIncrement {p : Program} (hp : Program.parse binaryIncrement = .ok p) {w : Word}
    (hw : w.IsBinary) (m : Machine C) (hrules : m.program.rules = p.rules)
    (hstate : m.program.state = '_' :: w ++ ['_']) :
    let t := trailingOnes w
    m.HaltsAfter (t + 1) ∧
    ∃ final : Machine C,
      (∀ n ≥ t + 2, m.runBounded n = (.fixpoint, final) ∧ m.run? n = some final) ∧
      (∀ n < t + 2, (m.runBounded n).1 = .limit ∧ m.run? n = none) ∧
      final.console = m.console ∧
      final.program.steps = m.program.steps + (t + 1) ∧
      final.program.state =
        (if ∀ c ∈ w, c = '1' then [] else ['_']) ++ Nat.toDigits 2 (binaryValue w + 1) := by
  intro t
  have hsample : m.program.rules = incrementRules := by
    rw [parse_binaryIncrement] at hp
    rw [hrules, ← Except.ok.inj hp]
  obtain ⟨q, a, hfront, hsplit⟩ := hw.exists_front
  obtain ⟨hhalts, hend, hconsole⟩ := haltsAfter_of_forced onlyReplace_incrementRules
    (hfront.forced_start hw hsplit) hsample hstate
  obtain ⟨final, hgreater, hothers, hprogram, hconsole'⟩ := hhalts.runs
  refine ⟨hhalts, final, fun n hn => hgreater n (by omega), fun n hn => hothers n (by omega),
    hconsole'.trans hconsole, ?_, ?_⟩
  · rw [hprogram, steps_after hhalts.productive]
  · rw [hprogram, hend, hfront.eq_toDigits hsplit]

/-- Eleven becomes twelve in three steps. -/
theorem run_binaryIncrement_eleven :
    ∃ p, Program.parse binaryIncrement = .ok p ∧ IsBinary ['1', '0', '1', '1'] ∧
      let m : Machine Buffer :=
        { console := ⟨[['l']], ['>']⟩, tape := .ofWords [7]
          program := { p with state := ['_', '1', '0', '1', '1', '_'] } }
      m.run? 3 = none ∧ ∃ final, m.run? 4 = some final ∧ final.console = m.console ∧
        final.program.steps = 3 ∧ final.program.state = ['_', '1', '1', '0', '0'] := by
  have hbinary : IsBinary ['1', '0', '1', '1'] := ⟨by simp, rfl⟩
  refine ⟨_, parse_binaryIncrement, hbinary, ?_⟩
  intro m
  obtain ⟨-, final, hgreater, hothers, hconsole, hsteps, hstate⟩ :=
    run_binaryIncrement parse_binaryIncrement hbinary m rfl rfl
  have hones : trailingOnes ['1', '0', '1', '1'] = 2 := by decide
  have hnumeral : Nat.toDigits 2 (binaryValue ['1', '0', '1', '1'] + 1) = ['1', '1', '0', '0'] := by
    decide
  rw [hones] at hgreater hothers hsteps
  rw [if_neg (by simp), hnumeral] at hstate
  exact ⟨(hothers 3 (by omega)).2, final, (hgreater 4 le_rfl).2, hconsole, hsteps, hstate⟩

end Machine

end SemiThue
