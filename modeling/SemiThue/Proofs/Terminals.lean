import Mathlib
import SemiThue.Console
import SemiThue.Proofs.Encoding
import SemiThue.Proofs.LineBreaks
import SemiThue.Proofs.Simulation

/-!
# SemiThue.Proofs.Terminals — a terminal is a queue of lines

To a program, the bytes of standard input look like the queue of their lines (`inputLines`).  The
relation `Terminal.Shows` keeps a terminal and a console in memory together while lines are read and
written, so no program can tell the one from the other.
-/

namespace SemiThue

/-- The text of a line of input.  A line that is no text counts as empty. -/
def lineText (bs : List UInt8) : Word := (Word.ofBytes? bs).getD []

/-- The lines of an input, which end at the bytes 10.  A byte 13 directly before that belongs to the
line break. -/
def inputLines (bs : List UInt8) : List Word := (linesBetween 10 13 bs).map lineText

/-! ### The text of a line -/

namespace Word

theorem dropLineBreak_concat (w : Word) : dropLineBreak (w ++ ['\n']) = dropReturn w := by
  rcases List.eq_nil_or_concat' w with rfl | ⟨u, c, rfl⟩
  · rfl
  · by_cases hc : c = '\r'
    · subst hc
      simp [dropLineBreak, dropReturn]
    · simp [dropLineBreak, dropReturn, hc]

theorem dropLineBreak_eq_self {w : Word} (h : w.getLast? ≠ some '\n') : dropLineBreak w = w := by
  rcases List.eq_nil_or_concat' w with rfl | ⟨u, c, rfl⟩
  · rfl
  · have hc : c ≠ '\n' := by simpa using h
    simp [dropLineBreak, hc]

/-- Bytes that do not end with the byte of a character are no word that ends with the character. -/
theorem getLast?_of_ofBytes? {bs : List UInt8} {w : Word} (h : ofBytes? bs = some w) {c : Char}
    {b : UInt8} (hc : String.utf8EncodeChar c = [b]) (hlast : bs.getLast? ≠ some b) :
    w.getLast? ≠ some c := by
  rintro hw
  obtain ⟨u, rfl⟩ := List.getLast?_eq_some_iff.mp hw
  rw [ofBytes?_eq_some_iff, bytes_append, bytes_singleton, hc] at h
  rw [h, List.getLast?_concat] at hlast
  exact hlast rfl

end Word

open Word

/-- Dropping the return before or after decoding makes no difference. -/
theorem lineText_dropLastIf (bs : List UInt8) :
    lineText (dropLastIf 13 bs) = ((ofBytes? bs).map dropReturn).getD [] := by
  unfold lineText dropLastIf
  split_ifs with h
  · obtain ⟨front, rfl⟩ := List.getLast?_eq_some_iff.mp h
    rw [List.dropLast_concat, ofBytes?_concat (c := '\r') (by decide), Option.map_map]
    cases ofBytes? front with
    | none => rfl
    | some w => simp [dropReturn]
  · cases hw : ofBytes? bs with
    | none => rfl
    | some w =>
      have hreturn := getLast?_of_ofBytes? hw (c := '\r') (by decide) h
      simp [dropReturn_eq_self_iff.mpr hreturn]

namespace Reading

theorem text_ofPiece_concat (bs : List UInt8) :
    (ofPiece (bs ++ [10])).text = lineText (dropLastIf 13 bs) := by
  rw [lineText_dropLastIf, ofPiece, if_neg (by simp), ofBytes?_concat (c := '\n') (by decide)]
  cases ofBytes? bs with
  | none => rfl
  | some w =>
    simp only [Option.map_some, Option.getD_some, text]
    exact dropLineBreak_concat w

theorem text_ofPiece_of_notMem {bs : List UInt8} (h : 10 ∉ bs) :
    (ofPiece bs).text = lineText bs := by
  have hlast : bs.getLast? ≠ some 10 := fun hlast => h (List.mem_of_getLast? hlast)
  unfold ofPiece lineText
  by_cases hnil : bs = []
  · subst hnil
    rfl
  · rw [if_neg (by simpa using hnil)]
    cases hw : ofBytes? bs with
    | none => rfl
    | some w => exact dropLineBreak_eq_self (getLast?_of_ofBytes? hw (by decide) hlast)

end Reading

/-! ### The next line -/

namespace ByteStream

theorem bne_feed_of_notMem {l : List UInt8} (h : 10 ∉ l) : ∀ b ∈ l, (b != 10) = true := by
  intro b hb
  simpa using fun hfeed : b = 10 => h (hfeed ▸ hb)

theorem takeLine_append_feed {l : List UInt8} (h : 10 ∉ l) (w : List UInt8)
    (taken : List (List UInt8)) :
    takeLine ⟨l ++ 10 :: w, taken⟩ = (l ++ [10], ⟨w, taken ++ [l ++ [10]]⟩) := by
  have htake : (l ++ 10 :: w).takeWhile (· != 10) = l := by
    rw [List.takeWhile_append_of_pos (bne_feed_of_notMem h)]
    simp
  have hdrop : (l ++ 10 :: w).dropWhile (· != 10) = 10 :: w := by
    rw [List.dropWhile_append_of_pos (bne_feed_of_notMem h)]
    simp
  simp [takeLine, htake, hdrop]

theorem takeLine_of_notMem {l : List UInt8} (h : 10 ∉ l) (taken : List (List UInt8)) :
    takeLine ⟨l, taken⟩ = (l, ⟨[], taken ++ [l]⟩) := by
  have htake : l.takeWhile (· != 10) = l :=
    List.takeWhile_eq_self_iff.mpr (bne_feed_of_notMem h)
  have hdrop : l.dropWhile (· != 10) = [] :=
    List.dropWhile_eq_nil_iff.mpr (bne_feed_of_notMem h)
  simp [takeLine, htake, hdrop]

/-- **The next line of a stream is the first of its lines**, and the others are those of the rest.
At the end of the stream the line is empty. -/
theorem takeLine_inputLines (s : ByteStream) :
    (Reading.ofPiece s.takeLine.1).text = (inputLines s.rest).headD [] ∧
      inputLines s.takeLine.2.rest = (inputLines s.rest).tail := by
  obtain ⟨rest, taken⟩ := s
  by_cases h : 10 ∈ rest
  · obtain ⟨l, w, rfl, hl⟩ := List.eq_append_cons_of_mem h
    rw [takeLine_append_feed hl]
    unfold inputLines
    rw [linesBetween_append_feed hl]
    exact ⟨Reading.text_ofPiece_concat l, rfl⟩
  · rw [takeLine_of_notMem h]
    unfold inputLines
    rw [linesBetween_of_notMem h]
    refine ⟨?_, ?_⟩
    · rw [Reading.text_ofPiece_of_notMem h]
      by_cases hnil : rest = []
      · subst hnil
        rfl
      · simp [hnil]
    · by_cases hnil : rest = []
      · subst hnil
        rfl
      · simp [hnil, linesBetween]

end ByteStream

/-- A return before a line feed is dropped, one at the end of the input is not, and the byte 255 is
part of no text. -/
example : inputLines [97, 13, 10, 255, 10, 10, 98, 13] = [['a'], [], [], ['b', '\r']] := by
  decide +kernel

/-! ### Terminals and consoles in memory -/

namespace Terminal

/-- The console in memory holds the lines of what the terminal has not read, and both have written
the same. -/
structure Shows (t : Terminal) (b : Buffer) : Prop where
  input : b.input = inputLines t.input.rest
  output : b.output = t.output

theorem simulation_shows : Console.Simulation Shows where
  write h text := ⟨h.input, congrArg (· ++ text) h.output⟩
  line_eq {t b} h := by
    show (Reading.ofPiece t.input.takeLine.1).text = b.input.headD []
    rw [h.input]
    exact t.input.takeLine_inputLines.1
  readLine {t b} h := by
    refine ⟨?_, h.output⟩
    show b.input.tail = inputLines t.input.takeLine.2.rest
    rw [h.input]
    exact t.input.takeLine_inputLines.2.symm

/-- **A program runs on a terminal as on the lines of its input.**  Run on standard input, it ends
in the same way, with the same state, steps and draws, as on a console in memory that holds the
lines of that input, and writes the same. -/
theorem runBounded_eq_buffer (p : Program) (tape : Tape) (j j' : Journal) (n : Nat)
    (bs : List UInt8) :
    let t : Machine Terminal := { console := ofInput bs, tape, journal := j, program := p }
    let b : Machine Buffer :=
      { console := { input := inputLines bs }, tape, journal := j', program := p }
    (t.runBounded n).1 = (b.runBounded n).1 ∧
      (t.runBounded n).2.program = (b.runBounded n).2.program ∧
      (t.runBounded n).2.tape = (b.runBounded n).2.tape ∧
      (t.runBounded n).2.console.output = (b.runBounded n).2.console.output := by
  intro t b
  have hstart : t.Matches Shows b := ⟨rfl, rfl, rfl, rfl⟩
  obtain ⟨hhalt, hmatch⟩ := hstart.runBounded simulation_shows n
  exact ⟨hhalt, hmatch.program, hmatch.tape, hmatch.console.output.symm⟩

end Terminal

end SemiThue
