import Mathlib
import SemiThue.Word

/-!
# SemiThue.Proofs.Encoding — words and their bytes

* `ofBytes?_eq_some_iff`: bytes are read as the one word that they encode, if there is one.
* `exists_append_of_bytes_eq`: where the bytes of a word that is not empty stand among the bytes of
  another word, the word itself stands there.  For the first byte of a character is no other byte of
  any character, and no character begins with all bytes of another one.
* `ofBytes?_concat`: a character of one byte can be read apart from what stands before it.
-/

namespace SemiThue
namespace Word

theorem bytes_append (u v : Word) : bytes (u ++ v) = bytes u ++ bytes v := List.flatMap_append

theorem bytes_cons (c : Char) (w : Word) : bytes (c :: w) = String.utf8EncodeChar c ++ bytes w :=
  List.flatMap_cons

theorem bytes_singleton (c : Char) : bytes [c] = String.utf8EncodeChar c := by simp [bytes]

theorem toByteArray_ofList (w : Word) : (String.ofList w).toByteArray = ⟨(bytes w).toArray⟩ := by
  rw [String.toByteArray_ofList]
  exact ByteArray.ext List.data_toByteArray

/-- **Reading inverts encoding.**  Bytes are read as the one word that they encode. -/
theorem ofBytes?_eq_some_iff {bs : List UInt8} {w : Word} :
    ofBytes? bs = some w ↔ bs = bytes w := by
  unfold ofBytes? String.fromUTF8?
  constructor
  · intro h
    obtain ⟨s, hs, rfl⟩ := Option.map_eq_some_iff.mp h
    split_ifs at hs with hvalid
    have hbytes : (⟨bs.toArray⟩ : ByteArray) = s.toByteArray :=
      congrArg String.toByteArray (Option.some.inj hs)
    rw [← String.ofList_toList (s := s), toByteArray_ofList, ByteArray.mk.injEq] at hbytes
    simpa using congrArg Array.toList hbytes
  · rintro rfl
    have hvalid : ByteArray.IsValidUTF8 ⟨(bytes w).toArray⟩ := by
      rw [← toByteArray_ofList]
      exact (String.ofList w).isValidUTF8
    have hs : String.fromUTF8 ⟨(bytes w).toArray⟩ hvalid = String.ofList w := by
      rw [← String.toByteArray_inj, toByteArray_ofList]
      rfl
    rw [dif_pos hvalid, Option.map_some, hs, String.toList_ofList]

theorem bytes_injective : Function.Injective bytes := by
  intro u v h
  have hu := ofBytes?_eq_some_iff.mpr h
  rw [ofBytes?_eq_some_iff.mpr rfl] at hu
  exact Option.some.inj hu

/-! ### First bytes -/

/-- The bytes of a word that is not empty begin with the first byte of a character. -/
theorem exists_bytes_eq_cons {w : Word} (h : w ≠ []) :
    ∃ b bs, bytes w = b :: bs ∧ b.IsUTF8FirstByte := by
  cases w with
  | nil => exact absurd rfl h
  | cons c w =>
    have hfirst := UInt8.isUTF8FirstByte_getElem_zero_utf8EncodeChar (c := c)
    cases hc : String.utf8EncodeChar c with
    | nil => exact absurd hc String.utf8EncodeChar_ne_nil
    | cons b bs =>
      simp only [hc, List.getElem_cons_zero] at hfirst
      exact ⟨b, bs ++ bytes w, by rw [bytes_cons, hc, List.cons_append], hfirst⟩

/-- No character begins with all bytes of another one. -/
theorem eq_of_utf8EncodeChar_append_eq {c d : Char} {bs bs' : List UInt8}
    (h : String.utf8EncodeChar c ++ bs = String.utf8EncodeChar d ++ bs') : c = d := by
  have hdecode (e : Char) (xs : List UInt8) :
      (String.utf8EncodeChar e ++ xs).toByteArray.utf8DecodeChar? 0 = some e := by
    rw [List.toByteArray_append]
    exact ByteArray.utf8DecodeChar?_utf8EncodeChar_append
  have hc := hdecode c bs
  rw [h, hdecode] at hc
  exact (Option.some.inj hc).symm

/-- Where the first byte of a character stands, a character begins. -/
theorem exists_append_of_isUTF8FirstByte {w : Word} {front back : List UInt8} {b : UInt8}
    (h : bytes w = front ++ b :: back) (hb : b.IsUTF8FirstByte) :
    ∃ u v, w = u ++ v ∧ bytes u = front := by
  induction w generalizing front with
  | nil => simp [bytes] at h
  | cons c w ih =>
    rw [bytes_cons] at h
    by_cases hinside : front.length < (String.utf8EncodeChar c).length
    · -- the byte belongs to the first character, so it is the first byte of the word
      have hget : (String.utf8EncodeChar c)[front.length]? = some b := by
        rw [← List.getElem?_append_left hinside, h]
        simp
      obtain ⟨_, hget⟩ := List.getElem?_eq_some_iff.mp hget
      rw [← hget, UInt8.isUTF8FirstByte_getElem_utf8EncodeChar] at hb
      obtain rfl := List.length_eq_zero_iff.mp hb
      exact ⟨[], c :: w, rfl, rfl⟩
    · have hprefix : String.utf8EncodeChar c <+: front ++ b :: back := ⟨bytes w, h⟩
      obtain ⟨front', rfl⟩ : String.utf8EncodeChar c <+: front :=
        List.prefix_of_prefix_length_le hprefix (List.prefix_append _ _) (by omega)
      rw [List.append_assoc, List.append_cancel_left_eq] at h
      obtain ⟨u, v, rfl, rfl⟩ := ih h
      exact ⟨c :: u, v, rfl, bytes_cons c u⟩

/-! ### Words among bytes -/

/-- A word whose bytes begin with those of `p` begins with `p`. -/
theorem exists_append_of_bytes_eq_append {w p : Word} {back : List UInt8}
    (h : bytes w = bytes p ++ back) : ∃ v, w = p ++ v ∧ bytes v = back := by
  induction p generalizing w with
  | nil => exact ⟨w, rfl, h⟩
  | cons d p ih =>
    rw [bytes_cons, List.append_assoc] at h
    cases w with
    | nil => simp [bytes] at h
    | cons c w =>
      rw [bytes_cons] at h
      obtain rfl := eq_of_utf8EncodeChar_append_eq h
      obtain ⟨v, rfl, hv⟩ := ih (List.append_cancel_left h)
      exact ⟨v, rfl, hv⟩

/-- **Words are found by their bytes.**  Where the bytes of `p` stand among the bytes of a word, `p`
stands in that word. -/
theorem exists_append_of_bytes_eq {w p : Word} {front back : List UInt8} (hp : p ≠ [])
    (h : bytes w = front ++ bytes p ++ back) :
    ∃ u v, w = u ++ p ++ v ∧ bytes u = front ∧ bytes v = back := by
  obtain ⟨b, bs, hbytes, hb⟩ := exists_bytes_eq_cons hp
  have hfirst : bytes w = front ++ b :: (bs ++ back) := by
    rw [h, hbytes, List.append_assoc, List.cons_append]
  obtain ⟨u, t, rfl, rfl⟩ := exists_append_of_isUTF8FirstByte hfirst hb
  rw [bytes_append, List.append_assoc, List.append_cancel_left_eq] at h
  obtain ⟨v, rfl, hv⟩ := exists_append_of_bytes_eq_append h
  exact ⟨u, v, by rw [List.append_assoc], rfl, hv⟩

/-- **A character of one byte is read by itself.** -/
theorem ofBytes?_concat {c : Char} {b : UInt8} (hc : String.utf8EncodeChar c = [b])
    (bs : List UInt8) : ofBytes? (bs ++ [b]) = (ofBytes? bs).map (· ++ [c]) := by
  ext w
  rw [Option.map_eq_some_iff, ofBytes?_eq_some_iff]
  constructor
  · intro h
    have hbytes : bytes w = bs ++ bytes [c] ++ [] := by
      rw [bytes_singleton, hc, List.append_nil, h]
    obtain ⟨u, v, rfl, hu, hv⟩ := exists_append_of_bytes_eq (List.cons_ne_nil c []) hbytes
    obtain rfl : v = [] := bytes_injective hv
    exact ⟨u, ofBytes?_eq_some_iff.mpr hu.symm, by rw [List.append_nil]⟩
  · rintro ⟨u, hu, rfl⟩
    rw [bytes_append, bytes_singleton, hc, ofBytes?_eq_some_iff.mp hu]

end Word
end SemiThue
