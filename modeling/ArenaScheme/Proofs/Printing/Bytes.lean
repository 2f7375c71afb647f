/-
# The bytes of a text

The printer puts characters together, and the reader takes bytes apart.  The bytes of a text are
those of its characters one after the other, and a text can be had back from its bytes.  A character
below 128 is one byte, and it is no part of any other character.
-/
import Mathlib.Tactic.Lemma
import ArenaScheme.Text.Lexer

namespace ArenaScheme

namespace Text

/-- The bytes of a text. -/
def bytes (s : String) : List UInt8 := s.toUTF8.toList

lemma toList_loop (bs : ByteArray) (i : Nat) (r : List UInt8) :
    ByteArray.toList.loop bs i r = r.reverse ++ bs.data.toList.drop i := by
  fun_induction ByteArray.toList.loop bs i r with
  | case1 i r hlt ih =>
    have hi : i < bs.data.toList.length := by simpa using hlt
    rw [ih, List.drop_eq_getElem_cons hi]
    simp [ByteArray.get!, hlt]
  | case2 i r hlt =>
    rw [List.drop_eq_nil_of_le (by simpa using Nat.le_of_not_lt hlt)]
    simp

lemma toList_eq (bs : ByteArray) : bs.toList = bs.data.toList := by
  simp [ByteArray.toList, toList_loop]

lemma bytes_eq (s : String) : bytes s = s.toByteArray.data.toList := toList_eq _

@[simp] lemma bytes_append (s t : String) : bytes (s ++ t) = bytes s ++ bytes t := by
  simp [bytes_eq]

lemma length_bytes (s : String) : (bytes s).length = s.utf8ByteSize := by
  rw [bytes_eq]
  rfl

/-- The bytes of some characters. -/
def encode (cs : List Char) : List UInt8 := cs.flatMap String.utf8EncodeChar

@[simp] lemma encode_nil : encode [] = [] := rfl

@[simp] lemma encode_cons (c : Char) (cs : List Char) :
    encode (c :: cs) = String.utf8EncodeChar c ++ encode cs := rfl

@[simp] lemma encode_append (cs ds : List Char) : encode (cs ++ ds) = encode cs ++ encode ds := by
  simp [encode]

lemma bytes_ofList (cs : List Char) : bytes (String.ofList cs) = encode cs := by
  rw [bytes_eq, String.toByteArray_ofList]
  induction cs with
  | nil => rfl
  | cons c cs ih =>
    rw [List.utf8Encode_cons, ByteArray.data_append, Array.toList_append, ih,
      List.utf8Encode_singleton, List.toList_data_toByteArray, encode_cons]

lemma bytes_eq_encode (s : String) : bytes s = encode s.toList := by
  rw [← bytes_ofList, String.ofList_toList]

/-- A text can be had back from its bytes. -/
lemma decode?_bytes (s : String) : Lexer.decode? (bytes s) = some s := by
  have hb : (bytes s).toByteArray = s.toByteArray := by
    ext1
    rw [bytes_eq, ← Array.toList_inj, List.toList_data_toByteArray]
  rw [Lexer.decode?, hb, String.fromUTF8?, dif_pos s.isValidUTF8]
  rfl

/-- A character below 128 is one byte. -/
lemma encodeChar_ascii {c : Char} (hc : c.toNat < 128) :
    String.utf8EncodeChar c = [UInt8.ofNat c.toNat] := by
  have hv : c.val.toNat ≤ 0x7f := Nat.lt_succ_iff.mp hc
  simp only [String.utf8EncodeChar, if_pos hv]
  rfl

/-- Different characters below 128 are different bytes. -/
lemma ofNat_ne {c d : Char} (hc : c.toNat < 128) (hd : d.toNat < 128) (hne : c ≠ d) :
    UInt8.ofNat c.toNat ≠ UInt8.ofNat d.toNat := by
  intro he
  have hn := congrArg UInt8.toNat he
  rw [UInt8.toNat_ofNat', UInt8.toNat_ofNat', Nat.mod_eq_of_lt (by omega),
    Nat.mod_eq_of_lt (by omega)] at hn
  exact hne (Char.toNat_inj.mp hn)

lemma le_ofNat {n : Nat} (h₁ : 128 ≤ n) (h₂ : n < 256) : 128 ≤ UInt8.ofNat n := by
  rw [UInt8.le_iff_toNat_le, UInt8.toNat_ofNat', Nat.mod_eq_of_lt h₂]
  exact h₁

/-- The bytes of any other character are not below 128. -/
lemma le_of_mem_encodeChar {c : Char} (hc : 128 ≤ c.toNat) {b : UInt8}
    (hb : b ∈ String.utf8EncodeChar c) : 128 ≤ b := by
  have hv : ¬ c.val.toNat ≤ 0x7f := Nat.not_le.mpr hc
  simp only [String.utf8EncodeChar, if_neg hv] at hb
  split at hb
  · simp only [List.mem_cons, List.not_mem_nil, or_false] at hb
    rcases hb with rfl | rfl <;> exact le_ofNat (by omega) (by omega)
  · split at hb
    · simp only [List.mem_cons, List.not_mem_nil, or_false] at hb
      rcases hb with rfl | rfl | rfl <;> exact le_ofNat (by omega) (by omega)
    · simp only [List.mem_cons, List.not_mem_nil, or_false] at hb
      rcases hb with rfl | rfl | rfl | rfl <;> exact le_ofNat (by omega) (by omega)

end Text

end ArenaScheme
