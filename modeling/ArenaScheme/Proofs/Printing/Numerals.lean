/-
# Printed integers

An integer is printed as decimal digits, after a minus sign if it is negative.  That looks numeric,
no byte of it is a delimiter, and its value is the integer; the least and the greatest one are no
exception.
-/
import ArenaScheme.Proofs.Printing.Bytes

namespace ArenaScheme

namespace Number

open Text

variable {c : Char} {cs : List Char} {n : Nat}

/-! ## Digits -/

lemma toNat_digit (hc : c.isDigit = true) : 48 ≤ c.toNat ∧ c.toNat ≤ 57 := by
  simpa [Char.isDigit, UInt32.le_iff_toNat_le] using hc

/-- A decimal digit is one byte. -/
lemma encode_digits (hd : ∀ c ∈ cs, c.isDigit = true) :
    encode cs = cs.map fun c => UInt8.ofNat c.toNat := by
  induction cs with
  | nil => rfl
  | cons c cs ih =>
    obtain ⟨-, hc⟩ := toNat_digit (hd c (by simp))
    rw [encode_cons, encodeChar_ascii (by omega), ih fun c hc => hd c (by simp [hc])]
    rfl

lemma toNat_byte (hc : c.isDigit = true) : (UInt8.ofNat c.toNat).toNat = c.toNat := by
  obtain ⟨-, hc⟩ := toNat_digit hc
  rw [UInt8.toNat_ofNat', Nat.mod_eq_of_lt (by omega)]

lemma isDigit_byte (hc : c.isDigit = true) : isDigit (UInt8.ofNat c.toNat) = true := by
  have hd := toNat_digit hc
  rw [isDigit, Bool.and_eq_true, decide_eq_true_eq, decide_eq_true_eq, UInt8.le_iff_toNat_le,
    UInt8.le_iff_toNat_le, toNat_byte hc]
  exact hd

lemma digitsValue_map (hd : ∀ c ∈ cs, c.isDigit = true) (init : Nat) :
    (cs.map fun c => UInt8.ofNat c.toNat).foldl (fun n b => 10 * n + (b.toNat - 0x30)) init =
      Nat.ofDigitChars 10 cs init := by
  induction cs generalizing init with
  | nil => simp
  | cons c cs ih =>
    rw [List.map_cons, List.foldl_cons, Nat.ofDigitChars_cons, toNat_byte (hd c (by simp)),
      ih fun c hc => hd c (by simp [hc])]
    rfl

/-- The digits of a number, as bytes. -/
def digitBytes (n : Nat) : List UInt8 := (Nat.toDigits 10 n).map fun c => UInt8.ofNat c.toNat

lemma isDigit_toDigits : ∀ c ∈ Nat.toDigits 10 n, c.isDigit = true := fun _ hc =>
  Nat.isDigit_of_mem_toDigits (by decide) (by decide) hc

lemma isDigit_digitBytes {b : UInt8} (hb : b ∈ digitBytes n) : isDigit b = true := by
  obtain ⟨c, hc, rfl⟩ := List.mem_map.mp hb
  exact isDigit_byte (isDigit_toDigits c hc)

lemma digitBytes_ne_nil : digitBytes n ≠ [] := by
  simp [digitBytes]

lemma bytes_repr (n : Nat) : bytes n.repr = digitBytes n := by
  rw [Nat.repr_eq_ofList_toDigits, bytes_ofList, encode_digits isDigit_toDigits, digitBytes]

lemma digits?_digitBytes (n : Nat) : digits? (digitBytes n) = some n := by
  have hall : (digitBytes n).all isDigit = true := List.all_eq_true.mpr fun _ => isDigit_digitBytes
  have hne : (digitBytes n).isEmpty = false := by simp [digitBytes_ne_nil]
  have hv : digitsValue (digitBytes n) = n := by
    rw [digitsValue, digitBytes, digitsValue_map isDigit_toDigits, Nat.ofDigitChars_ten_toDigits]
  simp [digits?, hall, hne, hv]

lemma toNat_of_isDigit {b : UInt8} (hb : isDigit b = true) : 48 ≤ b.toNat ∧ b.toNat < 58 := by
  rw [isDigit, Bool.and_eq_true, decide_eq_true_eq, decide_eq_true_eq, UInt8.le_iff_toNat_le,
    UInt8.le_iff_toNat_le] at hb
  exact ⟨hb.1, Nat.lt_succ_of_le hb.2⟩

/-- No digit is a delimiter or begins a token of another kind. -/
lemma isDelimiter_of_isDigit {b : UInt8} (hb : isDigit b = true) :
    Byte.isDelimiter b = false ∧ b ≠ Byte.hash := by
  have hall : ∀ n < 58, 48 ≤ n →
      Byte.isDelimiter (UInt8.ofNat n) = false ∧ UInt8.ofNat n ≠ Byte.hash := by decide
  obtain ⟨h₁, h₂⟩ := toNat_of_isDigit hb
  have := hall b.toNat h₂ h₁
  rwa [UInt8.ofNat_toNat] at this

/-! ## Integers -/

/-- The bytes of an integer are digits, maybe after a minus sign. -/
lemma bytes_toString (n : Int) :
    bytes (toString n) = (if 0 ≤ n then [] else [0x2D]) ++ digitBytes n.natAbs := by
  have hminus : bytes "-" = [0x2D] := by decide +kernel
  rw [Int.toString_eq_repr, Int.repr_eq_if]
  split
  · rw [bytes_repr, List.nil_append, show n.toNat = n.natAbs by omega]
  · rw [bytes_append, bytes_repr, hminus, show (-n).toNat = n.natAbs by omega]

/-- The text of an integer begins an atom and goes on as one. -/
lemma bytes_toString_eq_cons (n : Int) : ∃ b bs, bytes (toString n) = b :: bs ∧ b ≠ Byte.hash ∧
    ∀ c ∈ b :: bs, Byte.isDelimiter c = false := by
  rw [bytes_toString]
  cases hd : digitBytes n.natAbs with
  | nil => exact absurd hd digitBytes_ne_nil
  | cons b bs =>
    have hall : ∀ c ∈ b :: bs, Byte.isDelimiter c = false ∧ c ≠ Byte.hash := fun c hc =>
      isDelimiter_of_isDigit (isDigit_digitBytes (hd ▸ hc))
    by_cases h0 : 0 ≤ n
    · rw [if_pos h0]
      exact ⟨b, bs, rfl, (hall b (by simp)).2, fun c hc => (hall c hc).1⟩
    · rw [if_neg h0]
      refine ⟨0x2D, b :: bs, rfl, by decide, fun c hc => ?_⟩
      rcases List.mem_cons.mp hc with rfl | hc
      · rfl
      · exact (hall c hc).1

lemma looksNumeric_toString (n : Int) : looksNumeric (bytes (toString n)) = true := by
  rw [bytes_toString]
  cases hd : digitBytes n.natAbs with
  | nil => exact absurd hd digitBytes_ne_nil
  | cons b bs =>
    have hb : isDigit b = true := isDigit_digitBytes (hd ▸ List.mem_cons_self)
    split
    · simp [looksNumeric, hb]
    · simp [looksNumeric, hb, isSign]

lemma splitSign_digitBytes (n : Nat) : splitSign (digitBytes n) = (false, digitBytes n) := by
  have hsign : ∀ n < 58, 48 ≤ n → isSign (UInt8.ofNat n) = false := by decide
  cases hd : digitBytes n with
  | nil => rfl
  | cons b bs =>
    have hb : isDigit b = true := isDigit_digitBytes (hd ▸ List.mem_cons_self)
    obtain ⟨h₁, h₂⟩ := toNat_of_isDigit hb
    have := hsign b.toNat h₂ h₁
    rw [UInt8.ofNat_toNat] at this
    simp [splitSign, this]

/-- An integer of sixty-four bits is the value of its text. -/
lemma integer?_toString (n : Int64) : integer? (bytes (toString n.toInt)) = some n := by
  have hfits : fits n.toInt = true := fits_toInt n
  have hn : Int64.ofInt n.toInt = n := Int64.ofInt_toInt n
  rw [bytes_toString]
  by_cases h0 : 0 ≤ n.toInt
  · have hv : (n.toInt.natAbs : Int) = n.toInt := by omega
    rw [if_pos h0, List.nil_append]
    simp only [integer?, splitSign_digitBytes, digits?_digitBytes, hv, hfits, hn, if_true,
      Bool.false_eq_true, if_false]
  · have hv : -(n.toInt.natAbs : Int) = n.toInt := by omega
    have hs : splitSign ([0x2D] ++ digitBytes n.toInt.natAbs) =
        (true, digitBytes n.toInt.natAbs) := by
      simp [splitSign, isSign]
    rw [if_neg h0]
    simp only [integer?, hs, digits?_digitBytes, if_true, hv, hfits, hn]

end Number

/-- The text of an integer is an atom with that value. -/
lemma Lexer.atomValue_toString (n : Int64) :
    atomValue (Text.bytes (toString n.toInt)) = .ok (.int n) := by
  rw [atomValue, Text.decode?_bytes]
  simp only [Number.looksNumeric_toString, Number.integer?_toString, if_true]

end ArenaScheme
