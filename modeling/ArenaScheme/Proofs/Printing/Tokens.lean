/-
# The tokens of a printed form

The lexer makes one token of what is printed for a literal, with the same literal.  A token without
a closing mark is complete when a delimiter comes after it, or the end of the text; so what is shown
of such a token holds in front of these, and in a printed form no other byte comes after one.

That a symbol is read back as itself is a matter of its name, which the printer does not quote.
-/
import ArenaScheme.Proofs.Printing.Numerals
import ArenaScheme.Proofs.Printing.Texts

namespace ArenaScheme

open Byte Text

/-- The name of a symbol that is read back from its printed form. -/
structure SymbolName (name : String) : Prop where
  nonempty : name ≠ ""
  delimiter : ∀ b ∈ bytes name, isDelimiter b = false
  hash : (bytes name).head? ≠ some Byte.hash
  numeric : Number.looksNumeric (bytes name) = false
  dot : name ≠ "."

/-- Literals that are read back from their printed forms.  Reals lose digits when they are
printed. -/
def Literal.Readable : Literal → Prop
  | bool _ | int _ | str _ => True
  | char byte => byte < 128
  | symbol name => SymbolName name
  | real _ => False

namespace Lexer

variable {pos begin : Nat} {found completed : List Lexeme} {mode next : Mode} {byte : UInt8}
  {bs rest seen : List UInt8} {l : Literal}

/-- Where a token that has no closing mark ends. -/
def Delimited : List UInt8 → Prop
  | [] => True
  | byte :: _ => isDelimiter byte = true

lemma scanFrom_cons (hs : step pos byte mode = .go completed next) :
    scanFrom mode pos found (byte :: rest) = scanFrom next (pos + 1)
      (completed.reverse ++ found) rest := by
  simp only [scanFrom, hs]

/-! ## Tokens without a closing mark -/

/-- A mode that makes a literal of what has been seen at a delimiter and at the end of the text. -/
lemma scanFrom_delimited
    (hs : ∀ b, isDelimiter b = true → step pos b mode = followLiteral (.ok l) begin pos b)
    (hf : finish pos mode = finishLiteral (.ok l) begin pos) (hd : Delimited rest) :
    scanFrom mode pos found rest = scanFrom .blank pos
      (⟨.literal l, begin, pos⟩ :: found) rest := by
  cases rest with
  | nil =>
    simp only [scanFrom, hf, finishLiteral]
    simp [finish]
  | cons b rest =>
    simp only [scanFrom, hs b hd, followLiteral, follow]
    simp [step]

lemma scanFrom_atom (hb : ∀ b ∈ bs, isDelimiter b = false) :
    scanFrom (.atom begin seen) pos found (bs ++ rest) =
      scanFrom (.atom begin (bs.reverse ++ seen)) (pos + bs.length) found rest := by
  induction bs generalizing pos seen with
  | nil => rfl
  | cons b bs ih =>
    have hs : step pos b (.atom begin seen) = .go [] (.atom begin (b :: seen)) := by
      simp [step, hb b (by simp)]
    rw [List.cons_append, scanFrom_cons hs, List.reverse_nil, List.nil_append,
      ih fun c hc => hb c (by simp [hc])]
    simp [Nat.add_assoc, Nat.add_comm 1]

lemma scanFrom_characterName (hb : ∀ b ∈ bs, isDelimiter b = false) :
    scanFrom (.characterName begin seen) pos found (bs ++ rest) =
      scanFrom (.characterName begin (bs.reverse ++ seen)) (pos + bs.length) found rest := by
  induction bs generalizing pos seen with
  | nil => rfl
  | cons b bs ih =>
    have hs : step pos b (.characterName begin seen) =
        .go [] (.characterName begin (b :: seen)) := by
      simp [step, hb b (by simp)]
    rw [List.cons_append, scanFrom_cons hs, List.reverse_nil, List.nil_append,
      ih fun c hc => hb c (by simp [hc])]
    simp [Nat.add_assoc, Nat.add_comm 1]

/-- A byte that is no delimiter and no hash sign begins an atom. -/
lemma start_atom (hb : isDelimiter byte = false) (hh : byte ≠ Byte.hash) :
    start pos byte = ([], .atom pos [byte]) := by
  have hne : ∀ c, isDelimiter c = true → byte ≠ c := by
    rintro c hc rfl
    rw [hb] at hc
    cases hc
  have hblank : isBlank byte = false := by
    cases hbl : isBlank byte
    · rfl
    · simp [isDelimiter, hbl] at hb
  simp [start, hblank, hh, hne semicolon rfl, hne opening rfl, hne closing rfl, hne singleQuote rfl,
    hne backquote rfl, hne Byte.comma rfl, hne doubleQuote rfl]

/-- The printed form of a literal that is an atom is one token. -/
lemma scanFrom_literal_atom (hb : ∀ b ∈ byte :: bs, isDelimiter b = false) (hh : byte ≠ Byte.hash)
    (hv : atomValue (byte :: bs) = .ok l) (hd : Delimited rest) :
    scanFrom .blank pos found (byte :: bs ++ rest) =
      scanFrom .blank (pos + (byte :: bs).length)
        (⟨.literal l, pos, pos + (byte :: bs).length⟩ :: found) rest := by
  have hs : step pos byte .blank = .go [] (.atom pos [byte]) := by
    simp [step, start_atom (hb byte (by simp)) hh]
  have hlen : pos + 1 + bs.length = pos + (byte :: bs).length := by
    rw [List.length_cons]
    omega
  rw [List.cons_append, scanFrom_cons hs, List.reverse_nil, List.nil_append,
    scanFrom_atom fun b hm => hb b (by simp [hm]), hlen]
  have hseen : (bs.reverse ++ [byte]).reverse = byte :: bs := by simp
  refine scanFrom_delimited (fun b hb => ?_) ?_ hd
  · simp only [step, hb, if_true, hseen, hv]
  · simp only [finish, hseen, hv]

/-- The printed form of a character is one token. -/
lemma scanFrom_literal_char (hb : ∀ b ∈ bs, isDelimiter b = false)
    (hv : characterValue (byte :: bs) = .ok l) (hd : Delimited rest) :
    scanFrom .blank pos found (Byte.hash :: backslash :: byte :: bs ++ rest) =
      scanFrom .blank (pos + (bs.length + 3))
        (⟨.literal l, pos, pos + (bs.length + 3)⟩ :: found) rest := by
  have h₁ : step pos Byte.hash .blank = .go [] (.hash pos) := rfl
  have h₂ : step (pos + 1) backslash (.hash pos) = .go [] (.character pos) := by simp [step]
  have h₃ : step (pos + 1 + 1) byte (.character pos) = .go [] (.characterName pos [byte]) := rfl
  have hlen : pos + 1 + 1 + 1 + bs.length = pos + (bs.length + 3) := by omega
  simp only [List.cons_append]
  rw [scanFrom_cons h₁, scanFrom_cons h₂, scanFrom_cons h₃]
  simp only [List.reverse_nil, List.nil_append]
  rw [scanFrom_characterName hb, hlen]
  have hseen : (bs.reverse ++ [byte]).reverse = byte :: bs := by simp
  refine scanFrom_delimited (fun b hb => ?_) ?_ hd
  · simp only [step, hb, if_true, hseen, hv]
  · simp only [finish, hseen, hv]

/-- The printed form of a truth value is one token. -/
lemma scanFrom_literal_bool (b : Bool) (hd : Delimited rest) :
    scanFrom .blank pos found (Byte.hash :: (if b then letterT else letterF) :: rest) =
      scanFrom .blank (pos + 2) (⟨.literal (.bool b), pos, pos + 2⟩ :: found) rest := by
  have h₁ : step pos Byte.hash .blank = .go [] (.hash pos) := rfl
  have h₂ : step (pos + 1) (if b then letterT else letterF) (.hash pos) =
      .go [] (.truth pos b) := by
    cases b <;> rfl
  rw [scanFrom_cons h₁, scanFrom_cons h₂]
  simp only [List.reverse_nil, List.nil_append]
  refine scanFrom_delimited (fun c hc => ?_) rfl hd
  simp only [step, hc, if_true]

/-! ## Strings -/

/-- Bytes that stand for themselves in a string. -/
lemma scanFrom_plain (hb : ∀ b ∈ bs, b ≠ doubleQuote ∧ b ≠ backslash) :
    scanFrom (.string begin seen) pos found (bs ++ rest) =
      scanFrom (.string begin (bs.reverse ++ seen)) (pos + bs.length) found rest := by
  induction bs generalizing pos seen with
  | nil => rfl
  | cons b bs ih =>
    have hs : step pos b (.string begin seen) = .go [] (.string begin (b :: seen)) := by
      simp [step, hb b (by simp)]
    rw [List.cons_append, scanFrom_cons hs, List.reverse_nil, List.nil_append,
      ih fun c hc => hb c (by simp [hc])]
    simp [Nat.add_assoc, Nat.add_comm 1]

/-- An escape sequence stands for one byte. -/
lemma scanFrom_escape {value : UInt8} (hv : escapeValue? byte = some value) :
    scanFrom (.string begin seen) pos found (backslash :: byte :: rest) =
      scanFrom (.string begin (value :: seen)) (pos + 2) found rest := by
  have h₁ : step pos backslash (.string begin seen) = .go [] (.escape begin seen) := rfl
  have h₂ : step (pos + 1) byte (.escape begin seen) = .go [] (.string begin (value :: seen)) := by
    simp only [step, hv]
  rw [scanFrom_cons h₁, scanFrom_cons h₂]
  rfl

/-- A character in a string is read back as its bytes. -/
lemma scanFrom_escaped (c : Char) :
    scanFrom (.string begin seen) pos found (encode (Printer.escaped c) ++ rest) =
      scanFrom (.string begin ((String.utf8EncodeChar c).reverse ++ seen))
        (pos + (encode (Printer.escaped c)).length) found rest := by
  unfold Printer.escaped
  split
  · exact scanFrom_escape rfl
  · exact scanFrom_escape rfl
  · exact scanFrom_escape rfl
  · exact scanFrom_escape rfl
  · exact scanFrom_escape rfl
  · next h₁ h₂ _ _ _ =>
    rw [encode_cons, encode_nil, List.append_nil]
    refine scanFrom_plain fun b hb => ?_
    rcases Nat.lt_or_ge c.toNat 128 with hc | hc
    · rw [encodeChar_ascii hc, List.mem_singleton] at hb
      subst hb
      exact ⟨ofNat_ne hc (by decide) h₁, ofNat_ne hc (by decide) h₂⟩
    · have hle := le_of_mem_encodeChar hc hb
      constructor <;> rintro rfl <;> exact absurd hle (by decide)

lemma scanFrom_flatMap_escaped (cs : List Char) :
    scanFrom (.string begin seen) pos found (encode (cs.flatMap Printer.escaped) ++ rest) =
      scanFrom (.string begin ((encode cs).reverse ++ seen))
        (pos + (encode (cs.flatMap Printer.escaped)).length) found rest := by
  induction cs generalizing pos seen with
  | nil => rfl
  | cons c cs ih =>
    rw [List.flatMap_cons, encode_append, List.append_assoc, scanFrom_escaped, ih]
    simp [Nat.add_assoc]

/-- The printed form of a string is one token, whatever comes after it. -/
lemma scanFrom_literal_str (s : String) :
    scanFrom .blank pos found (bytes (Printer.stringText s) ++ rest) =
      scanFrom .blank (pos + (bytes (Printer.stringText s)).length)
        (⟨.literal (.str s), pos, pos + (bytes (Printer.stringText s)).length⟩ :: found) rest := by
  have hq : bytes "\"" = [doubleQuote] := by decide +kernel
  have htext : bytes (Printer.stringText s) =
      doubleQuote :: (encode (s.toList.flatMap Printer.escaped) ++ [doubleQuote]) := by
    rw [Printer.stringText, bytes_append, bytes_append, hq, bytes_ofList]
    rfl
  have h₁ : step pos doubleQuote .blank = .go [] (.string pos []) := rfl
  have hv : stringValue (bytes s) = .ok (.str s) := by
    rw [stringValue, decode?_bytes]
  set body := encode (s.toList.flatMap Printer.escaped) with hbody
  have h₂ : step (pos + 1 + body.length) doubleQuote
    (.string pos ((encode s.toList).reverse ++ [])) =
      .go [⟨.literal (.str s), pos, pos + 1 + body.length + 1⟩] .blank := by
    rw [← bytes_eq_encode, List.append_nil]
    simp only [step, if_true, List.reverse_reverse, hv]
  have hlen : pos + (bytes (Printer.stringText s)).length = pos + 1 + body.length + 1 := by
    simp [htext]
    omega
  rw [hlen, htext, List.cons_append, scanFrom_cons h₁, List.append_assoc, hbody,
    scanFrom_flatMap_escaped, ← hbody, List.cons_append, scanFrom_cons h₂]
  rfl

/-! ## Literals -/

/-- The text of a character is its byte or a name for it. -/
lemma bytes_charText (hb : byte < 128) : ∃ b bs, bytes (Printer.charText byte) =
      Byte.hash :: backslash :: b :: bs ∧ (∀ c ∈ bs, isDelimiter c = false) ∧
      characterValue (b :: bs) = .ok (.char byte) := by
  have hhash : bytes "#\\" = [Byte.hash, backslash] := by decide +kernel
  have hspace : bytes "space" = [0x73, 0x70, 0x61, 0x63, 0x65] := by decide +kernel
  have hnewline : bytes "newline" = [0x6E, 0x65, 0x77, 0x6C, 0x69, 0x6E, 0x65] := by decide +kernel
  have htab : bytes "tab" = [0x74, 0x61, 0x62] := by decide +kernel
  rw [Printer.charText, bytes_append, hhash]
  split
  · next h =>
    subst h
    exact ⟨_, _, congrArg _ hspace, by decide +kernel, by decide +kernel⟩
  split
  · next h =>
    subst h
    exact ⟨_, _, congrArg _ hnewline, by decide +kernel, by decide +kernel⟩
  split
  · next h =>
    subst h
    exact ⟨_, _, congrArg _ htab, by decide +kernel, by decide +kernel⟩
  · have hc : (Char.ofUInt8 byte).toNat = byte.toNat := rfl
    have hlt : byte.toNat < 128 := hb
    refine ⟨byte, [], ?_, by simp, rfl⟩
    rw [bytes_eq_encode]
    simp [encodeChar_ascii, hc, hlt]

/-- The name of a symbol begins an atom and goes on as one, and its value is the symbol. -/
lemma atomValue_symbol {name : String} (hn : SymbolName name) :
    ∃ b bs, bytes name = b :: bs ∧ b ≠ Byte.hash ∧ atomValue (b :: bs) = .ok (.symbol name) := by
  cases hb : bytes name with
  | nil =>
    refine absurd ?_ hn.nonempty
    have hsize := length_bytes name
    rw [hb] at hsize
    exact String.utf8ByteSize_eq_zero_iff.mp hsize.symm
  | cons b bs =>
    refine ⟨b, bs, rfl, fun he => hn.hash (by simp [hb, he]), ?_⟩
    rw [← hb, atomValue, decode?_bytes]
    simp only [hn.numeric, Bool.false_eq_true, if_false]

/-- The printed form of a literal is one token. -/
lemma scanFrom_literal (hl : l.Readable) (hd : Delimited rest) :
    scanFrom .blank pos found (bytes l.text ++ rest) =
      scanFrom .blank (pos + (bytes l.text).length)
        (⟨.literal l, pos, pos + (bytes l.text).length⟩ :: found) rest := by
  cases l with
  | bool b =>
    have ht : bytes (Literal.text (.bool b)) = [Byte.hash, if b then letterT else letterF] := by
      cases b <;> decide +kernel
    rw [ht]
    exact scanFrom_literal_bool b hd
  | int n =>
    obtain ⟨b, bs, hb, hh, hall⟩ := Number.bytes_toString_eq_cons n.toInt
    have hv := atomValue_toString n
    rw [Literal.text, hb] at *
    exact scanFrom_literal_atom hall hh hv hd
  | real x => exact hl.elim
  | char byte =>
    obtain ⟨b, bs, hb, hall, hv⟩ := bytes_charText hl
    rw [Literal.text, hb]
    exact scanFrom_literal_char hall hv hd
  | str s => exact scanFrom_literal_str s
  | symbol name =>
    obtain ⟨b, bs, hb, hh, hv⟩ := atomValue_symbol hl
    have hall := hl.delimiter
    rw [hb] at hall
    rw [Literal.text, hb]
    exact scanFrom_literal_atom hall hh hv hd

end Lexer

end ArenaScheme
