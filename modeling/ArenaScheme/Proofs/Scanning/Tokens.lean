/-
# From one token to the next

The lexer never looks further than one byte beyond a token, and there it only asks whether the token
goes on.  So a token can be cut off the front of a text: the same token is found in every text that
begins with the same bytes and goes on with a delimiter, ends, or goes on with the same byte, and
from there on the scan is that of the bytes that are left.
-/
import ArenaScheme.Proofs.Scanning.Derivations

namespace ArenaScheme

/-- Tokens in front of a scan. -/
def Scan.prepend (front : List Lexeme) (scan : Scan) : Scan := ⟨front ++ scan.lexemes, scan.ending⟩

namespace Scan

@[simp] lemma lexemes_prepend (front : List Lexeme) (scan : Scan) :
    (scan.prepend front).lexemes = front ++ scan.lexemes := rfl

@[simp] lemma ending_prepend (front : List Lexeme) (scan : Scan) :
    (scan.prepend front).ending = scan.ending := rfl

@[simp] lemma prepend_nil (scan : Scan) : scan.prepend [] = scan := rfl

@[simp] lemma prepend_prepend (front later : List Lexeme) (scan : Scan) :
    (scan.prepend later).prepend front = scan.prepend (front ++ later) := by
  simp [prepend]

end Scan

namespace Lexer

open Byte

variable {mode next : Mode} {pos begin : Nat} {byte : UInt8} {bs later : List UInt8} {l : Lexeme}
  {completed front rest : List Lexeme} {ending : Ending}

/-! ## One byte -/

/-- The tokens that have been found do not change the rest of the scan. -/
lemma scanFrom_found (mode : Mode) (pos : Nat) (found : List Lexeme) (bs : List UInt8) :
    scanFrom mode pos found bs = (scanFrom mode pos [] bs).prepend found.reverse := by
  induction bs generalizing mode pos found with
  | nil => simp [scanFrom, Scan.prepend]
  | cons byte bs ih =>
    rw [scanFrom, scanFrom]
    cases step pos byte mode with
    | stop ending => simp [Scan.prepend]
    | go completed next =>
      dsimp only
      rw [ih, ih next (pos + 1) (completed.reverse ++ [])]
      simp

lemma scanFrom_go (hs : step pos byte mode = .go completed next) (bs : List UInt8) :
    scanFrom mode pos [] (byte :: bs) = (scanFrom next (pos + 1) [] bs).prepend completed := by
  rw [scanFrom_cons hs, scanFrom_found]
  simp

lemma scanFrom_stop (hs : step pos byte mode = .stop ending) (bs : List UInt8) :
    scanFrom mode pos [] (byte :: bs) = ⟨[], ending⟩ := by
  simp [scanFrom, hs]

lemma scanFrom_nil (mode : Mode) (pos : Nat) :
    scanFrom mode pos [] [] = ⟨(finish pos mode).1, (finish pos mode).2⟩ := by
  simp [scanFrom]

/-- In this mode a token is open that a delimiter or the end of the text completes. -/
structure Closes (mode : Mode) (pos : Nat) (l : Lexeme) : Prop where
  stop : l.stop = pos
  finish : finish pos mode = ([l], .endOfText pos)
  follow : ∀ byte, isDelimiter byte = true → step pos byte mode = follow l pos byte

/-- What a byte can do: it completes no token, or one that it belongs to, or the one in front of
it. -/
inductive Effect (mode : Mode) (pos : Nat) (byte : UInt8) : Move → Prop
  | fault (cause : ReadFault) (start stop : Nat) :
      Effect mode pos byte (.stop (.fault cause start stop))
  | onward (next : Mode) : Effect mode pos byte (.go [] next)
  | last {l : Lexeme} (hl : l.stop = pos + 1) : Effect mode pos byte (.go [l] .blank)
  | after {l : Lexeme} (hl : Closes mode pos l) : Effect mode pos byte (follow l pos byte)

lemma effect_start (mode : Mode) (pos : Nat) (byte : UInt8) :
    Effect mode pos byte (.go (start pos byte).1 (start pos byte).2) := by
  unfold start single
  split_ifs
  all_goals first | exact .onward _ | exact .last rfl

lemma closes_literal {value : Except ReadFault Literal} {literal : Literal}
    (hv : value = .ok literal) (hf : finish pos mode = finishLiteral value begin pos)
    (hs : ∀ byte, isDelimiter byte = true → step pos byte mode =
      followLiteral value begin pos byte) :
    Closes mode pos ⟨.literal literal, begin, pos⟩ := by
  subst hv
  exact ⟨rfl, hf, hs⟩

/-- The end of a literal without a closing mark. -/
lemma effect_followLiteral {value : Except ReadFault Literal}
    (hf : finish pos mode = finishLiteral value begin pos)
    (hs : ∀ byte, isDelimiter byte = true → step pos byte mode = followLiteral value begin pos byte)
    (byte : UInt8) : Effect mode pos byte (followLiteral value begin pos byte) := by
  cases hv : value with
  | error cause => exact .fault ..
  | ok literal => exact .after (closes_literal hv hf hs)

lemma effect_step (mode : Mode) (pos : Nat) (byte : UInt8) :
    Effect mode pos byte (step pos byte mode) := by
  cases mode with
  | blank => exact effect_start .blank pos byte
  | comment => exact .onward _
  | comma begin =>
    rw [step]
    split_ifs
    · exact .last rfl
    · refine .after ⟨rfl, rfl, fun b hb => ?_⟩
      have hne : b ≠ atSign := by
        rintro rfl
        exact absurd hb (by decide)
      rw [step, if_neg hne]
  | hash begin =>
    rw [step]
    split_ifs
    · exact .onward _
    · exact .onward _
    · exact .onward _
    · exact .fault ..
  | truth begin value =>
    rw [step]
    split_ifs
    · exact effect_followLiteral rfl (fun b hb => by rw [step, if_pos hb]) byte
    · exact .fault ..
  | character begin => exact .onward _
  | characterName begin seen =>
    rw [step]
    split_ifs
    · exact effect_followLiteral rfl (fun b hb => by rw [step, if_pos hb]) byte
    · exact .onward _
  | atom begin seen =>
    rw [step]
    split_ifs
    · exact effect_followLiteral rfl (fun b hb => by rw [step, if_pos hb]) byte
    · exact .onward _
  | string begin seen =>
    rw [step]
    split_ifs
    · cases stringValue seen.reverse with
      | ok literal => exact .last rfl
      | error cause => exact .fault ..
    · exact .onward _
    · exact .onward _
  | escape begin seen =>
    rw [step]
    cases escapeValue? byte with
    | some value => exact .onward _
    | none => exact .fault ..

/-- The end of the text completes the token that is open, or none. -/
lemma finish_cases (mode : Mode) (pos : Nat) :
    (finish pos mode).1 = [] ∨ ∃ l, Closes mode pos l := by
  have hliteral : ∀ {begin : Nat} {value : Except ReadFault Literal},
      finish pos mode = finishLiteral value begin pos →
      (∀ b, isDelimiter b = true → step pos b mode = followLiteral value begin pos b) →
      (finish pos mode).1 = [] ∨ ∃ l, Closes mode pos l := by
    intro begin value hf hs
    cases hv : value with
    | error cause =>
      rw [hf, hv]
      exact .inl rfl
    | ok literal => exact .inr ⟨_, closes_literal hv hf hs⟩
  cases mode with
  | comma begin =>
    refine .inr ⟨_, rfl, rfl, fun b hb => ?_⟩
    have hne : b ≠ atSign := by
      rintro rfl
      exact absurd hb (by decide)
    rw [step, if_neg hne]
  | truth => exact hliteral rfl fun b hb => by rw [step, if_pos hb]
  | characterName => exact hliteral rfl fun b hb => by rw [step, if_pos hb]
  | atom => exact hliteral rfl fun b hb => by rw [step, if_pos hb]
  | _ => exact .inl rfl

/-! ## One token -/

lemma scanFrom_follow (hs : step pos byte mode = follow l pos byte) (bs : List UInt8) :
    scanFrom mode pos [] (byte :: bs) = (scanFrom .blank pos [] (byte :: bs)).prepend [l] := by
  have hstart : step pos byte .blank = .go (start pos byte).1 (start pos byte).2 := rfl
  rw [scanFrom_go hs, scanFrom_go hstart, Scan.prepend_prepend]
  rfl

lemma Closes.scanFrom (hc : Closes mode pos l) (hd : Delimited later) :
    scanFrom mode pos [] later = (scanFrom .blank pos [] later).prepend [l] := by
  cases later with
  | nil =>
    rw [scanFrom_nil, scanFrom_nil, hc.finish]
    rfl
  | cons byte later => exact scanFrom_follow (hc.follow byte hd) later

/-- Some bytes have no token, or they begin with a token that is found in other texts as well. -/
lemma scanFrom_first (mode : Mode) (pos : Nat) (bs : List UInt8) :
    (scanFrom mode pos [] bs).lexemes = [] ∨
      ∃ l n, n ≤ bs.length ∧ l.stop = pos + n ∧
        ∀ later, Delimited later ∨ later.head? = (bs.drop n).head? →
          scanFrom mode pos [] (bs.take n ++ later) =
            (scanFrom .blank l.stop [] later).prepend [l] := by
  -- the induction follows the bytes of the token, in whatever mode they leave the lexer
  induction bs generalizing mode pos with
  | nil =>
    rcases finish_cases mode pos with hf | ⟨l, hl⟩
    · left
      rw [scanFrom_nil, hf]
    · refine .inr ⟨l, 0, Nat.le_refl _, hl.stop, fun later hd => ?_⟩
      have hd' : Delimited later := by
        rcases hd with hd | hd
        · exact hd
        · rw [List.head?_eq_none_iff.mp hd]
          trivial
      rw [hl.stop]
      exact hl.scanFrom hd'
  | cons byte bs ih =>
    have he := effect_step mode pos byte
    cases hs : step pos byte mode with
    | stop ending =>
      left
      rw [scanFrom_stop hs]
    | go completed next =>
      rw [hs] at he
      generalize hm : Move.go completed next = move at he
      cases he with
      | fault => cases hm
      | onward next =>
        cases hm
        rcases ih next (pos + 1) with hn | ⟨l, n, hn, hstop, hl⟩
        · left
          rw [scanFrom_go hs, Scan.prepend_nil, hn]
        · refine .inr ⟨l, n + 1, Nat.succ_le_succ hn, by omega, fun later hd => ?_⟩
          rw [List.take_succ_cons, List.cons_append, scanFrom_go hs, Scan.prepend_nil]
          exact hl later hd
      | @last l hl =>
        cases hm
        refine .inr ⟨l, 1, by simp, hl, fun later _ => ?_⟩
        rw [hl]
        exact scanFrom_go hs later
      | @after l hl =>
        refine .inr ⟨l, 0, Nat.zero_le _, hl.stop, fun later hd => ?_⟩
        rw [hl.stop]
        rcases hd with hd | hd
        · exact hl.scanFrom hd
        · obtain ⟨later, rfl⟩ : ∃ bs, later = byte :: bs := List.head?_eq_some_iff.mp hd
          exact scanFrom_follow (hs.trans hm) later

/-- A token is made of at least one byte. -/
lemma pos_of_scanFrom_first {n : Nat} (hl : l.stop = pos + n)
    (hf : ∀ later, Delimited later ∨ later.head? = (bs.drop n).head? →
      scanFrom .blank pos [] (bs.take n ++ later) = (scanFrom .blank l.stop [] later).prepend [l]) :
    0 < n := by
  by_contra hn
  obtain rfl : n = 0 := by omega
  have h := hf bs (.inr rfl)
  rw [List.take_zero, List.nil_append, hl, Nat.add_zero] at h
  have hlen := congrArg (fun s : Scan => s.lexemes.length) h
  simp at hlen

/-! ## Several tokens -/

/-- The first tokens of some bytes are found in every text that begins with the bytes of the tokens
and goes on with a delimiter; and the others are the tokens of what is left. -/
lemma scanFrom_split (hs : scanFrom .blank pos [] bs = ⟨front ++ rest, ending⟩) :
    ∃ n ≤ bs.length, front.length ≤ n ∧ stopAfter pos front = pos + n ∧
      scanFrom .blank (pos + n) [] (bs.drop n) = ⟨rest, ending⟩ ∧
      ∀ later, Delimited later → scanFrom .blank pos [] (bs.take n ++ later) =
        (scanFrom .blank (pos + n) [] later).prepend front := by
  induction front generalizing pos bs with
  | nil => exact ⟨0, Nat.zero_le _, Nat.le_refl _, rfl, hs, fun _ _ => rfl⟩
  | cons l front ih =>
    rcases scanFrom_first .blank pos bs with hnone | ⟨x, n, hn, hx, hfirst⟩
    · rw [hs] at hnone
      cases hnone
    have hpos := pos_of_scanFrom_first hx hfirst
    have hcut := hfirst (bs.drop n) (.inr rfl)
    rw [List.take_append_drop, hs, Scan.prepend] at hcut
    obtain ⟨hlexemes, hending⟩ := Scan.mk.inj hcut
    rw [List.cons_append, List.singleton_append] at hlexemes
    obtain ⟨rfl, hrest⟩ := List.cons.inj hlexemes
    have hs' : scanFrom .blank (pos + n) [] (bs.drop n) = ⟨front ++ rest, ending⟩ := by
      rw [hrest, hending, ← hx]
    obtain ⟨m, hm, hlen, hstop, hleft, hother⟩ := ih hs'
    rw [List.length_drop] at hm
    refine ⟨n + m, by omega, by rw [List.length_cons]; omega, ?_, ?_, fun later hd => ?_⟩
    · rw [stopAfter_cons, hx, hstop, Nat.add_assoc]
    · rw [← Nat.add_assoc, ← List.drop_drop]
      exact hleft
    · -- the byte after the first token is the same as before, unless the tokens end there
      have hnext : Delimited ((bs.drop n).take m ++ later) ∨
          ((bs.drop n).take m ++ later).head? = (bs.drop n).head? := by
        cases m with
        | zero => exact .inl hd
        | succ m =>
          cases hb : bs.drop n with
          | nil =>
            have := congrArg List.length hb
            rw [List.length_drop, List.length_nil] at this
            omega
          | cons byte bytes => exact .inr rfl
      rw [List.take_add, List.append_assoc, hfirst _ hnext, hx, hother later hd,
        Scan.prepend_prepend, List.singleton_append, Nat.add_assoc]

end Lexer

end ArenaScheme
