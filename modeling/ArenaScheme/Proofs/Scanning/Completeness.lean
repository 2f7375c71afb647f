/-
# The count of parentheses and the reader

The count goes through the bytes of a text on its own, without the lexer.  Between tokens, in
comments, in strings and in character literals it is where the lexer is.  Among the bytes of a
symbol it is not: a hash sign and a backslash there are nothing to the lexer, but the count takes
them for the beginning of a character.  That matters only if they are the last bytes of the symbol,
since otherwise the byte that the count skips is one of the symbol as well.

So for texts without such symbols the count tells an interactive session what the reader would: it
is zero if there are only complete data, and positive if the end of a list or of a string is
missing.
-/
import ArenaScheme.Proofs.Scanning.Parentheses
import ArenaScheme.Text.Completeness

namespace ArenaScheme

open Byte Text

/-! ## Numerals -/

namespace Number

/-- A byte that is in no numeral. -/
structure Foreign (b : UInt8) : Prop where
  digit : isDigit b = false
  sign : isSign b = false
  point : isPoint b = false
  mark : isExponentMark b = false

variable {b : UInt8} {bs : List UInt8}

lemma mem_splitSign (hb : isSign b = false) (hm : b ∈ bs) : b ∈ (splitSign bs).2 := by
  cases bs with
  | nil => exact hm
  | cons a rest =>
    rw [splitSign]
    split
    · next ha =>
      rcases List.mem_cons.mp hm with rfl | hm
      · simp [hb] at ha
      · exact hm
    · exact hm

lemma not_mem_of_digits? {n : Nat} (hb : isDigit b = false) (hn : digits? bs = some n) :
    b ∉ bs := by
  intro hm
  unfold digits? at hn
  split at hn
  · next hall =>
    simp only [Bool.and_eq_true] at hall
    have := List.all_eq_true.mp hall.2 b hm
    simp [hb] at this
  · cases hn

lemma not_mem_takeWhile (hb : isDigit b = false) : b ∉ bs.takeWhile isDigit := by
  intro hm
  have := List.all_eq_true.mp List.all_takeWhile b hm
  simp [hb] at this

lemma mem_dropWhile (hb : isDigit b = false) (hm : b ∈ bs) : b ∈ bs.dropWhile isDigit := by
  rw [← List.takeWhile_append_dropWhile (p := isDigit) (l := bs), List.mem_append] at hm
  exact hm.resolve_left (not_mem_takeWhile hb)

lemma not_mem_of_integer? {n : Int64} (hb : Foreign b) (hn : integer? bs = some n) : b ∉ bs := by
  intro hm
  have hbody := mem_splitSign hb.sign hm
  unfold integer? at hn
  dsimp only at hn
  split at hn
  · next hd => exact not_mem_of_digits? hb.digit hd hbody
  · cases hn

lemma not_mem_of_exponent? {e : Int} (hb : Foreign b) (he : exponent? bs = some e) : b ∉ bs := by
  cases bs with
  | nil => simp
  | cons a rest =>
    rw [exponent?] at he
    split at he
    · next ha =>
      intro hm
      rcases List.mem_cons.mp hm with rfl | hm
      · rw [hb.mark] at ha
        cases ha
      · cases hd : digits? (splitSign rest).2 with
        | none =>
          dsimp only at he
          rw [hd] at he
          cases he
        | some n => exact not_mem_of_digits? hb.digit hd (mem_splitSign hb.sign hm)
    · cases he

lemma not_mem_of_decimal? {x : Decimal} (hb : Foreign b) (hx : decimal? bs = some x) : b ∉ bs := by
  intro hm
  have hrest := mem_dropWhile hb.digit (mem_splitSign hb.sign hm)
  unfold decimal? at hx
  dsimp only at hx
  generalize (splitSign bs).2.dropWhile isDigit = rest at hx hrest
  cases rest with
  | nil => cases hrest
  | cons a rest =>
    dsimp only at hx
    split at hx
    · next ha =>
      have hlater : b ∈ rest.dropWhile isDigit := by
        rcases List.mem_cons.mp hrest with rfl | hm
        · rw [hb.point] at ha
          cases ha
        · exact mem_dropWhile hb.digit hm
      dsimp only at hx
      split at hx
      · cases hx
      · obtain ⟨e, he, -⟩ := Option.map_eq_some_iff.mp hx
        exact not_mem_of_exponent? hb he hlater
    · dsimp only at hx
      split at hx
      · cases hx
      · obtain ⟨e, he, -⟩ := Option.map_eq_some_iff.mp hx
        exact not_mem_of_exponent? hb he hrest

end Number

/-! ## Symbols that mislead the count -/

/-- The name ends like the beginning of a character literal. -/
def Misleading (name : String) : Prop := [Byte.hash, backslash] <:+ bytes name

/-- No symbol among the tokens misleads the count. -/
def Plain (lexemes : List Lexeme) : Prop :=
  ∀ l ∈ lexemes, ∀ name, l.token = .literal (.symbol name) → ¬ Misleading name

lemma Plain.left {ls ms : List Lexeme} (hp : Plain (ls ++ ms)) : Plain ls :=
  fun l hl => hp l (List.mem_append_left _ hl)

lemma Plain.right {ls ms : List Lexeme} (hp : Plain (ls ++ ms)) : Plain ms :=
  fun l hl => hp l (List.mem_append_right _ hl)

namespace Lexer

variable {pos begin : Nat} {byte : UInt8} {seen bs : List UInt8} {l : Literal}

lemma bytes_of_decode? {name : String} (hd : decode? bs = some name) : bytes name = bs := by
  unfold decode? String.fromUTF8? at hd
  split at hd
  · obtain rfl := Option.some.inj hd
    rw [bytes_eq]
    exact List.toList_data_toByteArray
  · cases hd

/-- An atom that ends in a hash sign and a backslash is a symbol that does. -/
lemma misleading_of_atomValue (hv : atomValue (backslash :: Byte.hash :: seen).reverse = .ok l) :
    ∃ name, l = .symbol name ∧ Misleading name := by
  have hforeign : Number.Foreign backslash := ⟨by decide, by decide, by decide, by decide⟩
  have hmem : backslash ∈ (backslash :: Byte.hash :: seen).reverse := by simp
  unfold atomValue at hv
  split at hv
  · cases hv
  · next name hd =>
    split at hv
    · split at hv
      · next hn => exact absurd hmem (Number.not_mem_of_integer? hforeign hn)
      · next hx => exact absurd hmem (Number.not_mem_of_decimal? hforeign hx)
      · cases hv
    · cases hv
      refine ⟨name, rfl, ?_⟩
      rw [Misleading, bytes_of_decode? hd]
      exact ⟨seen.reverse, by simp⟩

/-- No name of a character does. -/
lemma characterValue_ne_ok : characterValue (backslash :: Byte.hash :: seen).reverse ≠ .ok l := by
  intro hv
  have hlast : (backslash :: Byte.hash :: seen).reverse.getLast? = some backslash := by simp
  unfold characterValue at hv
  split at hv
  · next b hb =>
    have := congrArg List.length hb
    simp at this
  · split at hv
    · next value hn =>
      have hnames : ∀ name ∈ characterNames, name.1.getLast? ≠ some backslash := by decide +kernel
      obtain ⟨l₁, l₂, hsplit, -⟩ := List.lookup_eq_some_iff.mp hn
      exact hnames (_, value) (by rw [hsplit]; simp) hlast
    · cases hv

end Lexer

/-! ## One byte -/

namespace Completeness

open Lexer

variable {mode next : Mode} {place : Place} {pos begin : Nat} {byte : UInt8}
  {bs seen : List UInt8} {completed lexemes : List Lexeme} {ending : Ending} {l : Lexeme} {d : Int}

/-- Where the count may be after some bytes of an atom or of the name of a character. -/
inductive Within : List UInt8 → Place → Prop
  | code (seen : List UInt8) : Within seen .code
  | hash (seen : List UInt8) : Within (Byte.hash :: seen) .hash
  | character (seen : List UInt8) : Within (backslash :: Byte.hash :: seen) .character

/-- Where the count is when the lexer is in some mode. -/
inductive Meets : Mode → Place → Prop
  | blank : Meets .blank .code
  | comment : Meets .comment .comment
  | comma (start : Nat) : Meets (.comma start) .code
  | hash (start : Nat) : Meets (.hash start) .hash
  | truth (start : Nat) (value : Bool) : Meets (.truth start value) .code
  | character (start : Nat) : Meets (.character start) .character
  | characterName (start : Nat) {seen : List UInt8} {place : Place} (hw : Within seen place) :
      Meets (.characterName start seen) place
  | atom (start : Nat) {seen : List UInt8} {place : Place} (hw : Within seen place) :
      Meets (.atom start seen) place
  | string (start : Nat) (seen : List UInt8) : Meets (.string start seen) .string
  | escape (start : Nat) (seen : List UInt8) : Meets (.escape start seen) .stringEscape

/-- The count after one byte. -/
def tally (byte : UInt8) (place : Place) (d : Int) : Int :=
  if isCode byte place then d + change byte else d

lemma depthFrom_cons : depthFrom place d (byte :: bs) =
    depthFrom (Completeness.next byte place) (tally byte place d) bs := rfl

/-- The effect of a byte on the count is that of the tokens that it completes. -/
def Tallies (byte : UInt8) (place : Place) (completed : List Lexeme) (next : Mode) : Prop :=
  Meets next (Completeness.next byte place) ∧ ∀ d, tally byte place d = d + excess completed

/-- A byte between tokens is code. -/
lemma meets_start (pos : Nat) (byte : UInt8) :
    Meets (start pos byte).2 (afterCode byte) ∧ excess (start pos byte).1 = change byte := by
  have hblank : isBlank byte = true → afterCode byte = .code ∧ change byte = 0 := by
    intro hb
    simp only [isBlank, Bool.or_eq_true, beq_iff_eq] at hb
    rcases hb with ((rfl | rfl) | rfl) | rfl <;> decide
  unfold start
  split_ifs with h₁ h₂ h₃ h₄ h₅ h₆ h₇ h₈ h₉
  · rw [(hblank h₁).1, (hblank h₁).2]
    exact ⟨.blank, rfl⟩
  · rw [h₂]
    exact ⟨.comment, rfl⟩
  · rw [h₃]
    exact ⟨.blank, rfl⟩
  · rw [h₄]
    exact ⟨.blank, rfl⟩
  · rw [h₅]
    exact ⟨.blank, rfl⟩
  · rw [h₆]
    exact ⟨.blank, rfl⟩
  · rw [h₇]
    exact ⟨.comma pos, rfl⟩
  · rw [h₈]
    exact ⟨.string pos [], rfl⟩
  · rw [h₉]
    exact ⟨.hash pos, rfl⟩
  · have hcode : afterCode byte = .code := by simp [afterCode, h₂, h₈, h₉]
    rw [hcode]
    exact ⟨.atom pos (.code _), by simp [change, h₃, h₄]⟩

/-- A byte that follows a token is code as well, if the count is not in the middle of a
character. -/
lemma tallies_follow (hs : follow l pos byte = .go completed next) (hl : l.token.weight = 0)
    (hd : isDelimiter byte = true ∨ place = .code) (hw : Within seen place)
    (hp : place ≠ .character) :
    Tallies byte place completed next := by
  obtain ⟨hm, he⟩ := meets_start pos byte
  have hfollow : Move.go (l :: (start pos byte).1) (start pos byte).2 = .go completed next := hs
  obtain ⟨rfl, rfl⟩ := Move.go.inj hfollow
  have hplace : Completeness.next byte place = afterCode byte ∧ isCode byte place = true := by
    cases hw with
    | code => exact ⟨rfl, rfl⟩
    | character => exact absurd rfl hp
    | hash =>
      have hb : byte ≠ backslash := by
        rintro rfl
        rcases hd with hd | hd <;> exact absurd hd (by decide)
      simp [Completeness.next, isCode, hb]
  refine ⟨?_, fun d => ?_⟩
  · rw [hplace.1]
    exact hm
  · rw [tally, if_pos hplace.2, excess_cons, hl, he, Int.zero_add]

/-- A byte that belongs to an atom or to the name of a character is no parenthesis. -/
lemma within_cons (hw : Within seen place) (hb : isDelimiter byte = false) :
    Within (byte :: seen) (Completeness.next byte place) ∧ tally byte place d = d := by
  have hne : ∀ c, isDelimiter c = true → byte ≠ c := by
    rintro c hc rfl
    rw [hb] at hc
    cases hc
  have hchange : change byte = 0 := by
    simp [change, hne opening rfl, hne closing rfl]
  have hafter : Within (byte :: seen) (afterCode byte) := by
    unfold afterCode
    rw [if_neg (hne doubleQuote rfl), if_neg (hne semicolon rfl)]
    split
    · next hh =>
      rw [hh]
      exact .hash seen
    · exact .code _
  cases hw with
  | code => exact ⟨hafter, by simp [tally, isCode, hchange]⟩
  | hash seen =>
    rw [Completeness.next]
    split
    · next hbs =>
      rw [hbs]
      exact ⟨.character seen, by simp [tally, isCode]⟩
    · exact ⟨hafter, by simp [tally, hchange]⟩
  | character seen => exact ⟨.code _, by simp [tally, isCode]⟩

lemma tallies_cons {mode : List UInt8 → Mode} (hw : Within seen place)
    (hm : ∀ {seen place}, Within seen place → Meets (mode seen) place)
    (hb : isDelimiter byte = false) :
    Tallies byte place [] (mode (byte :: seen)) :=
  ⟨hm (within_cons hw hb (d := 0)).1, fun d => by
    rw [(within_cons hw hb (d := d)).2, excess_nil, Int.add_zero]⟩

/-- The end of a literal without a closing mark. -/
lemma tallies_followLiteral {value : Except ReadFault Literal}
    (hs : followLiteral value begin pos byte = .go completed next) (hd : isDelimiter byte = true)
    (hw : Within seen place)
    (hp : ∀ literal, value = .ok literal → ⟨.literal literal, begin, pos⟩ ∈ completed →
      place ≠ .character) : Tallies byte place completed next := by
  cases hv : value with
  | error cause =>
    rw [hv] at hs
    cases hs
  | ok literal =>
    rw [hv] at hs
    have hmem : (⟨.literal literal, begin, pos⟩ : Lexeme) ∈ completed := by
      cases hs
      simp
    exact tallies_follow hs rfl (.inl hd) hw (hp literal hv hmem)

/-- The lexer and the count go on together, unless a symbol misleads the count. -/
lemma tallies_step (hm : Meets mode place) (hs : step pos byte mode = .go completed next)
    (hplain : Plain completed) : Tallies byte place completed next := by
  cases hm with
  | blank =>
    obtain ⟨hm, he⟩ := meets_start pos byte
    have hstart : Move.go (start pos byte).1 (start pos byte).2 = .go completed next := hs
    obtain ⟨rfl, rfl⟩ := Move.go.inj hstart
    refine ⟨hm, fun d => ?_⟩
    rw [he]
    rfl
  | comment =>
    cases hs
    rw [Tallies, Completeness.next]
    split
    · exact ⟨.blank, fun d => (Int.add_zero d).symm⟩
    · exact ⟨.comment, fun d => (Int.add_zero d).symm⟩
  | comma start =>
    rw [step] at hs
    split at hs
    · next hb =>
      cases hs
      subst hb
      exact ⟨.blank, fun d => rfl⟩
    · exact tallies_follow hs rfl (.inr rfl) (.code []) (by simp)
  | hash start =>
    rw [step] at hs
    split_ifs at hs with h₁ h₂ h₃
    all_goals
      cases hs
      subst byte
    · exact ⟨.character start, fun d => (Int.add_zero d).symm⟩
    · exact ⟨.truth start true, fun d => rfl⟩
    · exact ⟨.truth start false, fun d => rfl⟩
  | truth start value =>
    rw [step] at hs
    split at hs
    · next hd => exact tallies_followLiteral hs hd (.code []) (by simp)
    · cases hs
  | character start =>
    cases hs
    exact ⟨.characterName start (.code _), fun d => (Int.add_zero d).symm⟩
  | characterName start hw =>
    rw [step] at hs
    split at hs
    · next hd =>
      refine tallies_followLiteral hs hd hw fun literal hv _ => ?_
      rintro rfl
      cases hw with
      | character seen => exact characterValue_ne_ok hv
    · next hd =>
      cases hs
      exact tallies_cons hw (.characterName start) (by simpa using hd)
  | atom start hw =>
    rw [step] at hs
    split at hs
    · next hd =>
      refine tallies_followLiteral hs hd hw fun literal hv hmem => ?_
      rintro rfl
      cases hw with
      | character seen =>
        obtain ⟨name, rfl, hname⟩ := misleading_of_atomValue hv
        exact hplain _ hmem name rfl hname
    · next hd =>
      cases hs
      exact tallies_cons hw (.atom start) (by simpa using hd)
  | string start seen =>
    rw [step] at hs
    split_ifs at hs with h₁ h₂
    · subst h₁
      split at hs
      · cases hs
        exact ⟨.blank, fun d => (Int.add_zero d).symm⟩
      · cases hs
    · cases hs
      subst h₂
      exact ⟨.escape start seen, fun d => (Int.add_zero d).symm⟩
    · cases hs
      rw [Tallies, Completeness.next, if_neg h₂, if_neg h₁]
      exact ⟨.string start _, fun d => (Int.add_zero d).symm⟩
  | escape start seen =>
    rw [step] at hs
    split at hs
    · cases hs
      exact ⟨.string start _, fun d => (Int.add_zero d).symm⟩
    · cases hs

/-! ## A whole text -/

/-- What the count comes to, as far as it depends on how the scan ends. -/
def Tells (n result : Int) : Ending → Prop
  | .endOfText _ => result = n
  | .fault .unterminatedString _ _ => 0 < result
  | .fault .unterminatedList _ _ => False
  | .fault _ _ _ => True

lemma tells_fault {cause : ReadFault} {start stop : Nat} (n result : Int)
    (hc : cause ≠ .unterminatedList ∧ cause ≠ .unterminatedString) :
    Tells n result (.fault cause start stop) := by
  obtain ⟨hlist, hstring⟩ := hc
  cases cause <;> trivial

lemma tells_finishLiteral {value : Except ReadFault Literal} (hp : depthFrom place d [] = d)
    (hc : ∀ cause, value = .error cause → cause ≠ .unterminatedList ∧ cause ≠ .unterminatedString) :
    Tells (d + excess (finishLiteral value begin pos).1) (depthFrom place d [])
      (finishLiteral value begin pos).2 := by
  cases hv : value with
  | ok literal =>
    rw [hp]
    exact (Int.add_zero d).symm
  | error cause => exact tells_fault _ _ (hc cause hv)

lemma atomValue_error {cause : ReadFault} (hv : atomValue bs = .error cause) :
    cause ≠ .unterminatedList ∧ cause ≠ .unterminatedString := by
  unfold atomValue at hv
  split at hv
  · cases hv
    simp
  · split at hv
    · split at hv <;> cases hv
      simp
    · cases hv

lemma characterValue_error {cause : ReadFault} (hv : characterValue bs = .error cause) :
    cause ≠ .unterminatedList ∧ cause ≠ .unterminatedString := by
  unfold characterValue at hv
  split at hv
  · cases hv
  · split at hv <;> cases hv
    simp

lemma stringValue_error {cause : ReadFault} (hv : stringValue bs = .error cause) :
    cause ≠ .unterminatedList ∧ cause ≠ .unterminatedString := by
  unfold stringValue at hv
  split at hv <;> cases hv
  simp

lemma depthFrom_within (hw : Within seen place) : depthFrom place d [] = d := by
  cases hw <;> rfl

lemma tells_finish (hm : Meets mode place) : Tells (d + excess (finish pos mode).1)
    (depthFrom place d []) (finish pos mode).2 := by
  cases hm with
  | blank => exact (Int.add_zero d).symm
  | comment => exact (Int.add_zero d).symm
  | comma start => exact (Int.add_zero d).symm
  | hash start => trivial
  | truth start value => exact tells_finishLiteral rfl fun _ h => nomatch h
  | character start => trivial
  | characterName start hw =>
    exact tells_finishLiteral (depthFrom_within hw) fun _ => characterValue_error
  | atom start hw => exact tells_finishLiteral (depthFrom_within hw) fun _ => atomValue_error
  | string start seen =>
    show 0 < max d 0 + 1
    omega
  | escape start seen =>
    show 0 < max d 0 + 1
    omega

/-- Within a text the lexer stops neither at the end of a list nor at that of a string. -/
lemma step_stop (hs : step pos byte mode = .stop ending) (n result : Int) :
    Tells n result ending := by
  have hfollow : ∀ {value : Except ReadFault Literal} {begin : Nat},
      (∀ cause, value = .error cause → cause ≠ .unterminatedList ∧ cause ≠ .unterminatedString) →
      followLiteral value begin pos byte = .stop ending → Tells n result ending := by
    intro value begin hc hs
    cases hv : value with
    | ok literal =>
      rw [hv] at hs
      cases hs
    | error cause =>
      rw [hv] at hs
      cases hs
      exact tells_fault _ _ (hc cause hv)
  cases mode with
  | blank => cases hs
  | comment => cases hs
  | comma begin =>
    rw [step] at hs
    split at hs <;> cases hs
  | hash begin =>
    rw [step] at hs
    split_ifs at hs
    cases hs
    trivial
  | truth begin value =>
    rw [step] at hs
    split at hs
    · cases hs
    · cases hs
      trivial
  | character begin => cases hs
  | characterName begin seen =>
    rw [step] at hs
    split at hs
    · exact hfollow (fun _ => characterValue_error) hs
    · cases hs
  | atom begin seen =>
    rw [step] at hs
    split at hs
    · exact hfollow (fun _ => atomValue_error) hs
    · cases hs
  | string begin seen =>
    rw [step] at hs
    split_ifs at hs
    split at hs
    · cases hs
    · next cause hv =>
      cases hs
      exact tells_fault _ _ (stringValue_error hv)
  | escape begin seen =>
    rw [step] at hs
    split at hs
    · cases hs
    · cases hs
      trivial

/-- The count of a text comes to the parentheses among its tokens. -/
lemma tells_scanFrom (hm : Meets mode place) (hplain : Plain (scanFrom mode pos [] bs).lexemes) :
    Tells (d + excess (scanFrom mode pos [] bs).lexemes) (depthFrom place d bs)
      (scanFrom mode pos [] bs).ending := by
  induction bs generalizing mode place pos d with
  | nil =>
    rw [scanFrom_nil]
    exact tells_finish hm
  | cons byte bs ih =>
    cases hs : step pos byte mode with
    | stop ending =>
      rw [scanFrom_stop hs]
      exact step_stop hs _ _
    | go completed next =>
      rw [scanFrom_go hs] at hplain ⊢
      obtain ⟨hnext, htally⟩ := tallies_step hm hs hplain.left
      rw [depthFrom_cons, htally, Scan.lexemes_prepend, excess_append, ← Int.add_assoc]
      exact ih hnext hplain.right

end Completeness

namespace Reader

open Completeness Heap HeapM

variable {s : String} {pos n stop : Nat} {h k : Heap} {e : ReadFailure}

/-- The data that have been read have closed what they have opened. -/
lemma Stages.excess_eq (hs : Stages s pos n stop) :
    excess (Scan.ofString s pos).lexemes = excess (Scan.ofString s stop).lexemes ∧
      (Scan.ofString s pos).ending = (Scan.ofString s stop).ending := by
  induction hs with
  | none => exact ⟨rfl, rfl⟩
  | @next pos n stop h k x hr hs ih =>
    obtain ⟨-, -, hrest, -⟩ := read_ofBytes hr
    have hrest' : x.rest = Scan.ofString s x.stop := hrest
    obtain ⟨front, -, -, hending, -⟩ := readFrom_some hr
    have hexcess := excess_of_readFrom hr
    rw [hrest'] at hending hexcess
    refine ⟨?_, hending.symm.trans ih.2⟩
    rw [← ih.1, ← hexcess]
    exact (Int.zero_add _).symm

/-- Whether a session has to wait for more of a text: if no symbol of the text ends like the
beginning of a character literal, then the count of its parentheses is zero if it can be read to its
end datum by datum, and positive if a datum on the way is a list or a string without an end. -/
theorem count_agrees_with_reader (hplain : Plain (Scan.ofString s 0).lexemes)
    (hs : Stages s 0 n stop) :
    (∀ h k, HeapM.read (Scan.ofString s stop) h = .ok none k → openParentheses s = 0) ∧
      ∀ h e k, HeapM.read (Scan.ofString s stop) h = .error e k → e.failure.Incomplete →
        0 < openParentheses s := by
  have htells : Tells (0 + excess (Scan.ofString s 0).lexemes) (openParentheses s)
      (Scan.ofString s 0).ending := tells_scanFrom .blank hplain
  obtain ⟨hexcess, hending⟩ := hs.excess_eq
  rw [hexcess, hending, Int.zero_add] at htells
  refine ⟨fun h k hr => ?_, fun h e k hr he => ?_⟩
  · obtain ⟨hnone, stop', hend⟩ := read_eq_none hr
    rw [hnone, hend] at htells
    exact htells
  · rcases excess_of_incomplete hr he with ⟨hpos, stop', hend⟩ | ⟨cause, b, e', hend, rfl | rfl⟩
    · rw [hend] at htells
      rw [show openParentheses s = _ from htells, ← Int.zero_add (excess _)]
      exact hpos
    · rw [hend] at htells
      exact htells.elim
    · rw [hend] at htells
      exact htells

/-- A text of one datum is read in one stage. -/
lemma stages_of_parse {t : Tree} {stop end' : Nat} (hroom :
      filled.roots.size + (Grammar.nesting (Scan.ofString s 0) + 2) ≤ filled.rootSlots)
    (hparse : Grammar.parse (Scan.ofString s 0) = .ok (some ⟨t, stop, ⟨[], .endOfText end'⟩⟩))
    (hcells : t.cells ≤ 6) :
    Stages s 0 1 stop ∧ ∃ k, HeapM.read (Scan.ofString s stop) k = .ok none k := by
  have hcapacity : filled.capacity = 6 := rfl
  obtain ⟨x, k, hx, -, hstop, hrest, -⟩ := read_of_parse wellFormed_filled hroom hparse
    (by rw [used_filled, hcapacity, Nat.zero_add]; exact hcells)
  obtain ⟨-, -, hleft, -⟩ := read_ofBytes hx
  rw [← show x.stop = stop from hstop]
  refine ⟨.next hx (.none _), k, ?_⟩
  rw [show Scan.ofString s x.stop = _ from hleft.symm.trans hrest]
  rfl

/-- A character literal with a parenthesis does not count, and an open list does. -/
theorem count_agrees_with_reader_character :
    Plain (Scan.ofString "(7 #\\()" 0).lexemes ∧ Stages "(7 #\\()" 0 1 7 ∧
      openParentheses "(7 #\\()" = 0 ∧ 0 < openParentheses "(" := by
  have hscan : Scan.ofString "(7 #\\()" 0 = ⟨[⟨.opening, 0, 1⟩, ⟨.literal (.int 7), 1, 2⟩,
      ⟨.literal (.char 0x28), 3, 6⟩, ⟨.closing, 6, 7⟩], .endOfText 7⟩ := by decide +kernel
  have hopen : Scan.ofString "(" 0 = ⟨[⟨.opening, 0, 1⟩], .endOfText 1⟩ := by decide +kernel
  have hplain : Plain (Scan.ofString "(7 #\\()" 0).lexemes := by
    rw [hscan]
    simp [Plain]
  have hparse : Grammar.parse (Scan.ofString "(7 #\\()" 0) =
      .ok (some
        ⟨.list [.leaf (.int 7), .leaf (.char 0x28)] .emptyList, 7, ⟨[], .endOfText 7⟩⟩) := by
    rw [hscan]
    have hd : Grammar.Derives .datum
        [.opening, .literal (.int 7), .literal (.char 0x28), .closing]
        (.list [.leaf (.int 7), .leaf (.char 0x28)] .emptyList) :=
      .list (.element (by simp) (.literal _) (.element (by simp) (.literal _) (.closing true)))
    exact Grammar.Derives.parse_eq [⟨.opening, 0, 1⟩, ⟨.literal (.int 7), 1, 2⟩,
      ⟨.literal (.char 0x28), 3, 6⟩, ⟨.closing, 6, 7⟩] [] hd
  obtain ⟨hs, k, hend⟩ := stages_of_parse (by rw [hscan]; decide) hparse (by decide)
  refine ⟨hplain, hs, (count_agrees_with_reader hplain hs).1 k k hend, ?_⟩
  have hlist : HeapM.read (Scan.ofString "(" 0) filled =
      .error (.ofFault .unterminatedList 1) filled := by
    rw [hopen]
    rfl
  exact (count_agrees_with_reader (s := "(") (by rw [hopen]; simp [Plain]) (.none 0)).2 _ _ _ hlist
    (.inl rfl)

/-- With a symbol that ends in a hash sign and a backslash, a complete list seems to lack its end,
and a list without an end seems to be complete. -/
theorem misleading_symbol_miscounted :
    (∃ stop k, Stages "(a#\\)" 0 1 stop ∧ HeapM.read (Scan.ofString "(a#\\)" stop) k = .ok none k) ∧
      openParentheses "(a#\\)" = 1 ∧
      (∃ stop k e, Stages "a#\\(" 0 1 stop ∧ e.failure = .unreadable .unterminatedList ∧
        HeapM.read (Scan.ofString "a#\\(" stop) k = .error e k) ∧
      openParentheses "a#\\(" = 0 := by
  have hscan : Scan.ofString "(a#\\)" 0 = ⟨[⟨.opening, 0, 1⟩, ⟨.literal (.symbol "a#\\"), 1, 4⟩,
      ⟨.closing, 4, 5⟩], .endOfText 5⟩ := by decide +kernel
  have hscan' : Scan.ofString "a#\\(" 0 = ⟨[⟨.literal (.symbol "a#\\"), 0, 3⟩, ⟨.opening, 3, 4⟩],
      .endOfText 4⟩ := by decide +kernel
  have hopen : Scan.ofString "a#\\(" 3 = ⟨[⟨.opening, 3, 4⟩], .endOfText 4⟩ := by decide +kernel
  have hparse : Grammar.parse (Scan.ofString "(a#\\)" 0) =
      .ok (some ⟨.list [.leaf (.symbol "a#\\")] .emptyList, 5, ⟨[], .endOfText 5⟩⟩) := by
    rw [hscan]
    have hd : Grammar.Derives .datum [.opening, .literal (.symbol "a#\\"), .closing]
        (.list [.leaf (.symbol "a#\\")] .emptyList) :=
      .list (.element (by simp) (.literal _) (.closing true))
    exact Grammar.Derives.parse_eq [⟨.opening, 0, 1⟩, ⟨.literal (.symbol "a#\\"), 1, 4⟩,
      ⟨.closing, 4, 5⟩] [] hd
  have hparse' : Grammar.parse (Scan.ofString "a#\\(" 0) =
      .ok (some ⟨.leaf (.symbol "a#\\"), 3, ⟨[⟨.opening, 3, 4⟩], .endOfText 4⟩⟩) := by
    rw [hscan']
    simp only [Grammar.parse, Grammar.datum]
    rfl
  obtain ⟨hs, k, hend⟩ := stages_of_parse (by rw [hscan]; decide) hparse (by decide)
  obtain ⟨x, l, hx, -, hstop, -⟩ := read_of_parse wellFormed_filled (by rw [hscan']; decide) hparse'
    (by rw [used_filled]; decide)
  have hs' : Stages "a#\\(" 0 1 3 := by
    rw [← show x.stop = 3 from hstop]
    exact .next hx (.none _)
  refine ⟨⟨5, k, hs, hend⟩, by decide +kernel,
    ⟨3, filled, .ofFault .unterminatedList 4, hs', rfl, ?_⟩, by decide +kernel⟩
  rw [hopen]
  rfl

end Reader

end ArenaScheme
