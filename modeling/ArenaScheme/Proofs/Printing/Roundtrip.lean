/-
# Printing and reading back

A datum is read back from its printed form.  The printed form is cut into the tokens of the datum,
the grammar makes the datum of the tokens, and the reader does what the grammar says.  The lists
that are open at the same time are no more than the levels of the printed form, so the root slots
that are needed are known beforehand, and so are the cells.
-/
import ArenaScheme.Proofs.Printing.Tokens
import ArenaScheme.Proofs.Reading.Refinement

namespace ArenaScheme

open Text Lexer

namespace Tree

/-- Trees of which every leaf is read back from its printed form. -/
def Readable : Tree → Prop
  | emptyList => True
  | leaf l => l.Readable
  | pair a b => a.Readable ∧ b.Readable

/-! ## Tokens -/

/-- The length of the printed form. -/
def size (t : Tree) : Nat := (bytes t.text).length

/-- The length of the printed form of the rest of a list. -/
def tailSize (t : Tree) : Nat := (bytes t.tailText).length

mutual

/-- The tokens of the printed form. -/
def lexemes (pos : Nat) : Tree → List Lexeme
  | emptyList => [⟨.opening, pos, pos + 1⟩, ⟨.closing, pos + 1, pos + 2⟩]
  | leaf l => [⟨.literal l, pos, pos + (bytes l.text).length⟩]
  | pair a b => ⟨.opening, pos, pos + 1⟩ ::
      (a.lexemes (pos + 1) ++ b.tailLexemes (pos + 1 + a.size))

/-- The tokens of the printed form of the rest of a list. -/
def tailLexemes (pos : Nat) : Tree → List Lexeme
  | emptyList => [⟨.closing, pos, pos + 1⟩]
  | leaf l =>
    let stop := pos + 3 + (bytes l.text).length
    [⟨.literal (.symbol "."), pos + 1, pos + 2⟩, ⟨.literal l, pos + 3, stop⟩,
      ⟨.closing, stop, stop + 1⟩]
  | pair a b => a.lexemes (pos + 1) ++ b.tailLexemes (pos + 1 + a.size)

end

variable {t : Tree}

lemma bytes_opening : bytes "(" = [Byte.opening] := by decide +kernel

lemma bytes_closing : bytes ")" = [Byte.closing] := by decide +kernel

lemma bytes_space : bytes " " = [Byte.space] := by decide +kernel

lemma bytes_dot : bytes " . " = [Byte.space, 0x2E, Byte.space] := by decide +kernel

lemma size_pair (a b : Tree) : (pair a b).size = 1 + a.size + b.tailSize := by
  simp [size, tailSize, text, bytes_opening]
  omega

lemma tailSize_pair (a b : Tree) : (pair a b).tailSize = 1 + a.size + b.tailSize := by
  simp [size, tailSize, tailText, bytes_space]
  omega

/-- The rest of a list begins with a delimiter. -/
lemma delimited_tailText (t : Tree) (rest : List UInt8) : Delimited (bytes t.tailText ++ rest) := by
  cases t with
  | emptyList =>
    rw [tailText, bytes_closing]
    rfl
  | leaf l =>
    rw [tailText, bytes_append, bytes_append, bytes_dot]
    rfl
  | pair a b =>
    rw [tailText, bytes_append, bytes_append, bytes_space]
    rfl

lemma scanFrom_opening (pos : Nat) (found : List Lexeme) (rest : List UInt8) :
    scanFrom .blank pos found (Byte.opening :: rest) =
      scanFrom .blank (pos + 1) (⟨.opening, pos, pos + 1⟩ :: found) rest := by
  have hs : step pos Byte.opening .blank = .go (single .opening pos) .blank := rfl
  exact scanFrom_cons hs

lemma scanFrom_closing (pos : Nat) (found : List Lexeme) (rest : List UInt8) :
    scanFrom .blank pos found (Byte.closing :: rest) =
      scanFrom .blank (pos + 1) (⟨.closing, pos, pos + 1⟩ :: found) rest := by
  have hs : step pos Byte.closing .blank = .go (single .closing pos) .blank := rfl
  exact scanFrom_cons hs

lemma scanFrom_space (pos : Nat) (found : List Lexeme) (rest : List UInt8) :
    scanFrom .blank pos found (Byte.space :: rest) = scanFrom .blank (pos + 1) found rest := by
  have hs : step pos Byte.space .blank = .go [] .blank := rfl
  exact scanFrom_cons hs

/-- The dot before the last part of a dotted list. -/
lemma scanFrom_dot (pos : Nat) (found : List Lexeme) (rest : List UInt8) :
    scanFrom .blank pos found (Byte.space :: 0x2E :: Byte.space :: rest) =
      scanFrom .blank (pos + 3) (⟨.literal (.symbol "."), pos + 1, pos + 2⟩ :: found) rest := by
  have hdot : atomValue [0x2E] = .ok (.symbol ".") := by decide +kernel
  have ha : scanFrom .blank (pos + 1) found (0x2E :: Byte.space :: rest) =
      scanFrom .blank (pos + 2) (⟨.literal (.symbol "."), pos + 1, pos + 2⟩ :: found)
        (Byte.space :: rest) :=
    scanFrom_literal_atom (by decide +kernel) (by decide +kernel) hdot rfl
  rw [scanFrom_space, ha, scanFrom_space]

/-- The printed form of a datum, and that of the rest of a list, are cut into their tokens. -/
lemma scanFrom_text (ht : t.Readable) :
    (∀ pos found rest, Delimited rest → scanFrom .blank pos found (bytes t.text ++ rest) =
      scanFrom .blank (pos + t.size) ((t.lexemes pos).reverse ++ found) rest) ∧
    ∀ pos found rest, scanFrom .blank pos found (bytes t.tailText ++ rest) =
      scanFrom .blank (pos + t.tailSize) ((t.tailLexemes pos).reverse ++ found) rest := by
  induction t with
  | emptyList =>
    have htext : bytes (text .emptyList) = [Byte.opening, Byte.closing] := by decide +kernel
    refine ⟨fun pos found rest _ => ?_, fun pos found rest => ?_⟩
    · rw [size, htext, List.cons_append, scanFrom_opening, List.cons_append, scanFrom_closing]
      rfl
    · rw [tailSize, tailText, bytes_closing, List.cons_append, scanFrom_closing]
      rfl
  | leaf l =>
    refine ⟨fun pos found rest hd => scanFrom_literal ht hd, fun pos found rest => ?_⟩
    have htail : bytes (tailText (.leaf l)) =
        Byte.space :: 0x2E :: Byte.space :: (bytes l.text ++ [Byte.closing]) := by
      rw [tailText, bytes_append, bytes_append, bytes_dot, bytes_closing]
      rfl
    have hd : Delimited (Byte.closing :: rest) := rfl
    rw [tailSize, htail]
    simp only [List.cons_append, List.append_assoc, List.nil_append]
    rw [scanFrom_dot, scanFrom_literal ht hd, scanFrom_closing]
    simp [tailLexemes, Nat.add_assoc, Nat.add_comm 3]
  | pair a b iha ihb =>
    obtain ⟨ha, -⟩ := iha ht.1
    obtain ⟨-, hb⟩ := ihb ht.2
    refine ⟨fun pos found rest _ => ?_, fun pos found rest => ?_⟩
    · rw [text, bytes_append, bytes_append, bytes_opening, List.append_assoc, List.append_assoc,
        List.cons_append, List.nil_append, scanFrom_opening,
        ha _ _ _ (delimited_tailText b rest), hb, size_pair, lexemes]
      simp [Nat.add_assoc]
    · rw [tailText, bytes_append, bytes_append, bytes_space, List.append_assoc, List.append_assoc,
        List.cons_append, List.nil_append, scanFrom_space, ha _ _ _ (delimited_tailText b rest), hb,
        tailSize_pair, tailLexemes]
      simp [Nat.add_assoc]

/-- The printed form of a datum is a text of the tokens of the datum and no others. -/
lemma scan_text (ht : t.Readable) :
    Scan.ofString t.text 0 = ⟨t.lexemes 0, .endOfText t.size⟩ := by
  have h := (scanFrom_text ht).1 0 [] [] trivial
  rw [List.append_nil, List.append_nil, Nat.zero_add] at h
  change scanFrom .blank 0 [] (bytes t.text) = _
  rw [h]
  simp [scanFrom, finish]

/-! ## The grammar -/

/-- The tokens of a datum begin with one that a datum may begin with. -/
lemma exists_lexemes_eq_cons (ht : t.Readable) (pos : Nat) : ∃ x xs, t.lexemes pos = x :: xs ∧
    x.token ≠ .closing ∧ x.token.isDot = false := by
  cases t with
  | emptyList => exact ⟨_, _, rfl, by simp, rfl⟩
  | pair a b => exact ⟨_, _, rfl, by simp, rfl⟩
  | leaf l =>
    refine ⟨_, _, rfl, by simp, ?_⟩
    cases l with
    | symbol name => exact beq_eq_false_iff_ne.mpr ht.dot
    | _ => rfl

/-- What the grammar finds at the beginning of some tokens. -/
def Parses {lexemes : List Lexeme} (o : Except ReadFailure (Grammar.Parsed lexemes)) (t : Tree)
    (stop : Nat) (rest : List Lexeme) : Prop :=
  ∃ p, o = .ok p ∧ p.tree = t ∧ p.stop = stop ∧ p.rest = rest

variable {ending : Ending} {a b : Tree} {stop stop' pos : Nat} {nonempty : Bool}
  {rest : List Lexeme}

/-- An element in front of the rest of a list. -/
lemma parses_items_element (ha : a.Readable)
    (hp : Parses (Grammar.datum ending (a.lexemes pos ++ rest)) a stop rest) {rest' : List Lexeme}
    (hq : Parses (Grammar.items ending true rest) b stop' rest') :
    Parses (Grammar.items ending nonempty (a.lexemes pos ++ rest)) (.pair a b) stop' rest' := by
  obtain ⟨x, xs, hx, hc, hd⟩ := exists_lexemes_eq_cons ha pos
  rw [hx, List.cons_append] at hp ⊢
  obtain ⟨p, hp, rfl, -, hr⟩ := hp
  rw [← hr] at hq
  obtain ⟨q, hq, rfl, rfl, rfl⟩ := hq
  have hd' : ¬ x.token.isDot = true := by simp [hd]
  rw [Grammar.items, if_neg hc, if_neg hd', hp]
  simp only [bind, Except.bind, hq]
  exact ⟨_, rfl, rfl, rfl, rfl⟩

/-- A dot, a datum and the end of the list. -/
lemma parses_items_dot {dot close : Lexeme} {lexemes : List Lexeme} (hdot : dot.token.isDot = true)
    (hp : Parses (Grammar.datum ending lexemes) t stop (close :: rest))
    (he : close.token = .closing) :
    Parses (Grammar.items ending true (dot :: lexemes)) t close.stop rest := by
  obtain ⟨p, hp, rfl, -, hr⟩ := hp
  have hc : dot.token ≠ .closing := fun h => by simp [h, Token.isDot] at hdot
  have hclose : Parses (Grammar.close ending p.tree p.rest) p.tree close.stop rest := by
    rw [hr, Grammar.close, if_pos he]
    exact ⟨_, rfl, rfl, rfl, rfl⟩
  obtain ⟨q, hq, ht, hs, rfl⟩ := hclose
  rw [Grammar.items, if_neg hc, if_pos hdot, if_pos rfl, hp]
  simp only [bind, Except.bind, hq]
  exact ⟨_, rfl, ht, hs, rfl⟩

/-- A list in parentheses. -/
lemma parses_datum_list {lexemes : List Lexeme}
    (hp : Parses (Grammar.items ending false lexemes) t stop rest) :
    Parses (Grammar.datum ending (⟨.opening, pos, pos + 1⟩ :: lexemes)) t stop rest := by
  obtain ⟨p, hp, rfl, rfl, rfl⟩ := hp
  rw [Grammar.datum.eq_def]
  simp only [hp, bind, Except.bind]
  exact ⟨_, rfl, rfl, rfl, rfl⟩

/-- The end of a list. -/
lemma parses_items_end {close : Lexeme} (he : close.token = .closing) :
    Parses (Grammar.items ending nonempty (close :: rest)) .emptyList close.stop rest := by
  rw [Grammar.items, if_pos he]
  exact ⟨_, rfl, rfl, rfl, rfl⟩

lemma parses_datum_literal (l : Literal) (start stop : Nat) (rest : List Lexeme) :
    Parses (Grammar.datum ending (⟨.literal l, start, stop⟩ :: rest)) (.leaf l) stop rest := by
  rw [Grammar.datum.eq_def]
  exact ⟨_, rfl, rfl, rfl, rfl⟩

/-- The grammar finds a datum in its tokens, and the rest of a list in those of the rest. -/
lemma parses_lexemes (ending : Ending) (ht : t.Readable) :
    (∀ pos rest, Parses (Grammar.datum ending (t.lexemes pos ++ rest)) t (pos + t.size) rest) ∧
    ∀ pos rest, Parses (Grammar.items ending true (t.tailLexemes pos ++ rest)) t
      (pos + t.tailSize) rest := by
  induction t with
  | emptyList =>
    have hsize : size .emptyList = 2 := by decide +kernel
    have htail : tailSize .emptyList = 1 := by decide +kernel
    refine ⟨fun pos rest => ?_, fun pos rest => ?_⟩
    · rw [hsize]
      exact parses_datum_list (parses_items_end rfl)
    · rw [htail]
      exact parses_items_end rfl
  | leaf l =>
    refine ⟨fun pos rest => parses_datum_literal l _ _ rest, fun pos rest => ?_⟩
    have htail : pos + tailSize (.leaf l) = pos + 3 + (bytes l.text).length + 1 := by
      rw [tailSize, tailText, bytes_append, bytes_append, bytes_dot, bytes_closing]
      simp
      omega
    rw [htail]
    exact parses_items_dot rfl (parses_datum_literal l _ _ _) rfl
  | pair a b iha ihb =>
    obtain ⟨ha, -⟩ := iha ht.1
    obtain ⟨-, hb⟩ := ihb ht.2
    refine ⟨fun pos rest => ?_, fun pos rest => ?_⟩
    · rw [size_pair, lexemes, List.cons_append, List.append_assoc,
        show pos + (1 + a.size + b.tailSize) = pos + 1 + a.size + b.tailSize by omega]
      exact parses_datum_list (parses_items_element ht.1 (ha _ _) (hb _ _))
    · rw [tailSize_pair, tailLexemes, List.append_assoc,
        show pos + (1 + a.size + b.tailSize) = pos + 1 + a.size + b.tailSize by omega]
      exact parses_items_element ht.1 (ha _ _) (hb _ _)

/-- The grammar finds the datum in its printed form, and nothing after it. -/
lemma parse_scan (ht : t.Readable) : Grammar.parse (Scan.ofString t.text 0) =
    .ok (some ⟨t, t.size, ⟨[], .endOfText t.size⟩⟩) := by
  rw [scan_text ht]
  obtain ⟨x, xs, hx, -, -⟩ := exists_lexemes_eq_cons ht 0
  have hp := (parses_lexemes (.endOfText t.size) ht).1 0 []
  rw [List.append_nil, Nat.zero_add, hx] at hp
  obtain ⟨p, hp, h₁, h₂, h₃⟩ := hp
  rw [hx]
  simp only [Grammar.parse, hp, bind, Except.bind, pure, Except.pure, h₁, h₂, h₃]

/-! ## Nesting -/

/-- The lists of a datum are not nested more deeply than its printed form. -/
lemma nestingFrom_lexemes (t : Tree) :
    (∀ d pos rest, Grammar.nestingFrom d (t.lexemes pos ++ rest) ≤
      max (d + t.depth + 1) (Grammar.nestingFrom d rest)) ∧
    ∀ d pos rest, Grammar.nestingFrom (d + 1) (t.tailLexemes pos ++ rest) ≤
      max (d + 1 + t.tailDepth) (Grammar.nestingFrom d rest) := by
  induction t with
  | emptyList =>
    refine ⟨fun d pos rest => ?_, fun d pos rest => ?_⟩
    · simp only [lexemes, List.cons_append, List.nil_append, Grammar.nestingFrom, depth,
        Nat.add_sub_cancel]
      omega
    · simp only [tailLexemes, List.cons_append, List.nil_append, Grammar.nestingFrom, tailDepth,
        Nat.add_sub_cancel]
      omega
  | leaf l =>
    refine ⟨fun d pos rest => ?_, fun d pos rest => ?_⟩
    · simp only [lexemes, List.cons_append, List.nil_append, Grammar.nestingFrom]
      omega
    · simp only [tailLexemes, List.cons_append, List.nil_append, Grammar.nestingFrom, tailDepth,
        Nat.add_sub_cancel]
      omega
  | pair a b iha ihb =>
    refine ⟨fun d pos rest => ?_, fun d pos rest => ?_⟩
    · have h₁ := iha.1 (d + 1) (pos + 1) (b.tailLexemes (pos + 1 + a.size) ++ rest)
      have h₂ := ihb.2 d (pos + 1 + a.size) rest
      simp only [lexemes, List.cons_append, List.append_assoc, Grammar.nestingFrom, depth]
      omega
    · have h₁ := iha.1 (d + 1) (pos + 1) (b.tailLexemes (pos + 1 + a.size) ++ rest)
      have h₂ := ihb.2 d (pos + 1 + a.size) rest
      simp only [tailLexemes, List.append_assoc, tailDepth]
      omega

lemma nesting_scan (ht : t.Readable) : Grammar.nesting (Scan.ofString t.text 0) ≤ t.depth + 1 := by
  have h := (nestingFrom_lexemes t).1 0 0 []
  rw [List.append_nil, Grammar.nestingFrom] at h
  rw [scan_text ht]
  change Grammar.nestingFrom 0 (t.lexemes 0) ≤ _
  omega

end Tree

/-! ## Reading back -/

namespace Heap

/-- The object at `w` in `k` is structurally equal to the one at `v` in `h`: it is the same one if
it is the empty list, a truth value or a symbol; it holds the same if it is another atom; and it is
a pair of such objects if it is a pair. -/
inductive Alike (h k : Heap) : Handle → Handle → Prop
  | emptyList : Alike h k .emptyList .emptyList
  | bool (b : Bool) : Alike h k (.ofBool b) (.ofBool b)
  | symbol {name : String} {v : Handle} (hv : h.object? v = some (.symbol name))
      (hw : k.object? v = some (.symbol name)) : Alike h k v v
  | atom {l : Literal} {d : Datum} {v w : Handle} (hl : l.datum? = some d)
      (hv : h.object? v = some d)
      (hw : k.object? w = some d) : Alike h k v w
  | pair {v w x y x' y' : Handle} (hv : h.object? v = some (.pair x y))
      (hw : k.object? w = some (.pair x' y')) (hx : Alike h k x x') (hy : Alike h k y y') :
      Alike h k v w

variable {h k : Heap} {t : Tree} {v w : Handle}

/-- What unfolds into the same tree is structurally equal. -/
lemma alike_of_unfolds (hh : h.WellFormed) (hk : k.WellFormed)
    (hs : ∀ name v, h.findSymbol name = some v → k.findSymbol name = some v) (hv : h.Unfolds t v)
    (hw : k.Unfolds t w) : h.Alike k v w := by
  induction t generalizing v w with
  | emptyList =>
    obtain rfl : v = .emptyList := hv
    obtain rfl : w = .emptyList := hw
    exact .emptyList
  | leaf l =>
    cases l with
    | bool b =>
      obtain rfl : v = .ofBool b := hv
      obtain rfl : w = .ofBool b := hw
      exact .bool b
    | symbol name =>
      obtain rfl : v = w := Option.some.inj ((hs name v hv).symm.trans hw)
      exact .symbol (hh.table name v hv).2 (hk.table name v hw).2
    | int n => exact .atom (l := .int n) rfl hv hw
    | real x => exact .atom (l := .real x) rfl hv hw
    | char b => exact .atom (l := .char b) rfl hv hw
    | str s => exact .atom (l := .str s) rfl hv hw
  | pair a b iha ihb =>
    obtain ⟨x, y, hv, hx, hy⟩ := hv
    obtain ⟨x', y', hw, hx', hy'⟩ := hw
    exact .pair hv hw (iha hx hx') (ihb hy hy')

/-- A datum whose parts can be read back and are not cut off in print is read back from its printed
form, given cells for it and slots for the lists that are open at the same time. -/
theorem read_print (hw : h.WellFormed) (hs : h.HasSentinels) (ht : h.Unfolds t v) (hr : t.Readable)
    (hd : t.depth ≤ 1000) (hcells : h.used + t.cells ≤ h.capacity)
    (hslots : h.roots.size + t.depth + 3 ≤ h.rootSlots) :
    ∃ text x k, h.print v = .ok text ∧
      HeapM.read (Scan.ofString text 0) h = .ok (some x) k ∧
      k.Unfolds t x.datum ∧ h.Alike k v x.datum ∧ x.stop = text.utf8ByteSize ∧ h.Intact k := by
  have hroom : h.roots.size + (Grammar.nesting (Scan.ofString t.text 0) + 2) ≤ h.rootSlots := by
    have := Tree.nesting_scan hr
    omega
  have hread := Reader.reads_read hw hroom
  rw [Tree.parse_scan hr] at hread
  obtain ⟨x, k, hrun, hu, hstop, -, hi⟩ := hread.success hcells
  refine ⟨t.text, x, k, Printer.print_eq_text hw hs ht hd, hrun, hu,
    alike_of_unfolds hw hi.wellFormed hi.symbols ht hu, ?_, hi⟩
  rw [hstop, Tree.size, length_bytes]

/-- An arena filled by one datum that nothing refers to. -/
def filled : Heap where
  cells := #[.emptyList, .bool true, .bool false, .error .outOfMemory "out of memory",
    .pair ⟨5⟩ ⟨6⟩, .int (-9223372036854775808), .pair ⟨7⟩ ⟨8⟩, .char 0x28, .pair ⟨9⟩ ⟨11⟩,
    .str "a\"\n", rootFrame, .symbol "..."]
  capacity := 6
  free := none
  freeCount := 0
  collections := 0
  roots := #[]
  rootSlots := 4
  symbols := Std.TreeMap.insert ∅ "..." ⟨11⟩
  baseEnv := ⟨10⟩
  currentEnv := ⟨10⟩
  audited := true

lemma wellFormed_filled : filled.WellFormed where
  toClosed := by decide
  free := ⟨[], .of_list rfl .nil (by decide) rfl⟩
  table := table_of_insert rfl ⟨by decide, rfl⟩

lemma hasSentinels_filled : filled.HasSentinels :=
  .of_take rfl

/-- None of its cells can be reached. -/
lemma used_filled : filled.used = 0 := by
  have hnone : {i | filled.Collectible i ∧ filled.Reachable [] ⟨i⟩} = ∅ :=
    Set.eq_empty_iff_forall_notMem.mpr fun _ hi =>
      Marking.not_collectible_of_reachable (by decide) (by decide) hi.2 hi.1
  rw [used, hnone, Set.ncard_empty]

/-- The datum in that arena. -/
def filling : Tree :=
  .pair (.leaf (.int (-9223372036854775808))) (.pair (.leaf (.char 0x28))
    (.pair (.leaf (.str "a\"\n")) (.leaf (.symbol "..."))))

/-- It is read back into the cells that it has been printed from. -/
theorem read_print_filled : filled.Unfolds filling ⟨4⟩ ∧ filling.Readable ∧ filling.depth ≤ 1000 ∧
    ∃ x k, filled.print ⟨4⟩ = .ok "(-9223372036854775808 #\\( \"a\\\"\\n\" . ...)" ∧
      HeapM.read (Scan.ofString "(-9223372036854775808 #\\( \"a\\\"\\n\" . ...)" 0) filled =
        .ok (some x) k ∧ k.Unfolds filling x.datum ∧ filled.Alike k ⟨4⟩ x.datum ∧ x.stop = 40 := by
  have ht : filled.Unfolds filling ⟨4⟩ :=
    ⟨⟨5⟩, ⟨6⟩, rfl, rfl, ⟨7⟩, ⟨8⟩, rfl, rfl, ⟨9⟩, ⟨11⟩, rfl, rfl, Std.TreeMap.getElem?_insert_self⟩
  have hr : filling.Readable := by
    have hname : SymbolName "..." :=
      ⟨by decide, by decide +kernel, by decide +kernel, by decide +kernel, by decide⟩
    exact ⟨trivial, show (0x28 : UInt8) < 128 by decide, trivial, hname⟩
  have hd : filling.depth ≤ 1000 := by decide
  have htext : filling.text = "(-9223372036854775808 #\\( \"a\\\"\\n\" . ...)" := by decide +kernel
  refine ⟨ht, hr, hd, ?_⟩
  obtain ⟨text, x, k, hp, hx, hu, ha, hs, -⟩ :=
    read_print wellFormed_filled hasSentinels_filled ht hr hd
    (by rw [used_filled]; decide) (by decide)
  obtain rfl : filling.text = text := Except.ok.inj
    ((Printer.print_eq_text wellFormed_filled hasSentinels_filled ht hd).symm.trans hp)
  rw [htext] at hp hx hs
  exact ⟨x, k, hp, hx, hu, ha, hs.trans (by decide +kernel)⟩

end Heap

end ArenaScheme
