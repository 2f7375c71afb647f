/-
# A datum within a list

A datum has the same tokens in a list as on its own, if a line break follows it: the lexer does not
see what is in front of a text, apart from counting positions, and whatever is open at the end of a
line is completed by the line break as by the end of the text.  The elements of a list are read as
data, except for the dot.  So the texts of some data, a line each and in parentheses, are the text
of the list of these data; but a dot that is a datum on its own is a mark of a dotted list there.
-/
import ArenaScheme.Proofs.Scanning.Parentheses

namespace ArenaScheme

open Text ArenaScheme.Tree

/-! ## Later positions -/

def Lexeme.shift (d : Nat) (l : Lexeme) : Lexeme := ⟨l.token, l.start + d, l.stop + d⟩

def Ending.shift (d : Nat) : Ending → Ending
  | endOfText stop => .endOfText (stop + d)
  | fault cause start stop => .fault cause (start + d) (stop + d)

def Scan.shift (d : Nat) (scan : Scan) : Scan := ⟨scan.lexemes.map (·.shift d), scan.ending.shift d⟩

lemma map_token_shift (d : Nat) (ls : List Lexeme) :
    (ls.map (·.shift d)).map Lexeme.token = ls.map Lexeme.token := by
  rw [List.map_map]
  rfl

namespace Lexer

variable {mode next : Mode} {pos begin stop d : Nat} {byte : UInt8} {bs rest : List UInt8}
  {completed ls : List Lexeme} {ending : Ending}

def Mode.shift (d : Nat) : Mode → Mode
  | .blank => .blank
  | .comment => .comment
  | .comma start => .comma (start + d)
  | .hash start => .hash (start + d)
  | .truth start value => .truth (start + d) value
  | .character start => .character (start + d)
  | .characterName start seen => .characterName (start + d) seen
  | .atom start seen => .atom (start + d) seen
  | .string start seen => .string (start + d) seen
  | .escape start seen => .escape (start + d) seen

def Move.shift (d : Nat) : Move → Move
  | .go completed next => .go (completed.map (·.shift d)) (next.shift d)
  | .stop ending => .stop (ending.shift d)

lemma start_shift (d pos : Nat) (byte : UInt8) :
    start (pos + d) byte = ((start pos byte).1.map (·.shift d), (start pos byte).2.shift d) := by
  have hsucc : pos + d + 1 = pos + 1 + d := by omega
  unfold start
  split_ifs
  all_goals simp [single, Lexeme.shift, Mode.shift, hsucc]

lemma follow_shift (d : Nat) (l : Lexeme) (pos : Nat) (byte : UInt8) :
    follow (l.shift d) (pos + d) byte = (follow l pos byte).shift d := by
  rw [follow, follow, start_shift]
  rfl

lemma followLiteral_shift (d : Nat) (value : Except ReadFault Literal) (begin pos : Nat)
    (byte : UInt8) : followLiteral value (begin + d) (pos + d) byte =
      (followLiteral value begin pos byte).shift d := by
  cases value with
  | error cause => rfl
  | ok literal => exact follow_shift d ⟨.literal literal, begin, pos⟩ pos byte

/-- The lexer uses positions for the positions of the tokens only. -/
lemma step_shift (d pos : Nat) (byte : UInt8) (mode : Mode) :
    step (pos + d) byte (mode.shift d) = (step pos byte mode).shift d := by
  have hsucc : pos + d + 1 = pos + 1 + d := by omega
  cases mode with
  | blank =>
    simp only [Mode.shift, step, start_shift]
    rfl
  | comment =>
    simp only [Mode.shift, step]
    split_ifs <;> rfl
  | comma begin =>
    simp only [Mode.shift, step]
    split_ifs
    · simp [Move.shift, Lexeme.shift, Mode.shift, hsucc]
    · exact follow_shift d ⟨.mark .unquote, begin, pos⟩ pos byte
  | hash begin =>
    simp only [Mode.shift, step]
    split_ifs
    all_goals simp [Move.shift, Mode.shift, Ending.shift, hsucc]
  | truth begin value =>
    simp only [Mode.shift, step]
    split_ifs
    · exact followLiteral_shift d _ begin pos byte
    · rfl
  | character begin => rfl
  | characterName begin seen =>
    simp only [Mode.shift, step]
    split_ifs
    · exact followLiteral_shift d _ begin pos byte
    · rfl
  | atom begin seen =>
    simp only [Mode.shift, step]
    split_ifs
    · exact followLiteral_shift d _ begin pos byte
    · rfl
  | string begin seen =>
    simp only [Mode.shift, step]
    split_ifs
    · cases stringValue seen.reverse <;>
        simp [Move.shift, Lexeme.shift, Mode.shift, Ending.shift, hsucc]
    · rfl
    · rfl
  | escape begin seen =>
    simp only [Mode.shift, step]
    cases escapeValue? byte <;> simp [Move.shift, Mode.shift, Ending.shift, hsucc]

lemma finish_shift (d pos : Nat) (mode : Mode) : finish (pos + d) (mode.shift d) =
    ((finish pos mode).1.map (·.shift d), (finish pos mode).2.shift d) := by
  have hliteral : ∀ (value : Except ReadFault Literal) (begin : Nat),
      finishLiteral value (begin + d) (pos + d) =
        ((finishLiteral value begin pos).1.map (·.shift d),
          (finishLiteral value begin pos).2.shift d) := by
    intro value begin
    cases value <;> rfl
  cases mode with
  | truth begin value => exact hliteral (.ok (.bool value)) begin
  | characterName begin seen => exact hliteral (characterValue seen.reverse) begin
  | atom begin seen => exact hliteral (atomValue seen.reverse) begin
  | _ => rfl

lemma scanFrom_shift (d : Nat) (mode : Mode) (pos : Nat) (bs : List UInt8) :
    scanFrom (mode.shift d) (pos + d) [] bs = (scanFrom mode pos [] bs).shift d := by
  induction bs generalizing mode pos with
  | nil =>
    rw [scanFrom_nil, scanFrom_nil, finish_shift]
    rfl
  | cons byte bs ih =>
    have hs := step_shift d pos byte mode
    cases hm : step pos byte mode with
    | stop ending =>
      rw [hm] at hs
      rw [scanFrom_stop hs, scanFrom_stop hm]
      rfl
    | go completed next =>
      rw [hm] at hs
      rw [scanFrom_go hs, scanFrom_go hm, show pos + d + 1 = pos + 1 + d by omega, ih]
      simp [Scan.shift, Scan.prepend]

/-! ## The end of a line -/

lemma mode_of_finish (hf : finish pos mode = ([], .endOfText stop)) :
    mode = .blank ∨ mode = .comment := by
  have hliteral : ∀ (value : Except ReadFault Literal) (begin : Nat),
      finishLiteral value begin pos ≠ ([], .endOfText stop) := by
    intro value begin
    cases value <;> simp [finishLiteral]
  cases mode with
  | blank => exact .inl rfl
  | comment => exact .inr rfl
  | truth begin value => exact absurd hf (hliteral (.ok (.bool value)) begin)
  | characterName begin seen => exact absurd hf (hliteral (characterValue seen.reverse) begin)
  | atom begin seen => exact absurd hf (hliteral (atomValue seen.reverse) begin)
  | _ => cases hf

/-- The tokens of a text without a fault are those of a line with the same bytes. -/
lemma scanFrom_line (hs : scanFrom mode pos [] bs = ⟨ls, .endOfText stop⟩) (rest : List UInt8) :
    scanFrom mode pos [] (bs ++ Byte.newline :: rest) =
      (scanFrom .blank (pos + bs.length + 1) [] rest).prepend ls := by
  induction bs generalizing mode pos ls with
  | nil =>
    rw [scanFrom_nil] at hs
    obtain ⟨hls, hend⟩ := Scan.mk.inj hs
    have hblank : step pos Byte.newline .blank = .go [] .blank := rfl
    rcases finish_cases mode pos with hnone | ⟨l, hl⟩
    · have hls' : ls = [] := hls.symm.trans hnone
      subst hls'
      have hstep : step pos Byte.newline mode = .go [] .blank := by
        rcases mode_of_finish (Prod.ext hls hend) with rfl | rfl <;> rfl
      exact scanFrom_go hstep rest
    · rw [hl.finish] at hls
      subst hls
      have hd : Delimited (Byte.newline :: rest) := rfl
      rw [List.nil_append, hl.scanFrom hd, scanFrom_go hblank, Scan.prepend_nil]
      rfl
  | cons byte bs ih =>
    have he := effect_step mode pos byte
    cases hm : step pos byte mode with
    | stop ending =>
      rw [hm] at he
      rw [scanFrom_stop hm] at hs
      cases he with
      | fault => cases hs
    | go completed next =>
      rw [scanFrom_go hm] at hs
      obtain ⟨rfl, hend⟩ := Scan.mk.inj hs
      have hscan : scanFrom next (pos + 1) [] bs =
          ⟨(scanFrom next (pos + 1) [] bs).lexemes, .endOfText stop⟩ := congrArg (Scan.mk _) hend
      rw [List.cons_append, scanFrom_go hm, ih hscan, Scan.prepend_prepend, List.length_cons,
        show pos + 1 + bs.length + 1 = pos + (bs.length + 1) + 1 by omega]

end Lexer

/-! ## The text of a list -/

/-- Some texts, a line each, and the end of a list. -/
def lines (texts : List String) : String := texts.foldr (fun s later => s ++ "\n" ++ later) ")"

/-- The text of a list with a line for each element. -/
def listText (texts : List String) : String := "(" ++ lines texts

/-- The tokens of the text stand for one tree. -/
def Spells (s : String) (t : Tree) : Prop :=
  ∃ ls stop, Scan.ofString s 0 = ⟨ls, .endOfText stop⟩ ∧
    Grammar.Derives .datum (ls.map Lexeme.token) t

namespace Reader

open Lexer Heap HeapM

variable {s : String} {texts : List String} {ts : List Tree} {t : Tree} {h k : Heap} {v : Handle}

lemma scanFrom_lines (hall : List.Forall₂ Spells texts ts)
    (hdot : ∀ t ∈ ts, t ≠ .leaf (.symbol ".")) (pos : Nat) (nonempty : Bool) :
    ∃ ls, scanFrom .blank pos [] (bytes (lines texts)) =
        ⟨ls, .endOfText (pos + (bytes (lines texts)).length)⟩ ∧
      (∀ before, stopAfter before ls = pos + (bytes (lines texts)).length) ∧
      Grammar.Derives (.items nonempty) (ls.map Lexeme.token) (.list ts .emptyList) := by
  induction hall generalizing pos nonempty with
  | nil =>
    have hlines : bytes (lines []) = [Byte.closing] := bytes_closing
    rw [hlines, scanFrom_closing]
    exact ⟨[⟨.closing, pos, pos + 1⟩], rfl, fun _ => rfl, .closing nonempty⟩
  | @cons s t texts ts hs _ ih =>
    obtain ⟨ls, stop, hscan, hd⟩ := hs
    obtain ⟨later, hlater, hstop, hds⟩ := ih (fun u hu => hdot u (by simp [hu]))
      (pos + (bytes s).length + 1) true
    have hnewline : bytes "\n" = [Byte.newline] := by decide +kernel
    have hlines : bytes (lines (s :: texts)) = bytes s ++ Byte.newline :: bytes (lines texts) := by
      rw [lines, List.foldr_cons, bytes_append, bytes_append, hnewline, List.append_assoc]
      rfl
    have hshift : scanFrom .blank pos [] (bytes s) =
        ⟨ls.map (·.shift pos), .endOfText (stop + pos)⟩ := by
      have hs := scanFrom_shift pos .blank 0 (bytes s)
      rw [Nat.zero_add] at hs
      exact hs.trans (congrArg (Scan.shift pos) hscan)
    have hlen : pos + (bytes s).length + 1 + (bytes (lines texts)).length =
        pos + (bytes s ++ Byte.newline :: bytes (lines texts)).length := by
      rw [List.length_append, List.length_cons]
      omega
    rw [hlen] at hlater hstop
    rw [hlines]
    refine ⟨ls.map (·.shift pos) ++ later, ?_, fun before => ?_, ?_⟩
    · rw [scanFrom_line hshift, hlater]
      rfl
    · rw [stopAfter_append, hstop]
    · rw [List.map_append, map_token_shift, list_cons]
      refine .element (fun hls => hdot t (by simp) ?_) hd hds
      rw [hls] at hd
      cases hd
      rfl

/-- The grammar finds the list in its text, and nothing after it. -/
lemma parse_listText (hall : List.Forall₂ Spells texts ts)
    (hdot : ∀ t ∈ ts, t ≠ .leaf (.symbol ".")) :
    Grammar.parse (Scan.ofString (listText texts) 0) =
      .ok (some ⟨.list ts .emptyList, (bytes (listText texts)).length,
        ⟨[], .endOfText (bytes (listText texts)).length⟩⟩) := by
  obtain ⟨ls, hscan, hstop, hd⟩ := scanFrom_lines hall hdot 1 false
  have hbytes : bytes (listText texts) = Byte.opening :: bytes (lines texts) := by
    rw [listText, bytes_append, bytes_opening]
    rfl
  have hlist : Scan.ofString (listText texts) 0 =
      ⟨⟨.opening, 0, 1⟩ :: ls ++ [], .endOfText (bytes (listText texts)).length⟩ := by
    show scanFrom .blank 0 [] (bytes (listText texts)) = _
    have hs : step 0 Byte.opening .blank = .go (single .opening 0) .blank := rfl
    rw [hbytes, scanFrom_go hs, hscan, List.append_nil, List.length_cons, Nat.add_comm 1]
    rfl
  have hdatum : Grammar.Derives .datum
      ((⟨.opening, 0, 1⟩ :: ls : List Lexeme).map Lexeme.token) (.list ts .emptyList) := .list hd
  rw [hlist, hdatum.parse_eq (_ :: ls) [], stopAfter_cons, hstop, hbytes, List.length_cons,
    Nat.add_comm 1]

/-! ## Data that are read alone -/

/-- Read alone, the text is one datum, the object at `v` of the heap `k`, and then there is no
other. -/
inductive Alone (s : String) (k : Heap) (v : Handle) : Prop
  | intro {h l : Heap} {x : Reading} (hw : h.WellFormed)
      (hroom : h.roots.size + (Grammar.nesting (Scan.ofString s 0) + 2) ≤ h.rootSlots)
      (hread : HeapM.read (Scan.ofString s 0) h = .ok (some x) k) (hv : x.datum = v)
      (hend : HeapM.read (Scan.ofString s x.stop) k = .ok none l)

lemma Alone.exists_tree (ha : Alone s k v) : ∃ t, Spells s t ∧ k.Unfolds t v := by
  obtain ⟨hw, hroom, hread, rfl, hend⟩ := ha
  obtain ⟨-, -, hrest, -⟩ := read_ofBytes hread
  obtain ⟨hnone, stop, hstop⟩ := read_eq_none hend
  have hgrammar := reads_read hw hroom
  rw [hread] at hgrammar
  obtain ⟨⟨t, hparse, ht⟩, -⟩ := hgrammar
  obtain ⟨front, hl, he, -, hd⟩ := Grammar.derives_of_parse hparse
  have hleft : ‹Reading›.rest = ⟨[], .endOfText stop⟩ := hrest.trans (congrArg₂ Scan.mk hnone hstop)
  dsimp only at hl he hd
  rw [hleft, List.append_nil] at hl
  rw [hleft] at he
  exact ⟨t, ⟨front, stop, congrArg₂ Scan.mk hl he.symm, hd⟩, ht⟩

lemma alone_of_parse {stop stop' : Nat} (hw : h.WellFormed)
    (hroom : h.roots.size + (Grammar.nesting (Scan.ofString s 0) + 2) ≤ h.rootSlots)
    (hparse : Grammar.parse (Scan.ofString s 0) = .ok (some ⟨t, stop, ⟨[], .endOfText stop'⟩⟩))
    (hcells : h.used + t.cells ≤ h.capacity) :
    ∃ k v, Alone s k v ∧ k.Unfolds t v ∧ k.WellFormed := by
  obtain ⟨x, k, hx, ht, -, hrest, hi⟩ := read_of_parse hw hroom hparse hcells
  obtain ⟨-, -, hleft, -⟩ := read_ofBytes hx
  have hend : HeapM.read (Scan.ofString s x.stop) k = .ok none k := by
    rw [show Scan.ofString s x.stop = ⟨[], .endOfText stop'⟩ from hleft.symm.trans hrest]
    rfl
  exact ⟨k, x.datum, ⟨hw, hroom, hx, rfl, hend⟩, ht, hi.wellFormed⟩

/-- If each of some texts is one datum that is not the symbol `.`, then their lines in parentheses
are, wherever there is memory for it, one proper list of data of the same trees, and nothing after
it. -/
theorem list_reads_elements {texts : List String} {alone : List (Heap × Handle)}
    (halone : List.Forall₂ (fun s datum => Alone s datum.1 datum.2) texts alone)
    (hdot : ∀ datum ∈ alone, datum.1.findSymbol "." ≠ some datum.2) :
    ∃ ts, List.Forall₂ (fun datum t => datum.1.Unfolds t datum.2) alone ts ∧
      ∀ h : Heap, h.WellFormed →
        h.roots.size + (Grammar.nesting (Scan.ofString (listText texts) 0) + 2) ≤ h.rootSlots →
        h.used + spineCells ts ≤ h.capacity →
        ∃ x k, HeapM.read (Scan.ofString (listText texts) 0) h = .ok (some x) k ∧
          k.Unfolds (.list ts .emptyList) x.datum ∧ x.stop = (listText texts).utf8ByteSize ∧
          HeapM.read (Scan.ofString (listText texts) x.stop) k = .ok none k ∧ h.Intact k := by
  have htrees : ∃ ts, List.Forall₂ Spells texts ts ∧ (∀ t ∈ ts, t ≠ .leaf (.symbol ".")) ∧
      List.Forall₂ (fun datum t => datum.1.Unfolds t datum.2) alone ts := by
    induction halone with
    | nil => exact ⟨[], .nil, by simp, .nil⟩
    | @cons s datum texts alone ha _ ih =>
      obtain ⟨ts, hspells, hts, hunfolds⟩ := ih fun d hd => hdot d (by simp [hd])
      obtain ⟨t, hs, ht⟩ := ha.exists_tree
      refine ⟨t :: ts, .cons hs hspells, fun u hu => ?_, .cons ht hunfolds⟩
      rcases List.mem_cons.mp hu with rfl | hu
      · rintro rfl
        exact hdot datum (by simp) ht
      · exact hts u hu
  obtain ⟨ts, hspells, hts, hunfolds⟩ := htrees
  refine ⟨ts, hunfolds, fun h hw hroom hcells => ?_⟩
  have hparse := parse_listText hspells hts
  have hlist : (Tree.list ts .emptyList).cells = spineCells ts := cells_list ts .emptyList
  obtain ⟨x, k, hx, hu, hstop, hrest, hi⟩ :=
    read_of_parse hw hroom hparse (by rw [hlist]; exact hcells)
  obtain ⟨-, -, hleft, -⟩ := read_ofBytes hx
  refine ⟨x, k, hx, hu, hstop.trans (length_bytes _), ?_, hi⟩
  rw [show Scan.ofString (listText texts) x.stop = _ from hleft.symm.trans hrest]
  rfl

/-- What is no pair is made of one cell at most. -/
lemma cells_le_one {t : Tree} {v : Handle} (ht : k.Unfolds t v)
    (hv : ∀ a b, k.object? v ≠ some (.pair a b)) : t.cells ≤ 1 := by
  cases t with
  | emptyList => exact Nat.zero_le _
  | leaf l =>
    rw [Tree.cells]
    split <;> omega
  | pair a b =>
    obtain ⟨x, y, hp, -⟩ := ht
    exact absurd hp (hv x y)

/-- A number in an arena that nothing else uses. -/
lemma exists_alone_int (n : Int64) (stop : Nat) (hroom :
      filled.roots.size + (Grammar.nesting (Scan.ofString s 0) + 2) ≤ filled.rootSlots)
    (hparse : Grammar.parse (Scan.ofString s 0) =
      .ok (some ⟨.leaf (.int n), stop, ⟨[], .endOfText s.utf8ByteSize⟩⟩)) :
    ∃ k v, Alone s k v ∧ k.object? v = some (.int n) ∧ k.findSymbol "." ≠ some v := by
  have hcells : filled.used + (Tree.leaf (.int n)).cells ≤ filled.capacity := by
    have hcapacity : filled.capacity = 6 := rfl
    rw [used_filled, hcapacity, Tree.cells]
    split <;> omega
  obtain ⟨k, v, ha, hv, hw⟩ := alone_of_parse wellFormed_filled hroom hparse hcells
  have hint : k.object? v = some (.int n) := hv
  refine ⟨k, v, ha, hint, fun hf => ?_⟩
  cases hint.symm.trans (hw.table "." v hf).2

/-- A comment behind an element does not swallow the rest of the list. -/
theorem list_reads_elements_commented : ∃ k v k' v',
    Alone "7;seven" k v ∧ k.findSymbol "." ≠ some v ∧ Alone "8" k' v' ∧
    k'.findSymbol "." ≠ some v' ∧
    ∃ t t' x l, k.Unfolds t v ∧ k'.Unfolds t' v' ∧
      HeapM.read (Scan.ofString (listText ["7;seven", "8"]) 0) filled = .ok (some x) l ∧
      l.Unfolds (.list [t, t'] .emptyList) x.datum ∧ x.stop = 12 := by
  have hscan : Scan.ofString "7;seven" 0 = ⟨[⟨.literal (.int 7), 0, 1⟩], .endOfText 7⟩ := by
    decide +kernel
  have hscan' : Scan.ofString "8" 0 = ⟨[⟨.literal (.int 8), 0, 1⟩], .endOfText 1⟩ := by
    decide +kernel
  have hlist : Grammar.nesting (Scan.ofString (listText ["7;seven", "8"]) 0) = 1 := by
    decide +kernel
  obtain ⟨k, v, ha, hv, hd⟩ := exists_alone_int (s := "7;seven") 7 1 (by rw [hscan]; decide)
    (by rw [hscan]; simp only [Grammar.parse, Grammar.datum]; rfl)
  obtain ⟨k', v', ha', hv', hd'⟩ := exists_alone_int (s := "8") 8 1 (by rw [hscan']; decide)
    (by rw [hscan']; simp only [Grammar.parse, Grammar.datum]; rfl)
  have halone : List.Forall₂ (fun s (datum : Heap × Handle) => Alone s datum.1 datum.2)
      ["7;seven", "8"] [(k, v), (k', v')] := .cons ha (.cons ha' .nil)
  obtain ⟨ts, hts, hread⟩ := list_reads_elements halone (by simp [hd, hd'])
  obtain ⟨t, ts₁, ht, hts₁, rfl⟩ := List.forall₂_cons_left_iff.mp hts
  obtain ⟨t', ts₂, ht', hts₂, rfl⟩ := List.forall₂_cons_left_iff.mp hts₁
  obtain rfl := List.forall₂_nil_left_iff.mp hts₂
  have hcells : t.cells ≤ 1 := cells_le_one ht fun a b hp => by cases hv.symm.trans hp
  have hcells' : t'.cells ≤ 1 := cells_le_one ht' fun a b hp => by cases hv'.symm.trans hp
  have hcapacity : filled.capacity = 6 := rfl
  obtain ⟨x, l, hx, hu, hstop, -⟩ := hread filled wellFormed_filled (by rw [hlist]; decide)
    (by rw [used_filled, hcapacity, spineCells_cons, spineCells_cons, spineCells_nil]; omega)
  exact ⟨k, v, k', v', ha, hd, ha', hd', t, t', x, l, ht, ht', hx, hu,
    hstop.trans (by decide +kernel)⟩

/-- The symbol `.` is one datum on its own, but its line in parentheses is no list: the dot has
nothing in front of it. -/
theorem lone_dot_not_listed : (∃ k v, Alone "." k v) ∧ filled.WellFormed ∧
    filled.roots.size + (Grammar.nesting (Scan.ofString (listText ["."]) 0) + 2) ≤
      filled.rootSlots ∧
    filled.used + spineCells [.leaf (.symbol ".")] ≤ filled.capacity ∧
    ∃ k, HeapM.read (Scan.ofString (listText ["."]) 0) filled =
      .error (.ofFault .nothingBeforeDot 1) k := by
  have hscan : Scan.ofString "." 0 = ⟨[⟨.literal (.symbol "."), 0, 1⟩], .endOfText 1⟩ := by
    decide +kernel
  have hlist : Scan.ofString (listText ["."]) 0 =
      ⟨[⟨.opening, 0, 1⟩, ⟨.literal (.symbol "."), 1, 2⟩, ⟨.closing, 3, 4⟩], .endOfText 4⟩ := by
    decide +kernel
  have hparse : Grammar.parse (Scan.ofString "." 0) =
      .ok (some ⟨.leaf (.symbol "."), 1, ⟨[], .endOfText 1⟩⟩) := by
    rw [hscan]
    simp only [Grammar.parse, Grammar.datum]
    rfl
  obtain ⟨k, v, ha, -, -⟩ := alone_of_parse wellFormed_filled (by rw [hscan]; decide) hparse
    (by rw [used_filled]; decide)
  refine ⟨⟨k, v, ha⟩, wellFormed_filled, by rw [hlist]; decide, by rw [used_filled]; decide, ?_⟩
  rw [hlist]
  exact ⟨_, rfl⟩

end Reader

end ArenaScheme
