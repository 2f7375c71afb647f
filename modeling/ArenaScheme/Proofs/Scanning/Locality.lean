/-
# Reading makes progress and is local

A datum is read from its own tokens, and the tokens are found without a look beyond the delimiter
after the last of them.  So two texts that agree up to the place where a reading stops, and of which
the second goes on with a delimiter there, are read alike.  On the same heap that means the same
objects made in the same cells; on any other heap it means a datum that unfolds into the same tree.

Every reading stops further on than it has started, so that a text is read datum by datum in a
number of readings that its length bounds.
-/
import ArenaScheme.Proofs.Discipline.Rules
import ArenaScheme.Proofs.Scanning.Tokens

namespace ArenaScheme

open Text Lexer

namespace Reader

open Heap HeapM

variable {α : Type} {ending : Ending} {goal : Goal} {pending : List Pending} {lexemes : List Lexeme}
  {h k : Heap} {x : Reading} {bs : List UInt8} {pos : Nat}

/-! ## The tokens of a datum -/

/-- Giving up does not give a datum. -/
lemma refuse_ne_ok {fault : ReadFault} {position : Nat} {a : α} :
    refuse goal pending fault position h ≠ .ok a k := by
  intro hr
  rw [refuse] at hr
  obtain ⟨-, l, -, hf⟩ := bind_eq_ok.mp hr
  cases hf

lemma finish_ne_some {a : α} : finish ending goal pending h ≠ .ok (some a) k := by
  intro hf
  unfold finish at hf
  split at hf
  · cases hf
  · exact refuse_ne_ok hf
  · exact refuse_ne_ok hf
  · exact refuse_ne_ok hf

/-- A datum is read from the tokens in front of what is left.  In front of anything else the same
tokens give the same datum. -/
lemma readFrom_some (hr : readFrom ending goal pending lexemes h = .ok (some x) k) :
    ∃ front, front ≠ [] ∧ lexemes = front ++ x.rest.lexemes ∧ x.rest.ending = ending ∧
      (∀ pos, x.stop = stopAfter pos front) ∧
      ∀ other : Scan, readFrom other.ending goal pending (front ++ other.lexemes) h =
        .ok (some ⟨x.datum, x.stop, other⟩) k := by
  induction lexemes generalizing goal pending h with
  | nil => exact absurd hr finish_ne_some
  | cons lexeme rest ih =>
    rw [readFrom] at hr
    obtain ⟨p, l, ht, hp⟩ := bind_eq_ok.mp hr
    cases p with
    | done v =>
      cases hp
      refine ⟨[lexeme], by simp, rfl, rfl, fun _ => rfl, fun other => ?_⟩
      rw [List.singleton_append, readFrom, bind_of_ok ht]
      rfl
    | more goal' pending' =>
      obtain ⟨front, -, hl, he, hstop, hother⟩ := ih hp
      refine ⟨lexeme :: front, by simp, congrArg _ hl, he, fun _ => hstop _, fun other => ?_⟩
      rw [List.cons_append, readFrom, bind_of_ok ht]
      exact hother other

/-- What reading a datum from a text has to do with the bytes of the text. -/
lemma read_ofBytes (hr : HeapM.read (Scan.ofBytes bs pos) h = .ok (some x) k) :
    pos < x.stop ∧ x.stop ≤ bs.length ∧ x.rest = Scan.ofBytes bs x.stop ∧
      ∀ bs', bs'.take x.stop = bs.take x.stop → Delimited (bs'.drop x.stop) →
        HeapM.read (Scan.ofBytes bs' pos) h =
          .ok (some ⟨x.datum, x.stop, Scan.ofBytes bs' x.stop⟩) k := by
  obtain ⟨front, hne, hl, he, hstop, hother⟩ := readFrom_some hr
  have hs : scanFrom .blank pos [] (bs.drop pos) = ⟨front ++ x.rest.lexemes, x.rest.ending⟩ :=
    congrArg₂ Scan.mk hl he.symm
  obtain ⟨n, hn, hlen, hafter, hleft, hcut⟩ := scanFrom_split hs
  obtain hx : x.stop = pos + n := (hstop pos).trans hafter
  have hpos : 0 < n := Nat.lt_of_lt_of_le (List.length_pos_of_ne_nil hne) hlen
  rw [List.length_drop] at hn
  refine ⟨by omega, by omega, ?_, fun bs' htake hd => ?_⟩
  · rw [Scan.ofBytes, hx, ← List.drop_drop, hleft]
  · -- the two texts have the same bytes between `pos` and the end of the datum
    have hsame : (bs'.drop pos).take n = (bs.drop pos).take n := by
      rw [List.take_drop, List.take_drop, ← hx, htake]
    have hscan : Scan.ofBytes bs' pos = (Scan.ofBytes bs' x.stop).prepend front := by
      rw [Scan.ofBytes, ← List.take_append_drop n (bs'.drop pos), hsame, List.drop_drop, ← hx,
        hcut _ hd, ← hx]
      rfl
    rw [hscan]
    exact hother (Scan.ofBytes bs' x.stop)

/-! ## Other texts and other heaps -/

/-- The other text has the same bytes up to a position, and there it ends or goes on with a
delimiter. -/
structure AgreesUpTo (stop : Nat) (s other : String) : Prop where
  same : (bytes other).take stop = (bytes s).take stop
  delimited : Delimited ((bytes other).drop stop)

/-- There are slots for the lists between two positions of a text, and two more. -/
def Spacious (h : Heap) (s : String) (pos stop : Nat) : Prop :=
  h.roots.size + (Grammar.nesting (Scan.ofBytes ((bytes s).take stop) pos) + 2) ≤ h.rootSlots

/-- Reading the text from `pos` gives a datum of the tree, stops at `stop`, and leaves the rest of
the text and all that could be reached. -/
def Obtains (h : Heap) (s : String) (pos : Nat) (t : Tree) (stop : Nat) : Prop :=
  ∃ x k, HeapM.read (Scan.ofString s pos) h = .ok (some x) k ∧ k.Unfolds t x.datum ∧ x.stop = stop ∧
    x.rest = Scan.ofString s stop ∧ h.Intact k

variable {s : String}

/-- A datum has a tree, and wherever there is memory for it the same datum is read from the same
text. -/
lemma exists_tree (hr : HeapM.read (Scan.ofString s pos) h = .ok (some x) k) (hw : h.WellFormed)
    (hroom : Spacious h s pos x.stop) :
    ∃ t, k.Unfolds t x.datum ∧ ∀ other, AgreesUpTo x.stop s other →
      ∀ l : Heap, l.WellFormed → Spacious l s pos x.stop → l.used + t.cells ≤ l.capacity →
        Obtains l other pos t x.stop := by
  set start := (bytes s).take x.stop with hstart
  obtain ⟨-, hsize, -, hother⟩ := read_ofBytes hr
  -- the bytes of the datum, without what follows them, are a text that is read like `s`
  have hlen : start.length = x.stop := by
    rw [hstart, List.length_take]
    exact Nat.min_eq_left hsize
  have hcut : start.take x.stop = (bytes s).take x.stop := by
    rw [hstart, List.take_take, Nat.min_self]
  have hend : start.drop x.stop = [] := List.drop_eq_nil_of_le (Nat.le_of_eq hlen)
  have hread := hother start hcut (by rw [hend]; trivial)
  have hgrammar := reads_read hw hroom
  rw [hread] at hgrammar
  obtain ⟨⟨t, hparse, ht⟩, -⟩ := hgrammar
  refine ⟨t, ht, fun other ha l hl hroom' hcells => ?_⟩
  obtain ⟨y, m, hy, htree, hstop, -, hintact⟩ := read_of_parse hl hroom' hparse hcells
  obtain ⟨-, -, -, hagain⟩ := read_ofBytes hy
  rw [hstop] at hagain
  exact ⟨_, m, hagain (bytes other) (ha.same.trans hcut.symm) ha.delimited, htree, rfl,
    rfl, hintact⟩

/-! ## Datum by datum -/

/-- Reading data one after another, each from where the one before has stopped and on whatever heap
there is by then: from `pos` on `n` data have been read, and the next is to be read from `stop`
on. -/
inductive Stages (s : String) : Nat → Nat → Nat → Prop
  | none (pos : Nat) : Stages s pos 0 pos
  | next {pos n stop : Nat} {h k : Heap} {x : Reading}
      (hr : HeapM.read (Scan.ofString s pos) h = .ok (some x) k) (hs : Stages s x.stop n stop) :
      Stages s pos (n + 1) stop

lemma Stages.bounded {n stop : Nat} (hs : Stages s pos n stop) :
    pos + n ≤ stop ∧ (0 < n → stop ≤ (bytes s).length) := by
  induction hs with
  | none pos => exact ⟨Nat.le_refl _, fun hn => absurd hn (by decide)⟩
  | @next pos n stop h k x hr hs ih =>
    obtain ⟨hlt, hle, -⟩ := read_ofBytes hr
    refine ⟨by omega, fun _ => ?_⟩
    cases hs with
    | none => exact hle
    | next => exact ih.2 (Nat.succ_pos _)

/-! ## Progress and locality -/

/-- A reading that gives a datum stops further on in the text, where the rest of the text begins.
Any text that agrees with the first one up to there, and goes on with a delimiter or ends, is read
to the same object in the same heap; and on any other heap, if there is memory for the datum, it is
read to a datum of the same tree, up to the same position.  So a text has no more data than bytes
from where the first reading starts. -/
theorem reading_progresses_locally (s : String) (pos : Nat) :
    (∀ h k x, HeapM.read (Scan.ofString s pos) h = .ok (some x) k →
      pos < x.stop ∧ x.stop ≤ s.utf8ByteSize ∧ x.rest = Scan.ofString s x.stop ∧
      (∀ other, AgreesUpTo x.stop s other → HeapM.read (Scan.ofString other pos) h =
        .ok (some ⟨x.datum, x.stop, Scan.ofString other x.stop⟩) k) ∧
      (h.WellFormed → Spacious h s pos x.stop → ∃ t, k.Unfolds t x.datum ∧
        ∀ other, AgreesUpTo x.stop s other → ∀ l : Heap, l.WellFormed → Spacious l s pos x.stop →
          l.used + t.cells ≤ l.capacity → Obtains l other pos t x.stop)) ∧
    ∀ n stop, Stages s pos n stop → pos + n ≤ stop ∧ (0 < n → stop ≤ s.utf8ByteSize) := by
  rw [← length_bytes]
  refine ⟨fun h k x hr => ?_, fun n stop hs => hs.bounded⟩
  obtain ⟨hlt, hle, hrest, hother⟩ := read_ofBytes hr
  exact ⟨hlt, hle, hrest, fun other ha => hother (bytes other) ha.same ha.delimited,
    fun hw hroom => exists_tree hr hw hroom⟩

/-- The sentinels are as they were. -/
lemma hasSentinels_of_intact (hi : h.Intact k) (hs : h.HasSentinels) : k.HasSentinels :=
  fun v hv => by
  rw [← hs v hv, object?, object?]
  exact congrArg _ (hi.cells v (.anchor (.sentinel hv)))

/-- A list in a list that is followed by the end of another one in one text, and by a comment in
another.  In the other arena, too, there is room for it. -/
theorem reading_progresses_locally_commented : ∃ x k,
    HeapM.read (Scan.ofString "(1 (2)))" 0) filled = .ok (some x) k ∧ 0 < x.stop ∧ x.stop = 7 ∧
    AgreesUpTo 7 "(1 (2)))" "(1 (2));8" ∧
    HeapM.read (Scan.ofString "(1 (2));8" 0) filled =
      .ok (some ⟨x.datum, 7, Scan.ofString "(1 (2));8" 7⟩) k ∧
    k.Unfolds nested x.datum ∧ Obtains littered "(1 (2));8" 0 nested 7 := by
  have hscan : Scan.ofString "(1 (2)))" 0 =
      ⟨[⟨.opening, 0, 1⟩, ⟨.literal (.int 1), 1, 2⟩, ⟨.opening, 3, 4⟩, ⟨.literal (.int 2), 4, 5⟩,
        ⟨.closing, 5, 6⟩, ⟨.closing, 6, 7⟩, ⟨.closing, 7, 8⟩], .endOfText 8⟩ := by decide +kernel
  have hparse : Grammar.parse (Scan.ofString "(1 (2)))" 0) =
      .ok (some ⟨nested, 7, ⟨[⟨.closing, 7, 8⟩], .endOfText 8⟩⟩) := by
    rw [← Parser.run_eq_parse, hscan]
    rfl
  have hbytes : (bytes "(1 (2));8").drop 7 = [Byte.semicolon, 0x38] := by decide +kernel
  have hagrees : AgreesUpTo 7 "(1 (2)))" "(1 (2));8" :=
    ⟨by decide +kernel, by rw [hbytes]; rfl⟩
  obtain ⟨x, k, hx, hu, hstop, -, hi⟩ := read_of_parse wellFormed_filled (by rw [hscan]; decide)
    hparse (by rw [used_filled]; decide)
  obtain ⟨hpos, -, -, hsame, htree⟩ := (reading_progresses_locally "(1 (2)))" 0).1 _ _ _ hx
  rw [hstop] at hsame htree
  have hroom : ∀ h : Heap, h.roots.size = 0 → 4 ≤ h.rootSlots → Spacious h "(1 (2)))" 0 7 := by
    intro h h₁ h₂
    have hn : Grammar.nesting (Scan.ofBytes ((bytes "(1 (2)))").take 7) 0) = 2 := by
      decide +kernel
    rw [Spacious, hn, h₁]
    exact h₂
  obtain ⟨t, ht, hother⟩ := htree wellFormed_filled (hroom _ rfl (by decide))
  obtain rfl : t = nested := Printer.unfolds_unique hi.wellFormed
    (hasSentinels_of_intact hi hasSentinels_filled) ht hu
  refine ⟨x, k, hx, hpos, hstop, hagrees, hsame _ hagrees, ht, ?_⟩
  exact hother _ hagrees littered wellFormed_littered (hroom _ rfl (by decide))
    (by rw [used_littered]; decide)

end Reader

end ArenaScheme
