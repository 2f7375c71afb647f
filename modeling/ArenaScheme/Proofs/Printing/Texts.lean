/-
# The printed form of a tree

The printed form of an object that unfolds into a tree depends on the tree only.  The cursor that
follows the printing along a spine stays behind it for ever, since the cells of a spine that ends
are at different distances from its end.  And nothing is cut off if the tree is nested no deeper
than what is printed.
-/
import ArenaScheme.Proofs.Reading.Trees
import ArenaScheme.Proofs.WellFormed
import ArenaScheme.Proofs.Walks

namespace ArenaScheme

/-- The printed form of a literal. -/
def Literal.text : Literal → String
  | bool b => if b then "#t" else "#f"
  | int n => toString n.toInt
  | real x => Number.fixedText x
  | char byte => Printer.charText byte
  | str s => Printer.stringText s
  | symbol name => name

/-- What the cell of a literal holds. -/
def Literal.toDatum : Literal → Datum
  | bool b => .bool b
  | int n => .int n
  | real x => .real x
  | char byte => .char byte
  | str s => .str s
  | symbol name => .symbol name

namespace Tree

mutual

/-- The printed form of a datum. -/
def text : Tree → String
  | emptyList => "()"
  | leaf l => l.text
  | pair a b => "(" ++ a.text ++ b.tailText

/-- The printed form of the rest of a list. -/
def tailText : Tree → String
  | emptyList => ")"
  | leaf l => " . " ++ l.text ++ ")"
  | pair a b => " " ++ a.text ++ b.tailText

end

mutual

/-- How deeply the parts of a datum are nested when it is printed.  What comes after a dot is one
level deeper than the list, as its elements are. -/
def depth : Tree → Nat
  | emptyList | leaf _ => 0
  | pair a b => max (a.depth + 1) b.tailDepth

/-- How deeply the parts of the rest of a list are nested. -/
def tailDepth : Tree → Nat
  | emptyList => 0
  | leaf _ => 1
  | pair a b => max (a.depth + 1) b.tailDepth

end

/-- The number of pairs of the spine. -/
def spine : Tree → Nat
  | emptyList | leaf _ => 0
  | pair _ b => b.spine + 1

end Tree

namespace Printer

open Heap

variable {h : Heap} {t : Tree} {l : Literal} {v slow : Handle} {n m levels : Nat}

/-! ## The cells of a datum -/

lemma read_emptyList (hs : h.HasSentinels) : h.read .emptyList = .ok .emptyList :=
  read_of_object? (hs .emptyList (by decide))

/-- The cell of a literal can be read. -/
lemma object?_literal (hw : h.WellFormed) (hs : h.HasSentinels) (hl : h.IsLiteral l v) :
    h.object? v = some l.toDatum := by
  cases l with
  | bool b =>
    obtain rfl : v = .ofBool b := hl
    cases b
    · exact hs .falseObject (by decide)
    · exact hs .trueObject (by decide)
  | symbol name => exact (hw.table name v hl).2
  | _ => exact hl

/-- No two trees describe the same datum. -/
lemma unfolds_unique {u : Tree} (hw : h.WellFormed) (hs : h.HasSentinels) (ht : h.Unfolds t v)
    (hu : h.Unfolds u v) : t = u := by
  have hnil : h.object? .emptyList = some .emptyList := hs .emptyList (by decide)
  induction t generalizing u v with
  | emptyList =>
    obtain rfl : v = .emptyList := ht
    cases u with
    | emptyList => rfl
    | leaf m => cases m <;> cases hnil.symm.trans (object?_literal hw hs hu)
    | pair c d =>
      obtain ⟨_, _, hp, -⟩ := hu
      cases hnil.symm.trans hp
  | leaf l =>
    have hl : h.object? v = some l.toDatum := object?_literal hw hs ht
    cases u with
    | emptyList =>
      obtain rfl : v = .emptyList := hu
      cases l <;> cases hnil.symm.trans hl
    | leaf m =>
      have hm := hl.symm.trans (object?_literal hw hs hu)
      cases l <;> cases m <;> cases hm <;> rfl
    | pair c d =>
      obtain ⟨_, _, hp, -⟩ := hu
      cases l <;> cases hl.symm.trans hp
  | pair a b iha ihb =>
    obtain ⟨x, y, hp, ha, hb⟩ := ht
    cases u with
    | emptyList =>
      obtain rfl : v = .emptyList := hu
      cases hnil.symm.trans hp
    | leaf m => cases m <;> cases hp.symm.trans (object?_literal hw hs hu)
    | pair c d =>
      obtain ⟨_, _, hp', hc, hd⟩ := hu
      obtain ⟨rfl, rfl⟩ := Datum.pair.inj (Option.some.inj (hp.symm.trans hp'))
      rw [iha ha hc, ihb hb hd]

/-- The spine of a datum ends. -/
lemma ends_of_unfolds (hw : h.WellFormed) (hs : h.HasSentinels) (ht : h.Unfolds t v) :
    Ends (fun u => (h.pairAt u).map (·.2)) t.spine v := by
  induction t generalizing v with
  | emptyList =>
    obtain rfl : v = .emptyList := ht
    have hv : h.object? .emptyList = some .emptyList := hs .emptyList (by decide)
    simp [Ends, Tree.spine, pairAt, hv, Datum.pair?]
  | leaf l =>
    have hl : h.object? v = some l.toDatum := object?_literal hw hs ht
    cases l <;> simp [Ends, Tree.spine, pairAt, hl, Literal.toDatum, Datum.pair?]
  | pair a b _ ihb =>
    obtain ⟨x, y, hv, -, hb⟩ := ht
    exact ⟨y, by simp [pairAt_eq_some.mpr hv], ihb hb⟩

/-! ## Printing -/

/-- The rest of a list prints as the rest of the tree, if what is above the last levels does. -/
lemma spineText_eq_tailText (hw : h.WellFormed) (hs : h.HasSentinels)
    (he : ∀ t v, h.Unfolds t v → t.depth < levels → textAt h levels v = .ok t.text)
    (ht : h.Unfolds t v) (hd : t.tailDepth ≤ levels) (hn : t.spine < n) (due : Bool)
    (hm : Ends (fun u => (h.pairAt u).map (·.2)) m slow) (hlt : t.spine < m) (out : String) :
    spineText h (textAt h levels) n due slow v out = .ok (out ++ t.tailText) := by
  induction t generalizing v n m slow due out with
  | emptyList =>
    obtain rfl : v = .emptyList := ht
    obtain ⟨n, rfl⟩ : ∃ n', n = n' + 1 := ⟨n - 1, by omega⟩
    simp only [spineText, read_emptyList hs]
    rfl
  | leaf l =>
    obtain ⟨n, rfl⟩ : ∃ n', n = n' + 1 := ⟨n - 1, by omega⟩
    have hl : h.object? v = some l.toDatum := object?_literal hw hs ht
    have hel : textAt h levels v = .ok l.text :=
      he (.leaf l) v ht (Nat.lt_of_succ_le hd)
    simp only [spineText, read_of_object? hl]
    cases l <;> simp [Literal.toDatum, hel, bind, Except.bind, Tree.tailText, String.append_assoc]
  | pair a b _ ihb =>
    obtain ⟨x, y, hv, ha, hb⟩ := ht
    obtain ⟨n, rfl⟩ : ∃ n', n = n' + 1 := ⟨n - 1, by omega⟩
    obtain ⟨m, rfl⟩ : ∃ m', m = m' + 1 := ⟨m - 1, by omega⟩
    obtain ⟨hda, hdb⟩ : a.depth + 1 ≤ levels ∧ b.tailDepth ≤ levels := by
      simpa [Tree.tailDepth] using hd
    have hends := ends_of_unfolds hw hs (t := .pair a b) ⟨x, y, hv, ha, hb⟩
    -- the cursor is farther from the end
    have hne : v ≠ slow := by
      rintro rfl
      have := hends.unique hm
      omega
    obtain ⟨z, hz, hends'⟩ := id hm
    obtain ⟨⟨c, z⟩, hp, rfl⟩ := Option.map_eq_some_iff.mp hz
    simp only [spineText, read_of_object? hv, if_neg hne, he a x ha hda, bind, Except.bind]
    rw [Tree.spine] at hn hlt
    rw [Tree.tailText, ← String.append_assoc, ← String.append_assoc]
    cases due with
    | false => exact ihb hb hdb (by omega) _ hm (by omega) _
    | true =>
      simp only [if_true, cdr_of_pairAt hp]
      exact ihb hb hdb (by omega) _ hends' (by omega) _

/-- An object prints as the tree that it unfolds into, if that is not nested too deeply. -/
lemma textAt_eq_text (hw : h.WellFormed) (hs : h.HasSentinels) (ht : h.Unfolds t v)
    (hd : t.depth < levels) : textAt h levels v = .ok t.text := by
  induction levels generalizing t v with
  | zero => exact absurd hd (Nat.not_lt_zero _)
  | succ levels ih =>
    cases t with
    | emptyList =>
      obtain rfl : v = .emptyList := ht
      simp only [textAt, read_emptyList hs]
      rfl
    | leaf l =>
      have hl : h.object? v = some l.toDatum := object?_literal hw hs ht
      simp only [textAt, read_of_object? hl]
      cases l <;> rfl
    | pair a b =>
      have hends := ends_of_unfolds hw hs ht
      have hcells : (Tree.pair a b).spine ≤ h.cells.size := by
        refine hends.le fun u w hu => lt_size_of_pairAt ?_
        obtain ⟨p, hp, -⟩ := Option.map_eq_some_iff.mp hu
        exact Option.isSome_iff_exists.mpr ⟨p, hp⟩
      obtain ⟨x, y, hv, ha, hb⟩ := ht
      rw [Tree.depth] at hd
      rw [Tree.spine] at hends hcells
      simp only [textAt, read_of_object? hv, ih ha (by omega), bind, Except.bind]
      rw [spineText_eq_tailText hw hs (fun t v => ih) hb (by omega)
        (by omega) false hends (by omega)]
      rfl

/-- What is printed of an object of a heap. -/
lemma print_eq_text (hw : h.WellFormed) (hs : h.HasSentinels) (ht : h.Unfolds t v)
    (hd : t.depth ≤ 1000) : h.print v = .ok t.text :=
  textAt_eq_text hw hs ht (Nat.lt_succ_of_le hd)

end Printer

end ArenaScheme
