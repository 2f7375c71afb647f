/-
# Objects and free cells

A cell either holds an object or is a link of the list of free cells.  What a program can see of an
arena is the partial map from handles to objects, `Heap.object?`; the links of free cells do not
show in it.  Taking a cell into use changes that map at one handle, and so does reclaiming a cell.

The list of free cells is described by the sequence of their positions: `Heap.FreeList h l` says
that the list of `h` runs through the cells of `l` in this order and that every cell points back
to the one before it.
-/
import Mathlib.Tactic.Lemma
import Mathlib.Data.List.Nodup
import ArenaScheme.Heap.Basic

namespace ArenaScheme

lemma Datum.isFree_iff {d : Datum} : d.isFree = true ↔ ∃ p n, d = .free p n := by
  cases d <;> simp [Datum.isFree, Datum.type]

@[simp] lemma Datum.isFree_free (p n : Option Nat) : (Datum.free p n).isFree = true := rfl

namespace Heap

/-! ## The objects of a heap -/

/-- The object in a cell.  A free cell holds none, and neither does a position beyond the arena. -/
def object? (h : Heap) (v : Handle) : Option Datum := (h.cells[v.index]?).filter (!·.isFree)

lemma object?_eq_some {h : Heap} {v : Handle} {d : Datum} :
    h.object? v = some d ↔ h.cells[v.index]? = some d ∧ d.isFree = false := by
  simp [object?, Option.filter_eq_some_iff]

lemma isLive_iff {h : Heap} {v : Handle} : h.isLive v = true ↔ ∃ d, h.object? v = some d := by
  unfold isLive object?
  rcases h.cells[v.index]? with _ | d
  · simp
  · cases hd : d.isFree <;> simp [Option.filter, hd]

lemma isLive_of_object? {h : Heap} {v : Handle} {d : Datum} (hd : h.object? v = some d) :
    h.isLive v = true := isLive_iff.mpr ⟨d, hd⟩

lemma isLive_eq_isSome (h : Heap) (v : Handle) : h.isLive v = (h.object? v).isSome := by
  rw [Bool.eq_iff_iff, isLive_iff, Option.isSome_iff_exists]

lemma object?_eq_none_of_free {h : Heap} {v : Handle} {p n : Option Nat}
    (hf : h.cells[v.index]? = some (.free p n)) : h.object? v = none := by
  simp [object?, hf]

lemma lt_size_of_object? {h : Heap} {v : Handle} {d : Datum} (hd : h.object? v = some d) :
    v.index < h.cells.size :=
  (Array.getElem?_eq_some_iff.mp (object?_eq_some.mp hd).1).1

lemma read_of_object? {h : Heap} {v : Handle} {d : Datum} (hd : h.object? v = some d) :
    h.read v = .ok d := by
  rw [read, (object?_eq_some.mp hd).1]

lemma cells_of_read {h : Heap} {v : Handle} {d : Datum} (hr : h.read v = .ok d) :
    h.cells[v.index]? = some d := by
  unfold read at hr
  split at hr
  · next e he => rw [he, Except.ok.inj hr]
  · simp at hr

/-- A cell of the arena that holds no object is a link of a list of free cells. -/
lemma free_of_not_isLive {h : Heap} {i : Nat} (hi : i < h.cells.size)
    (hl : h.isLive ⟨i⟩ = false) : ∃ p n, h.cells[i]? = some (.free p n) := by
  have hc : h.cells[i]? = some h.cells[i] := Array.getElem?_eq_getElem hi
  simp only [isLive, hc, Bool.not_eq_false'] at hl
  obtain ⟨p, n, hd⟩ := Datum.isFree_iff.mp hl
  exact ⟨p, n, by rw [hc, hd]⟩

/-- `h'` differs from `h` at most in what the collectible cells hold and in the bookkeeping of the
free list and of collections. -/
structure SameFrame (h h' : Heap) : Prop where
  size : h'.cells.size = h.cells.size
  capacity : h'.capacity = h.capacity
  roots : h'.roots = h.roots
  rootSlots : h'.rootSlots = h.rootSlots
  symbols : h'.symbols = h.symbols
  baseEnv : h'.baseEnv = h.baseEnv
  currentEnv : h'.currentEnv = h.currentEnv
  audited : h'.audited = h.audited

namespace SameFrame

lemma refl (h : Heap) : SameFrame h h := ⟨rfl, rfl, rfl, rfl, rfl, rfl, rfl, rfl⟩

lemma trans {h h' h'' : Heap} (a : SameFrame h h') (b : SameFrame h' h'') : SameFrame h h'' :=
  ⟨b.size.trans a.size, b.capacity.trans a.capacity, b.roots.trans a.roots,
    b.rootSlots.trans a.rootSlots, b.symbols.trans a.symbols, b.baseEnv.trans a.baseEnv,
    b.currentEnv.trans a.currentEnv, b.audited.trans a.audited⟩

lemma regionEnd {h h' : Heap} (a : SameFrame h h') : h'.regionEnd = h.regionEnd := by
  rw [Heap.regionEnd, a.capacity, Heap.regionEnd]

lemma collectible {h h' : Heap} (a : SameFrame h h') {i : Nat} :
    h'.Collectible i ↔ h.Collectible i := by
  rw [Collectible, a.regionEnd, Collectible]

lemma setCell (h : Heap) (i : Nat) (d : Datum) : SameFrame h (h.setCell i d) :=
  ⟨by simp, rfl, rfl, rfl, rfl, rfl, rfl, rfl⟩

lemma setPrevious (h : Heap) (i : Nat) (p : Option Nat) : SameFrame h (h.setPrevious i p) := by
  unfold Heap.setPrevious
  split
  · exact .setCell ..
  · exact .refl h

lemma setHeadPrevious (h : Heap) (head p : Option Nat) :
    SameFrame h (h.setHeadPrevious head p) := by
  unfold Heap.setHeadPrevious
  split
  · exact .setPrevious ..
  · exact .refl h

end SameFrame

/-- Links are in the cells and nowhere else. -/
lemma setHeadPrevious_eq (h : Heap) (head p : Option Nat) :
    h.setHeadPrevious head p = { h with cells := (h.setHeadPrevious head p).cells } := by
  unfold setHeadPrevious
  split
  · unfold setPrevious
    split <;> rfl
  · rfl

lemma object?_setCell (h : Heap) {i : Nat} (hi : i < h.cells.size) (d : Datum) (v : Handle) :
    (h.setCell i d).object? v =
      if v.index = i then (if d.isFree then none else some d) else h.object? v := by
  by_cases hv : v.index = i
  · subst hv
    cases hd : d.isFree <;> simp [object?, setCell, hi, Option.filter, hd]
  · simp [object?, setCell, hv, Ne.symm hv]

/-! ## Links -/

/-- The cells `l` are a doubly linked list from `head` on, and `previous` is where the first of them
points back to. -/
def Linked (cells : Array Datum) : Option Nat → Option Nat → List Nat → Prop
  | _, head, [] => head = none
  | previous, head, i :: l =>
    head = some i ∧ ∃ next, cells[i]? = some (.free previous next) ∧ Linked cells (some i) next l

/-- The free list of the heap runs through the cells `l`. -/
def FreeList (h : Heap) (l : List Nat) : Prop := Linked h.cells none h.free l

lemma Linked.congr {cells cells' : Array Datum} {l : List Nat} {previous head : Option Nat}
    (hc : ∀ i ∈ l, cells'[i]? = cells[i]?) (hl : Linked cells previous head l) :
    Linked cells' previous head l := by
  induction l generalizing previous head with
  | nil => exact hl
  | cons i l ih =>
    obtain ⟨rfl, next, hi, hl⟩ := hl
    exact ⟨rfl, next, (hc i (by simp)).trans hi, ih (fun j hj => hc j (by simp [hj])) hl⟩

lemma Linked.free_of_mem {cells : Array Datum} {l : List Nat} {previous head : Option Nat}
    (hl : Linked cells previous head l) {i : Nat} (hi : i ∈ l) :
    ∃ p n, cells[i]? = some (.free p n) := by
  induction l generalizing previous head with
  | nil => simp at hi
  | cons j l ih =>
    obtain ⟨rfl, next, hj, hl⟩ := hl
    rcases List.mem_cons.mp hi with rfl | hi
    · exact ⟨_, _, hj⟩
    · exact ih hl hi

lemma FreeList.not_isLive {h : Heap} {l : List Nat} (hl : h.FreeList l) {i : Nat} (hi : i ∈ l) :
    h.isLive ⟨i⟩ = false := by
  obtain ⟨p, n, hf⟩ := Linked.free_of_mem hl hi
  simp [isLive, hf]

/-- Redirecting the backward link of the first cell of a list. -/
lemma Linked.setHeadPrevious {h : Heap} {l : List Nat} {p head : Option Nat}
    (hl : Linked h.cells p head l) (hn : l.Nodup) (p' : Option Nat) :
    Linked (h.setHeadPrevious head p').cells p' head l := by
  cases l with
  | nil => exact hl
  | cons i l =>
    obtain ⟨rfl, next, hi, hl⟩ := hl
    have hs : i < h.cells.size := (Array.getElem?_eq_some_iff.mp hi).1
    have hil : i ∉ l := (List.nodup_cons.mp hn).1
    simp only [Heap.setHeadPrevious, setPrevious, hi]
    refine ⟨rfl, next, by simp [hs], hl.congr fun j hj => ?_⟩
    have hij : i ≠ j := fun e => hil (e ▸ hj)
    simp [hij]

@[simp] lemma object?_setHeadPrevious (h : Heap) (head p : Option Nat) :
    (h.setHeadPrevious head p).object? = h.object? := by
  funext v
  unfold setHeadPrevious
  split
  · next i =>
    unfold setPrevious
    split
    · next hi =>
      rw [object?_setCell h (Array.getElem?_eq_some_iff.mp hi).1]
      split
      · next hv => subst hv; simp [object?_eq_none_of_free hi]
      · rfl
    · rfl
  · rfl

/-! ## Taking a cell into use and reclaiming a cell -/

/-- Taking the first free cell into use takes it off the list and changes no other object. -/
lemma claim_spec {h : Heap} {i : Nat} {l : List Nat} {d : Datum} (hl : h.FreeList (i :: l))
    (hn : (i :: l).Nodup) (hd : d.isFree = false) :
    ∃ h', h.claim i d = .ok h' ∧ h'.FreeList l ∧
      (∀ v, h'.object? v = if v.index = i then some d else h.object? v) ∧
      h'.freeCount = h.freeCount - 1 ∧ h'.collections = h.collections ∧ SameFrame h h' := by
  obtain ⟨_, next, hi, hl⟩ := hl
  have hs : i < h.cells.size := (Array.getElem?_eq_some_iff.mp hi).1
  have hil : i ∉ l := (List.nodup_cons.mp hn).1
  have hfr := SameFrame.setHeadPrevious h next none
  have hs' : i < (h.setHeadPrevious next none).cells.size := hfr.size ▸ hs
  refine ⟨_, by simp only [claim, hi]; rfl, ?_, fun v => ?_, ?_, ?_, ?_⟩
  · refine (hl.setHeadPrevious (List.nodup_cons.mp hn).2 none).congr fun j hj => ?_
    have hij : i ≠ j := fun e => hil (e ▸ hj)
    simp [hij]
  · change ((h.setHeadPrevious next none).setCell i d).object? v = _
    rw [object?_setCell _ hs', hd, object?_setHeadPrevious]
    simp
  · change (h.setHeadPrevious next none).freeCount - 1 = _
    rw [setHeadPrevious_eq]
  · change (h.setHeadPrevious next none).collections = _
    rw [setHeadPrevious_eq]
  · exact hfr.trans ⟨(SameFrame.setCell _ i d).size, rfl, rfl, rfl, rfl, rfl, rfl, rfl⟩

/-- Reclaiming a cell puts it at the head of the list and changes no other object. -/
lemma reclaim_spec {h : Heap} {i : Nat} {l : List Nat} (hl : h.FreeList l) (hn : l.Nodup)
    (hil : i ∉ l) (hs : i < h.cells.size) :
    (h.reclaim i).FreeList (i :: l) ∧
      (∀ v, (h.reclaim i).object? v = if v.index = i then none else h.object? v) ∧
      (h.reclaim i).freeCount = h.freeCount + 1 ∧
      (h.reclaim i).collections = h.collections ∧ SameFrame h (h.reclaim i) := by
  have hfr := SameFrame.setHeadPrevious h h.free (some i)
  have hs' : i < (h.setHeadPrevious h.free (some i)).cells.size := hfr.size ▸ hs
  refine ⟨⟨rfl, h.free, by simp [reclaim, hs'], ?_⟩, fun v => ?_, ?_, ?_, ?_⟩
  · refine (Linked.setHeadPrevious hl hn (some i)).congr fun j hj => ?_
    have hij : i ≠ j := fun e => hil (e ▸ hj)
    simp [reclaim, hij]
  · change ((h.setHeadPrevious h.free (some i)).setCell i (.free none h.free)).object? v = _
    rw [object?_setCell _ hs', object?_setHeadPrevious]
    simp
  · change (h.setHeadPrevious h.free (some i)).freeCount + 1 = _
    rw [setHeadPrevious_eq]
  · change (h.setHeadPrevious h.free (some i)).collections = _
    rw [setHeadPrevious_eq]
  · exact hfr.trans ⟨(SameFrame.setCell _ i _).size, rfl, rfl, rfl, rfl, rfl, rfl, rfl⟩

end Heap

end ArenaScheme
