/-
# Heaps that differ in garbage only

Objects that nobody has a handle of are garbage, whatever they are: nothing reads them, and the next
collection sweeps them.  So if two heaps differ in such objects only, then searches are the same in
both of them, the same cell is taken into use next, and whatever is done to other cells leaves them
alike.
-/
import ArenaScheme.Proofs.Heeding.Searches

namespace ArenaScheme

/-- Handles that may be those of garbage. -/
structure Waste where
  Has : Handle → Prop
  apart : ∀ v : Handle, v.index < Heap.regionStart → ¬ Has v

variable {W W' : Waste} {h k : Heap} {extra : List Handle} {v : Handle} {d : Datum} {i : Nat}

namespace Waste

/-- The handle is not one of garbage. -/
def Spares (W : Waste) (v : Handle) : Prop := ¬ W.Has v

/-- The heaps are the same but for some objects. -/
structure Differ (W : Waste) (h k : Heap) : Prop where
  same : k = { h with cells := k.cells }
  size : k.cells.size = h.cells.size
  other : ∀ v, W.Spares v → k.cells[v.index]? = h.cells[v.index]?
  live : ∀ v, W.Has v → h.isLive v = true ∧ k.isLive v = true

/-- The heaps are the same but for some objects that nothing else refers to. -/
structure Alike (W : Waste) (h k : Heap) : Prop extends W.Differ h k where
  parts : ∀ v d, W.Spares v → h.object? v = some d → ∀ c ∈ d.children, W.Spares c
  permanent : ∀ v : Handle, h.regionEnd ≤ v.index → W.Spares v
  roots : ∀ (i : Nat) (v : Handle), h.roots[i]? = some v → W.Spares v
  baseEnv : W.Spares h.baseEnv
  currentEnv : W.Spares h.currentEnv

/-! ## Cells -/

namespace Differ

/-- A cell gets the same contents in both heaps, and so they do not differ there any more. -/
lemma setCell (ha : W.Differ h k) (i : Nat) (d : Datum)
    (hw : ∀ v, W'.Has v ↔ W.Has v ∧ i ≠ v.index) :
    W'.Differ (h.setCell i d) (k.setCell i d) := by
  refine ⟨?_, ?_, fun v hv => ?_, fun v hv => ?_⟩
  · rw [Heap.setCell, Heap.setCell, ha.same]
  · simp only [Heap.cells_setCell, Array.size_setIfInBounds, ha.size]
  · by_cases hi : i = v.index
    · subst hi
      simp only [Heap.cells_setCell, Array.getElem?_setIfInBounds_self, ha.size]
    · simp only [Heap.cells_setCell, Array.getElem?_setIfInBounds_ne hi]
      exact ha.other v fun h => hv ((hw v).mpr ⟨h, hi⟩)
  · obtain ⟨hv, hi⟩ := (hw v).mp hv
    simp only [Heap.isLive, Heap.cells_setCell, Array.getElem?_setIfInBounds_ne hi]
    exact ha.live v hv

/-- The contents of a cell that they do not differ in. -/
lemma setCell_of_spares (ha : W.Differ h k) (hi : W.Spares ⟨i⟩) (d : Datum) :
    W.Differ (h.setCell i d) (k.setCell i d) := by
  refine ha.setCell i d fun v => (and_iff_left_of_imp fun hv => ?_).symm
  rintro rfl
  exact hi hv

/-- The links between free cells are none of the objects. -/
lemma setHeadPrevious (ha : W.Differ h k) (head p : Option Nat) :
    W.Differ (h.setHeadPrevious head p) (k.setHeadPrevious head p) := by
  cases head with
  | none => exact ha
  | some i =>
    rw [Heap.setHeadPrevious, Heap.setHeadPrevious, Heap.setPrevious, Heap.setPrevious]
    by_cases hi : W.Has ⟨i⟩
    · -- nothing is done with a cell that is in use
      obtain ⟨hl, hl'⟩ := ha.live _ hi
      simp only [Heap.isLive] at hl hl'
      split
      · next hf => simp [hf] at hl
      · split
        · next hf => simp [hf] at hl'
        · exact ha
    · have hcell : k.cells[i]? = h.cells[i]? := ha.other ⟨i⟩ hi
      rw [hcell]
      cases h.cells[i]? with
      | none => exact ha
      | some e =>
        cases e with
        | free previous next => exact ha.setCell_of_spares hi _
        | _ => exact ha

/-- Another free list. -/
lemma setFree (ha : W.Differ h k) (free : Option Nat) (freeCount : Nat) :
    W.Differ { h with free, freeCount } { k with free, freeCount } := by
  refine ⟨?_, ha.size, ha.other, ha.live⟩
  rw [ha.same]

/-- Either both free lists are in order at this cell, and then it gets the same object, or none
is. -/
lemma claim (ha : W.Differ h k) (i : Nat) (d : Datum) :
    (∃ h' k', h.claim i d = .ok h' ∧ k.claim i d = .ok k' ∧ W.Differ h' k' ∧ W.Spares ⟨i⟩) ∨
      ∃ c c', h.claim i d = .error c ∧ k.claim i d = .error c' := by
  by_cases hi : W.Has ⟨i⟩
  · obtain ⟨hl, hl'⟩ := ha.live _ hi
    obtain ⟨e, he⟩ := Heap.isLive_iff.mp hl
    obtain ⟨e', he'⟩ := Heap.isLive_iff.mp hl'
    obtain ⟨he, hf⟩ := Heap.object?_eq_some.mp he
    obtain ⟨he', hf'⟩ := Heap.object?_eq_some.mp he'
    refine .inr ⟨.corruptFreeList i e.type, .corruptFreeList i e'.type, ?_, ?_⟩
    · rw [Heap.claim, he]
      cases e <;> first | rfl | cases hf
    · rw [Heap.claim, he']
      cases e' <;> first | rfl | cases hf'
  · rw [Heap.claim, Heap.claim, ha.other ⟨i⟩ hi, ha.size]
    cases hc : h.cells[i]? with
    | none => exact .inr ⟨_, _, rfl, rfl⟩
    | some e =>
      cases e with
      | free p next =>
        have hset := (ha.setHeadPrevious next none).setCell_of_spares hi d
        have hcount : ((k.setHeadPrevious next none).setCell i d).freeCount =
            ((h.setHeadPrevious next none).setCell i d).freeCount := by rw [hset.same]
        refine .inl ⟨_, _, rfl, rfl, ?_, hi⟩
        rw [hcount]
        exact hset.setFree _ _
      | _ => exact .inr ⟨_, _, rfl, rfl⟩

lemma reclaim (ha : W.Differ h k) (i : Nat) (hw : ∀ v, W'.Has v ↔ W.Has v ∧ i ≠ v.index) :
    W'.Differ (h.reclaim i) (k.reclaim i) := by
  have hfree : k.free = h.free := by rw [ha.same]
  have hset := (ha.setHeadPrevious h.free (some i)).setCell i (.free none h.free) hw
  have hcount : ((k.setHeadPrevious h.free (some i)).setCell i (.free none h.free)).freeCount =
      ((h.setHeadPrevious h.free (some i)).setCell i (.free none h.free)).freeCount := by
      rw [hset.same]
  rw [Heap.reclaim, Heap.reclaim, hfree]
  rw [hcount]
  exact hset.setFree _ _

end Differ

/-! ## What can be reached -/

namespace Alike

lemma encloses (ha : W.Alike h k) : h.Encloses W.Spares := .of_objects ha.parts

lemma read (ha : W.Alike h k) (v : Handle) (hv : W.Spares v) : k.read v = h.read v := by
  rw [Heap.read, Heap.read, ha.other v hv, ha.size]

/-- What can be reached is no garbage. -/
lemma spares_of_reachable (ha : W.Alike h k) (he : ∀ v ∈ extra, W.Spares v)
    (hv : h.Reachable extra v) :
    W.Spares v := by
  induction hv with
  | anchor hv =>
    cases hv with
    | sentinel hv => exact W.apart _ hv
    | permanent hr _ => exact ha.permanent _ hr
    | root hv =>
      obtain ⟨i, hi⟩ := List.mem_iff_getElem?.mp hv
      exact ha.roots i _ (by simpa using hi)
    | base => exact ha.baseEnv
    | current => exact ha.currentEnv
    | extra hv => exact he _ hv
  | child _ hd hc ih => exact ha.parts _ _ ih hd _ hc

/-! ## Other cells, slots and frames -/

/-- Another object in a cell. -/
lemma rewritten {h' k' : Heap} (ha : W.Alike h k) (hr : h.Rewritten v d h') (hdiff : W.Differ h' k')
    (hd : ∀ c ∈ d.children, W.Spares c) (hp : h'.regionEnd = h.regionEnd) : W.Alike h' k' := by
  refine ⟨hdiff, fun u e hu he => ?_, fun u hu => ha.permanent u (hp ▸ hu), fun i u hu => ?_,
    hr.baseEnv ▸ ha.baseEnv, hr.currentEnv ▸ ha.currentEnv⟩
  · by_cases huv : u = v
    · subst huv
      obtain rfl := Option.some.inj (hr.self.symm.trans he)
      exact hd
    · exact ha.parts u e hu ((hr.other huv).symm.trans he)
  · exact ha.roots i u (hr.roots ▸ hu)

/-- The same cells with other slots. -/
lemma setRoots (ha : W.Alike h k) {roots : Array Handle}
    (hr : ∀ (i : Nat) (v : Handle), roots[i]? = some v → W.Spares v) :
    W.Alike { h with roots } { k with roots } := by
  refine ⟨⟨?_, ha.size, ha.other, ha.live⟩, ha.parts, ha.permanent, hr, ha.baseEnv, ha.currentEnv⟩
  rw [ha.same]

lemma push (ha : W.Alike h k) (hv : W.Spares v) :
    W.Alike { h with roots := h.roots.push v } { k with roots := h.roots.push v } :=
  ha.setRoots fun i u hu => by
    rw [Array.getElem?_push] at hu
    split at hu
    · exact Option.some.inj hu ▸ hv
    · exact ha.roots i u hu

lemma pop (ha : W.Alike h k) :
    W.Alike { h with roots := h.roots.pop } { k with roots := h.roots.pop } :=
  ha.setRoots fun i u hu => by
    rw [Array.getElem?_pop] at hu
    split at hu
    · exact ha.roots i u hu
    · cases hu

lemma put (ha : W.Alike h k) (hv : W.Spares v) :
    W.Alike { h with roots := h.roots.setIfInBounds i v }
      { k with roots := h.roots.setIfInBounds i v } :=
  ha.setRoots fun j u hu => by
    rw [Array.getElem?_setIfInBounds] at hu
    split at hu
    · split at hu
      · exact Option.some.inj hu ▸ hv
      · cases hu
    · exact ha.roots j u hu

lemma switchEnv (ha : W.Alike h k) (hv : W.Spares v) :
    W.Alike { h with currentEnv := v } { k with currentEnv := v } := by
  refine ⟨⟨?_, ha.size, ha.other, ha.live⟩, ha.parts, ha.permanent, ha.roots, ha.baseEnv, hv⟩
  rw [ha.same]

end Alike

end Waste

end ArenaScheme
