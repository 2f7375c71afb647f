/-
# When allocation succeeds

Allocation succeeds exactly when it can.  It fails if and only if the free list is empty and every
collectible cell can be reached, be it from the children of the new object only; and then nothing
has changed but the number of collections.  Otherwise it takes a cell that cannot be reached into
use, and all that can be reached is as it was.  A collection is run if the free list is empty, and
no more than one.
-/
import ArenaScheme.Proofs.Allocation

namespace ArenaScheme

namespace Heap

/-- There is no cell left: none is free, and a collection that keeps `extra` would free none. -/
def Exhausted (h : Heap) (extra : List Handle) : Prop :=
  h.free = none ∧ ∀ i, h.Collectible i → h.Reachable extra ⟨i⟩

/-- The heap `h'` is `h` with the object `d` in the cell `v`, after at most one collection. -/
structure Placed (h : Heap) (d : Datum) (v : Handle) (h' : Heap) : Prop where
  wellFormed : h'.WellFormed
  holds : h'.datum? v = some d
  /-- The cell could be taken: it is collectible, and nothing referred to it. -/
  collectible : h.Collectible v.index
  unreachable : ¬ h.Reachable d.children v
  /-- No object is lost that can be reached, and none appears but the new one. -/
  kept : ∀ w, h.Reachable d.children w → w ≠ v ∧ h'.datum? w = h.datum? w
  old : ∀ w e, w ≠ v → h'.object? w = some e → h.object? w = some e
  /-- A free cell is taken without a collection. -/
  head : ∀ i, h.free = some i → v = ⟨i⟩ ∧ h'.collections = h.collections
  swept : h.free = none → h'.collections = h.collections + 1
  frame : SameFrame h h'

variable {h h' k : Heap} {d : Datum} {v : Handle} {extra : List Handle}

/-! ## Collections and free cells -/

lemma collections_claim {i : Nat} (hc : h.claim i d = .ok k) : k.collections = h.collections := by
  unfold claim at hc
  split at hc
  · next p n hi =>
    obtain rfl := Except.ok.inj hc
    change (h.setHeadPrevious n none).collections = h.collections
    rw [setHeadPrevious_eq]
  · simp at hc
  · simp at hc

/-- The free list of a well-formed heap is empty exactly if no collectible cell is free. -/
lemma WellFormed.free_eq_none_iff (hw : h.WellFormed) :
    h.free = none ↔ ∀ i, h.Collectible i → h.isLive ⟨i⟩ = true := by
  obtain ⟨l, hl⟩ := hw.free
  constructor
  · intro hfree i hi
    obtain rfl : l = [] := by
      cases l with
      | nil => rfl
      | cons j l =>
        have hj := hl.list.1
        rw [hfree] at hj
        simp at hj
    by_contra hn
    have hs : i < h.cells.size := Nat.lt_of_lt_of_le hi.2 hw.layout
    have hmem := (hl.mem_iff i).mpr (free_of_not_isLive hs (by simpa using hn))
    simp at hmem
  · intro hall
    cases l with
    | nil => exact hl.list
    | cons j l =>
      have hj : j ∈ j :: l := List.mem_cons_self
      have hlive := hall j (hw.collectible_of_mem hl hj)
      rw [hl.list.not_isLive hj] at hlive
      simp at hlive

/-- Then nothing is counted as free either. -/
lemma WellFormed.freeCount_eq_zero (hw : h.WellFormed) (hfree : h.free = none) :
    h.freeCount = 0 := by
  obtain ⟨l, hl⟩ := hw.free
  rw [hl.count]
  cases l with
  | nil => rfl
  | cons j l =>
    have hj := hl.list.1
    rw [hfree] at hj
    simp at hj

/-- A collection that can free nothing changes nothing but the number of collections. -/
lemma Collected.eq_of_exhausted (hw : h.WellFormed) (he : ∀ v ∈ extra, h.isLive v = true)
    (hx : h.Exhausted extra) {c : Collection} (hc : h.Collected extra c h') :
    h' = { h with collections := h.collections + 1 } := by
  have hcells : h'.cells = h.cells := by
    refine Array.ext_getElem? fun i => ?_
    by_cases hi : h.Collectible i
    · exact hc.kept ⟨i⟩ (hx.2 i hi)
    · exact hc.outside ⟨i⟩ hi
  have hfree' : h'.free = none := by
    refine (hc.wellFormed hw he).free_eq_none_iff.mpr fun i hi => ?_
    rw [isLive, hcells, ← isLive]
    exact hw.free_eq_none_iff.mp hx.1 i (hc.frame.collectible.mp hi)
  have hcount : h'.freeCount = h.freeCount := by
    rw [(hc.wellFormed hw he).freeCount_eq_zero hfree', hw.freeCount_eq_zero hx.1]
  have hcol := hc.collections
  obtain ⟨-, hcap, hroots, hslots, hsym, hbase, hcur, haud⟩ := hc.frame
  have hfree := hfree'.trans hx.1.symm
  obtain ⟨⟩ := h'
  dsimp only at *
  subst hcells hcap hroots hslots hsym hbase hcur haud hfree hcount hcol
  rfl

/-! ## Allocation -/

/-- Preparing an allocation: nothing is done if there is a free cell, and otherwise there is one
collection.  If no free cell is found, there is none to be found. -/
lemma prepare_exact (hw : h.WellFormed) (he : ∀ v ∈ extra, h.isLive v = true) :
    ∃ k, h.prepare extra = .ok k ∧
      (∀ i, h.free = some i → k = h) ∧
      (h.free = none → k.collections = h.collections + 1) ∧
      (k.free = none ↔ h.Exhausted extra) ∧
      (h.Exhausted extra → k = { h with collections := h.collections + 1 }) := by
  rcases Option.eq_none_or_eq_some h.free with hfree | ⟨i, hfree⟩
  · obtain ⟨c, k, hrun, hcoll⟩ := collectKeeping_spec hw.toClosed extra he
    refine ⟨k, by simp [prepare, hfree, hrun, Except.map], by simp [hfree],
      fun _ => hcoll.collections, ?_, fun hx => hcoll.eq_of_exhausted hw he hx⟩
    rw [(hcoll.wellFormed hw he).free_eq_none_iff]
    refine Iff.trans (forall_congr' fun i => ?_) (and_iff_right hfree).symm
    rw [hcoll.frame.collectible]
    refine imp_congr_right fun hi => ?_
    -- a collectible cell is in use after the collection exactly if it could be reached
    rw [isLive_iff]
    constructor
    · rintro ⟨e, he⟩
      exact (hcoll.object?.mp he).1
    · intro hr
      obtain ⟨e, hd⟩ := isLive_iff.mp (hw.isLive_of_reachable he hr)
      exact ⟨e, hcoll.object?.mpr ⟨hr, hd⟩⟩
  · refine ⟨h, by simp [prepare, hfree], fun _ _ => rfl, by simp [hfree], ?_, fun hx => ?_⟩
    · simp [Exhausted, hfree]
    · simp [Exhausted, hfree] at hx

/-- If there is a cell left, the object is put into a cell that cannot be reached. -/
lemma alloc_of_not_exhausted (hw : h.WellFormed) (hf : d.isFree = false)
    (hc : ∀ v ∈ d.children, h.isLive v = true) (hx : ¬ h.Exhausted d.children) :
    ∃ v h', HeapM.alloc d h = .ok v h' ∧ h.Placed d v h' := by
  obtain ⟨k, hprep, hsame, hswept, hnone, -⟩ := prepare_exact hw hc
  cases hfree : k.free with
  | none => exact absurd (hnone.mp hfree) hx
  | some i =>
    rcases alloc_spec hw hf hc with ⟨v, h', hrun, hw', ha⟩ | ⟨h', hrun, -, -⟩
    · -- the cell is the first free one of the prepared heap
      have hrun' := hrun
      simp only [HeapM.alloc, hprep, hfree] at hrun'
      cases hclaim : k.claim i d with
      | error c => simp [hclaim] at hrun'
      | ok l =>
        rw [hclaim] at hrun'
        obtain ⟨rfl, rfl⟩ := Outcome.ok.inj hrun'
        have hcol := collections_claim hclaim
        refine ⟨⟨i⟩, l, hrun, hw', (object?_eq_some.mp ha.new).1, ha.collectible, ha.fresh,
          fun w hr => ?_, ha.old, fun j hj => ?_, fun hn => hcol.trans (hswept hn), ha.frame⟩
        · obtain ⟨e, he⟩ := isLive_iff.mp (hw.isLive_of_reachable hc hr)
          refine ⟨fun hwv => ha.fresh (hwv ▸ hr), ?_⟩
          exact (object?_eq_some.mp ((ha.kept w hr).trans he)).1.trans
            (object?_eq_some.mp he).1.symm
        · obtain rfl := hsame j hj
          rw [hj] at hfree
          exact ⟨congrArg Handle.mk (Option.some.inj hfree).symm, hcol⟩
    · simp only [HeapM.alloc, hprep, hfree] at hrun
      split at hrun <;> simp at hrun

/-- If there is none, nothing changes but the number of collections. -/
lemma alloc_of_exhausted (hw : h.WellFormed) (hc : ∀ v ∈ d.children, h.isLive v = true)
    (hx : h.Exhausted d.children) :
    HeapM.alloc d h = .error .outOfMemory { h with collections := h.collections + 1 } := by
  obtain ⟨k, hprep, -, -, -, heq⟩ := prepare_exact hw hc
  obtain rfl := heq hx
  simp only [HeapM.alloc, hprep, hx.1]

/-- Allocation fails if and only if there is no cell left, and then it changes nothing but the
number of collections.  In all other cases it puts the object into a cell that cannot be reached. -/
theorem alloc_exact (hw : h.WellFormed) (hf : d.isFree = false)
    (hc : ∀ v ∈ d.children, h.isLive v = true) :
    ((∃ h', HeapM.alloc d h = .error .outOfMemory h') ↔ h.Exhausted d.children) ∧
      (h.Exhausted d.children →
        HeapM.alloc d h = .error .outOfMemory { h with collections := h.collections + 1 }) ∧
      (¬ h.Exhausted d.children → ∃ v h', HeapM.alloc d h = .ok v h' ∧ h.Placed d v h') := by
  refine ⟨⟨?_, fun hx => ⟨_, alloc_of_exhausted hw hc hx⟩⟩, alloc_of_exhausted hw hc,
    alloc_of_not_exhausted hw hf hc⟩
  rintro ⟨h', hrun⟩
  by_contra hx
  obtain ⟨v, k, hrun', -⟩ := alloc_of_not_exhausted hw hf hc hx
  rw [hrun] at hrun'
  simp at hrun'

/-- The only collectible cell is a pair that nothing refers to. -/
def abandoned : Heap where
  cells := #[.emptyList, .bool true, .bool false, .error .outOfMemory "out of memory",
    .pair .emptyList .emptyList, rootFrame]
  capacity := 1
  free := none
  freeCount := 0
  collections := 0
  roots := #[]
  rootSlots := 1
  symbols := ∅
  baseEnv := ⟨5⟩
  currentEnv := ⟨5⟩
  audited := true

lemma wellFormed_abandoned : abandoned.WellFormed where
  toClosed := by decide
  free := ⟨[], .of_list rfl .nil (by decide) rfl⟩
  table := by simp [abandoned]

/-- The pair stands in the way of another that refers to it, and gives way to one that does not. -/
theorem alloc_exact_abandoned :
    HeapM.alloc (.pair ⟨4⟩ .emptyList) abandoned
      = .error .outOfMemory { abandoned with collections := 1 } ∧
    ∃ v h', HeapM.alloc (.pair .trueObject .emptyList) abandoned = .ok v h' ∧
      abandoned.Placed (.pair .trueObject .emptyList) v h' := by
  have hcell : ∀ i, abandoned.Collectible i → i = 4 := by
    rintro i ⟨h1, h2⟩
    exact Nat.le_antisymm (Nat.lt_succ_iff.mp h2) h1
  have hkept : abandoned.Exhausted [⟨4⟩, .emptyList] :=
    ⟨rfl, fun i hi => .of_extra (by simp [hcell i hi])⟩
  have hlost : ¬ abandoned.Exhausted [.trueObject, .emptyList] := fun hx =>
    Marking.not_collectible_of_reachable (by decide) (by decide) (hx.2 4 (by decide)) (by decide)
  exact ⟨(alloc_exact (d := .pair ⟨4⟩ .emptyList) wellFormed_abandoned rfl (by decide)).2.1 hkept,
    (alloc_exact (d := .pair .trueObject .emptyList) wellFormed_abandoned rfl
      (by decide)).2.2 hlost⟩

end Heap

end ArenaScheme
