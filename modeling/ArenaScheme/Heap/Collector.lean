/-
# The collector

A collection marks every cell that can be reached and sweeps the others.

Marking keeps a worklist of cells that are marked but whose children have not been looked at.  A
cell enters the worklist when it gets its mark, hence at most once; each round takes one cell off
the worklist and visits its children.  The measure that shrinks is the number of unmarked cells
plus the length of the worklist: a visit moves a cell from the first summand to the second, and
the end of a round takes one away from the second.  So marking ends on every graph, and its
depth of recursion does not depend on the depth of the graph.

A reference may be faulty: it leads out of the arena, or the heap is audited and it leads to a free
cell.  Marking takes down the first fault it meets, and then the collection is a halt.

Sweeping goes through the collectible cells from the highest to the lowest and puts every
unmarked one at the head of a new free list, which is therefore in ascending order.
-/
import ArenaScheme.Heap.Basic

namespace ArenaScheme

/-- What a collection reports. -/
structure Collection where
  /-- How many collections the heap has seen, this one included. -/
  collections : Nat
  /-- Cells reclaimed by this collection. -/
  freed : Nat
  /-- Collectible cells in use afterwards. -/
  live : Nat
deriving DecidableEq, Repr

/-- What is wrong with a reference: it may lead out of the arena, or, if that is to be audited, to a
free cell. -/
def Heap.fault? (h : Heap) (v : Handle) : Option Halt :=
  match h.cells[v.index]? with
  | none => some (.outOfRange h.cells.size v.index)
  | some d => if h.audited && d.isFree then some (.danglingReference v) else none

/-- The state of the marking phase. -/
structure Marking where
  /-- A mark per cell. -/
  marks : Array Bool
  /-- The marked cells still to be scanned. -/
  work : List Nat
  /-- What was wrong with the first faulty reference. -/
  fault : Option Halt

namespace Marking

/-- Nothing is marked yet. -/
def start (h : Heap) : Marking := ⟨Array.replicate h.cells.size false, [], none⟩

/-- Mark the cell of a handle and queue it, unless it is marked already. -/
def visit (h : Heap) (m : Marking) (v : Handle) : Marking :=
  match m.marks[v.index]? with
  | some true => m
  | some false =>
    ⟨m.marks.setIfInBounds v.index true, v.index :: m.work, m.fault.or (h.fault? v)⟩
  | none => { m with fault := m.fault.or (h.fault? v) }

/-- Visit several handles in turn. -/
def visitAll (h : Heap) (m : Marking) (vs : List Handle) : Marking := vs.foldl (visit h) m

/-- The measure of the marking phase. -/
def pending (m : Marking) : Nat := m.marks.count false + m.work.length

theorem pending_visit (h : Heap) (m : Marking) (v : Handle) :
    (m.visit h v).pending = m.pending := by
  unfold visit
  split
  · rfl
  · next hm =>
    obtain ⟨hv, hf⟩ := Array.getElem?_eq_some_iff.mp hm
    have hc : 0 < m.marks.count false :=
      Array.count_pos_iff.mpr (hf ▸ Array.getElem_mem hv)
    have hs : (m.marks.setIfInBounds v.index true).count false = m.marks.count false - 1 := by
      rw [Array.setIfInBounds_def, dif_pos hv, Array.count_set]
      simp [hf]
    simp only [pending, hs, List.length_cons]
    omega
  · rfl

theorem pending_visitAll (h : Heap) (m : Marking) (vs : List Handle) :
    (m.visitAll h vs).pending = m.pending := by
  induction vs generalizing m with
  | nil => rfl
  | cons v vs ih => exact (ih (m.visit h v)).trans (pending_visit h m v)

theorem pending_scan (h : Heap) {m : Marking} {i : Nat} {work : List Nat} (hw : m.work = i :: work)
    (vs : List Handle) : (visitAll h { m with work } vs).pending < m.pending := by
  rw [pending_visitAll]
  simp only [pending, hw, List.length_cons]
  omega

/-- The children of the cell at a position. -/
def childrenAt (cells : Array Datum) (i : Nat) : List Handle :=
  match cells[i]? with
  | some d => d.children
  | none => []

/-- Scan queued cells until none is left. -/
def drain (h : Heap) (m : Marking) : Marking :=
  match hw : m.work with
  | [] => m
  | i :: work =>
    have := pending_scan h hw (childrenAt h.cells i)
    drain h (visitAll h { m with work } (childrenAt h.cells i))
termination_by m.pending

end Marking

namespace Heap

/-- The handles from which marking starts: sentinels and permanent cells, the root slots, the two
frames that the heap itself names, and `extra`. -/
def rootHandles (h : Heap) (extra : List Handle) : List Handle :=
  (List.range regionStart).map Handle.mk ++
    (List.range' h.regionEnd (h.cells.size - h.regionEnd)).map Handle.mk ++
    h.roots.toList ++ [h.baseEnv, h.currentEnv] ++ extra

/-- Mark every cell that can be reached from the root handles and `extra`. -/
def marking (h : Heap) (extra : List Handle) : Marking :=
  Marking.drain h (Marking.visitAll h (Marking.start h) (h.rootHandles extra))

/-- Sweep the lowest `n` collectible cells, the highest of them first.  The count is that of the
cells that were in use and are free now. -/
def sweep (marks : Array Bool) : Nat → Nat → Heap → Nat × Heap
  | 0, freed, h => (freed, h)
  | n + 1, freed, h =>
    let i := regionStart + n
    match marks[i]?, h.cells[i]? with
    | some true, _ => sweep marks n freed h
    | _, some (.free ..) => sweep marks n freed (h.reclaim i)
    | _, _ => sweep marks n (freed + 1) (h.reclaim i)

/-- Free all collectible cells without a mark. -/
def sweepUnmarked (marks : Array Bool) (h : Heap) : Collection × Heap :=
  let (freed, h) := sweep marks h.capacity 0 { h with free := none, freeCount := 0 }
  let h := { h with collections := h.collections + 1 }
  (⟨h.collections, freed, h.liveCount⟩, h)

/-- Run a collection that also keeps what `extra` reaches.  No faulty reference may be reached. -/
def collectKeeping (extra : List Handle) (h : Heap) : Except Halt (Collection × Heap) :=
  let m := h.marking extra
  match m.fault with
  | some cause => .error cause
  | none => .ok (h.sweepUnmarked m.marks)

/-- Run a collection. -/
def collect (h : Heap) : Except Halt (Collection × Heap) := h.collectKeeping []

end Heap

end ArenaScheme
