/-
# What a collection leaves alone on any heap

A heap that has got out of order may refer to free cells.  Marking goes on all the same unless it
meets a fault, and whatever objects lead to gets a mark.  So a collection that ends leaves every
object that can be reached as it was; that holds of all heaps.
-/
import ArenaScheme.Proofs.Interning

namespace ArenaScheme

variable {h k : Heap} {m : Marking} {scanning : Option Nat} {extra vs : List Handle} {v : Handle}
  {d : Datum}

namespace Marking

/-- The part of the invariant of marking that holds on any heap: a marked cell that is neither on
the worklist nor being scanned refers to marked cells, or out of the arena. -/
structure Shaded (h : Heap) (scanning : Option Nat) (m : Marking) : Prop where
  size : m.marks.size = h.cells.size
  black : ∀ i, m.marks[i]? = some true → i ∈ m.work ∨ scanning = some i ∨
    ∀ c ∈ childrenAt h.cells i, c.index < h.cells.size → m.marks[c.index]? = some true

lemma shaded_start (h : Heap) : Shaded h none (start h) := by
  refine ⟨by simp [start], fun i hi => ?_⟩
  simp [start, Array.getElem?_replicate] at hi

/-- A visit marks any cell of the arena. -/
lemma marked_visit_of_lt (hs : m.marks.size = h.cells.size) (hv : v.index < h.cells.size) :
    (m.visit h v).marks[v.index]? = some true := by
  have hlt : v.index < m.marks.size := hs ▸ hv
  refine ((grows_visit h m v).marked _).mpr ?_
  have hb : m.marks[v.index]? = some m.marks[v.index] := Array.getElem?_eq_getElem hlt
  cases hm : m.marks[v.index]
  · exact .inr (by simp [entered, hb, hm])
  · exact .inl (by rw [hb, hm])

lemma Shaded.visit (hm : Shaded h scanning m) (v : Handle) : Shaded h scanning (m.visit h v) := by
  have hg := grows_visit h m v
  refine ⟨hg.size.trans hm.size, fun i hi => ?_⟩
  rcases (hg.marked i).mp hi with hi | hi
  · rcases hm.black i hi with hw | hs | hc
    · left
      unfold Marking.visit
      split <;> simp [hw]
    · exact .inr (.inl hs)
    · exact .inr (.inr fun c hc' hlt => (hg.marked _).mpr (.inl (hc c hc' hlt)))
  · -- a cell that has just been marked is put on the worklist
    left
    unfold entered at hi
    split at hi
    · next hf => simp [Marking.visit, hf, List.mem_singleton.mp hi]
    · simp at hi

lemma Shaded.visitAll (hm : Shaded h scanning m) (vs : List Handle) :
    Shaded h scanning (m.visitAll h vs) ∧
      ∀ v ∈ vs, v.index < h.cells.size → (m.visitAll h vs).marks[v.index]? = some true := by
  induction vs generalizing m with
  | nil => exact ⟨hm, by simp⟩
  | cons v vs ih =>
    obtain ⟨hs, hmarked⟩ := ih (hm.visit v)
    refine ⟨hs, fun w hw hlt => ?_⟩
    rcases List.mem_cons.mp hw with rfl | hw
    · exact ((grows_visitAll h _ vs).marked _).mpr (.inl (marked_visit_of_lt hm.size hlt))
    · exact hmarked w hw hlt

lemma Shaded.drain (hm : Shaded h none m) : Shaded h none (m.drain h) ∧ (m.drain h).work = [] := by
  induction m using drain.induct h with
  | case1 m hw =>
    rw [drain_of_nil h hw]
    exact ⟨hm, hw⟩
  | case2 m i work hw _ ih =>
    rw [drain_of_cons h hw]
    have hscan : Shaded h (some i) { m with work } := by
      refine ⟨hm.size, fun j hj => ?_⟩
      rcases hm.black j hj with hj | hj | hj
      · rcases List.mem_cons.mp (hw ▸ hj) with rfl | hj
        · exact .inr (.inl rfl)
        · exact .inl hj
      · simp at hj
      · exact .inr (.inr hj)
    obtain ⟨hs, hmarked⟩ := hscan.visitAll (childrenAt h.cells i)
    refine ih ⟨hs.size, fun j hj => ?_⟩
    rcases hs.black j hj with hj | hj | hj
    · exact .inl hj
    · obtain rfl : i = j := Option.some.inj hj
      exact .inr (.inr hmarked)
    · exact .inr (.inr hj)

end Marking

namespace Heap

open Marking

/-- Marking marks whatever can be reached in the arena. -/
lemma marked_of_reachable (hr : h.Reachable extra v) (hv : v.index < h.cells.size) :
    (h.marking extra).marks[v.index]? = some true := by
  obtain ⟨hall, hanchors⟩ := (shaded_start h).visitAll (h.rootHandles extra)
  obtain ⟨hs, hwork⟩ := hall.drain
  induction hr with
  | anchor ha =>
    exact ((grows_drain h _).marked _).mpr (.inl (hanchors _ (mem_rootHandles.mpr ha) hv))
  | child _ hd hc ih =>
    rcases hs.black _ (ih (lt_size_of_object? hd)) with hw | hw | hw
    · simp [hwork] at hw
    · simp at hw
    · exact hw _ (mem_childrenAt.mpr ⟨_, hd, hc⟩) hv

/-- Sweeping leaves the marked cells alone. -/
lemma object?_sweep_of_marked (marks : Array Bool) (n freed : Nat) (h : Heap)
    (hv : marks[v.index]? = some true) : (sweep marks n freed h).2.object? v = h.object? v := by
  induction n generalizing freed h with
  | zero => rfl
  | succ n ih =>
    have hne : ∀ i, marks[i]? ≠ some true → i ≠ v.index := by
      rintro i hi rfl
      exact hi hv
    rw [sweep]
    split
    · exact ih _ _
    · next hm => exact (ih _ _).trans (object?_reclaim_ne (hne _ hm))
    · next hm _ => exact (ih _ _).trans (object?_reclaim_ne (hne _ hm))

/-- A collection leaves what can be reached as it was. -/
lemma object?_collectKeeping {c : Collection} (hc : h.collectKeeping extra = .ok (c, k))
    (hr : h.Reachable extra v) (hd : h.object? v = some d) : k.object? v = some d := by
  have hm := marked_of_reachable hr (lt_size_of_object? hd)
  dsimp only [collectKeeping] at hc
  split at hc
  · simp at hc
  · obtain ⟨rfl, rfl⟩ := Prod.mk.inj (Except.ok.inj hc)
    exact (object?_sweep_of_marked _ _ _ { h with free := none, freeCount := 0 } hm).trans hd

end Heap

end ArenaScheme
