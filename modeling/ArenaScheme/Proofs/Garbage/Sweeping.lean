/-
# A collection takes garbage away

Marking goes from handle to handle, so it does not come upon garbage, and it marks the same cells
whatever the garbage is.  Sweeping takes all of it away.  So heaps that differ in garbage only are
equal after a collection.
-/
import ArenaScheme.Proofs.Garbage.Alike

namespace ArenaScheme

variable {W : Waste} {h k : Heap} {m : Marking} {extra vs : List Handle} {v : Handle}
  {marks : Array Bool}

namespace Marking

/-! ## Marking -/

/-- No garbage is marked or queued. -/
structure Clean (W : Waste) (m : Marking) : Prop where
  marks : ∀ v : Handle, m.marks[v.index]? = some true → W.Spares v
  work : ∀ i ∈ m.work, W.Spares ⟨i⟩

lemma clean_start (W : Waste) (h : Heap) : Clean W (start h) := by
  refine ⟨fun v hv => ?_, fun i hi => absurd hi List.not_mem_nil⟩
  simp [start, Array.getElem?_replicate] at hv

lemma fault_congr (ha : W.Alike h k) (hv : W.Spares v) : k.fault? v = h.fault? v := by
  have haudited : k.audited = h.audited := by rw [ha.same]
  rw [Heap.fault?, Heap.fault?, ha.other v hv, ha.size, haudited]

lemma visit_congr (ha : W.Alike h k) (hv : W.Spares v) (m : Marking) :
    m.visit k v = m.visit h v := by
  rw [visit, visit, fault_congr ha hv]

lemma Clean.visit (hm : Clean W m) (hv : W.Spares v) (h : Heap) : Clean W (m.visit h v) := by
  unfold Marking.visit
  split
  · exact hm
  · refine ⟨fun u hu => ?_, fun i hi => ?_⟩
    · by_cases huv : v = u
      · exact huv ▸ hv
      · have hne : v.index ≠ u.index := fun he => huv (by cases v; cases u; cases he; rfl)
        rw [Array.getElem?_setIfInBounds_ne hne] at hu
        exact hm.marks u hu
    · rcases List.mem_cons.mp hi with rfl | hi
      · exact hv
      · exact hm.work i hi
  · exact ⟨hm.marks, hm.work⟩

lemma visitAll_congr (ha : W.Alike h k) (hvs : ∀ v ∈ vs, W.Spares v) (hm : Clean W m) :
    m.visitAll k vs = m.visitAll h vs ∧ Clean W (m.visitAll h vs) := by
  induction vs generalizing m with
  | nil => exact ⟨rfl, hm⟩
  | cons v vs ih =>
    obtain ⟨hv, hvs⟩ := List.forall_mem_cons.mp hvs
    obtain ⟨he, hc⟩ := ih hvs (hm.visit hv h)
    refine ⟨?_, hc⟩
    change (m.visit k v).visitAll k vs = (m.visit h v).visitAll h vs
    rw [visit_congr ha hv, he]

lemma drain_congr (ha : W.Alike h k) (hm : Clean W m) :
    m.drain k = m.drain h ∧ Clean W (m.drain h) := by
  induction m using drain.induct h with
  | case1 m hw =>
    rw [drain_of_nil h hw, drain_of_nil k hw]
    exact ⟨rfl, hm⟩
  | case2 m i work hw _ ih =>
    have hi : W.Spares ⟨i⟩ := hm.work i (by simp [hw])
    have hchildren : childrenAt k.cells i = childrenAt h.cells i := by
      rw [childrenAt, childrenAt, ← ha.other ⟨i⟩ hi]
    have hscan : Clean W { m with work } := ⟨hm.marks, fun j hj => hm.work j (by simp [hw, hj])⟩
    obtain ⟨he, hc⟩ := visitAll_congr ha (fun c (hc : c ∈ childrenAt h.cells i) => by
      obtain ⟨d, hd, hc⟩ := mem_childrenAt.mp hc
      exact ha.parts ⟨i⟩ d hi hd c hc) hscan
    rw [drain_of_cons h hw, drain_of_cons k hw, hchildren, he]
    exact ih hc

end Marking

namespace Waste

lemma Alike.marking_eq (ha : W.Alike h k) (he : ∀ v ∈ extra, W.Spares v) :
    k.marking extra = h.marking extra ∧ Marking.Clean W (h.marking extra) := by
  have hstart : Marking.start k = Marking.start h := by rw [Marking.start, Marking.start, ha.size]
  have hroots : k.rootHandles extra = h.rootHandles extra := by
    rw [Heap.rootHandles, Heap.rootHandles, ha.size, ha.same]
    rfl
  obtain ⟨hvisit, hclean⟩ := Marking.visitAll_congr ha
    (fun v (hv : v ∈ h.rootHandles extra) => ha.spares_of_reachable he
      (.anchor (Heap.mem_rootHandles.mp hv))) (Marking.clean_start W h)
  rw [Heap.marking, Heap.marking, hstart, hroots, hvisit]
  exact Marking.drain_congr ha hclean

/-! ## Sweeping -/

/-- The garbage in the lowest `n` collectible cells. -/
def below (W : Waste) (n : Nat) : Waste where
  Has v := W.Has v ∧ v.index < Heap.regionStart + n
  apart v hv hw := W.apart v hv hw.1

lemma has_below_succ {n : Nat} :
    (W.below n).Has v ↔ (W.below (n + 1)).Has v ∧ Heap.regionStart + n ≠ v.index := by
  simp only [below]
  constructor
  · rintro ⟨hv, hlt⟩
    exact ⟨⟨hv, by omega⟩, by omega⟩
  · rintro ⟨⟨hv, hlt⟩, hne⟩
    exact ⟨hv, by omega⟩

/-- Heaps that differ nowhere are equal. -/
lemma Differ.eq (hd : W.Differ h k) (hw : ∀ v, W.Spares v) : k = h := by
  have hcells : k.cells = h.cells := Array.ext_getElem? fun i => hd.other ⟨i⟩ (hw ⟨i⟩)
  rw [hd.same, hcells]

/-- Once all garbage has been swept, there is no difference left. -/
lemma Differ.sweep_eq {n : Nat} (hd : (W.below n).Differ h k)
    (hm : ∀ v, W.Has v → marks[v.index]? ≠ some true)
    (freed : Nat) : Heap.sweep marks n freed k = Heap.sweep marks n freed h := by
  induction n generalizing h k freed with
  | zero =>
    have hnone : ∀ v, (W.below 0).Spares v := fun v hv => W.apart v hv.2 hv.1
    rw [hd.eq hnone]
  | succ n ih =>
    by_cases hmarked : marks[Heap.regionStart + n]? = some true
    · -- there is no garbage in a marked cell
      rw [Heap.sweep_of_marked hmarked, Heap.sweep_of_marked hmarked]
      have hi : ∀ v, (W.below (n + 1)).Has v → Heap.regionStart + n ≠ v.index := fun v hv he =>
        hm v hv.1 (he ▸ hmarked)
      refine ih ⟨hd.same, hd.size, fun v hv => hd.other v fun h => hv ?_, fun v hv => hd.live v ?_⟩
        freed
      · exact has_below_succ.mpr ⟨h, hi v h⟩
      · exact (has_below_succ.mp hv).1
    · have hreclaim := ih (hd.reclaim (Heap.regionStart + n) fun v => has_below_succ)
      by_cases hs : Heap.regionStart + n < h.cells.size
      · have hlive : k.isLive ⟨Heap.regionStart + n⟩ = h.isLive ⟨Heap.regionStart + n⟩ := by
          by_cases hi : (W.below (n + 1)).Has ⟨Heap.regionStart + n⟩
          · obtain ⟨hl, hl'⟩ := hd.live _ hi
            rw [hl, hl']
          · rw [Heap.isLive, Heap.isLive, hd.other _ hi]
        rw [Heap.sweep_of_unmarked hmarked hs, Heap.sweep_of_unmarked hmarked (hd.size ▸ hs), hlive]
        exact hreclaim _
      · have hnone : h.cells[Heap.regionStart + n]? = none :=
          Array.getElem?_eq_none (Nat.not_lt.mp hs)
        have hnone' : k.cells[Heap.regionStart + n]? = none :=
          Array.getElem?_eq_none (Nat.not_lt.mp (hd.size ▸ hs))
        rw [Heap.sweep, Heap.sweep]
        simp only [hnone, hnone', hreclaim]

/-- After a collection heaps that are alike are equal. -/
lemma Alike.collectKeeping_eq (ha : W.Alike h k) (he : ∀ v ∈ extra, W.Spares v) :
    k.collectKeeping extra = h.collectKeeping extra := by
  obtain ⟨hmarking, hclean⟩ := ha.marking_eq he
  have hcapacity : k.capacity = h.capacity := by rw [ha.same]
  have hstart : (W.below k.capacity).Differ { h with free := none, freeCount := 0 }
      { k with free := none, freeCount := 0 } := by
    refine ⟨by rw [ha.same], ha.size, fun v hv => ha.other v fun h' => hv ⟨h', ?_⟩,
      fun v hv => ha.live v hv.1⟩
    exact Nat.not_le.mp fun hle => ha.permanent v (by rwa [Heap.regionEnd, ← hcapacity]) h'
  have hsweep : ∀ marks, (∀ v, W.Has v → marks[v.index]? ≠ some true) →
      k.sweepUnmarked marks = h.sweepUnmarked marks := by
    intro marks hm
    rw [Heap.sweepUnmarked, Heap.sweepUnmarked, hstart.sweep_eq hm 0, hcapacity]
  rw [Heap.collectKeeping, Heap.collectKeeping, hmarking,
    hsweep _ fun v hv hm => hclean.marks v hm hv]

lemma Alike.prepare_cases (ha : W.Alike h k) (he : ∀ v ∈ extra, W.Spares v) :
    k.prepare extra = h.prepare extra ∨ h.prepare extra = .ok h ∧ k.prepare extra = .ok k := by
  have hfree : k.free = h.free := by rw [ha.same]
  rw [Heap.prepare, Heap.prepare, hfree, ha.collectKeeping_eq he]
  split
  · exact .inl rfl
  · exact .inr ⟨rfl, rfl⟩

end Waste

end ArenaScheme
