/-
# What a collection does

Sweeping reclaims exactly the collectible cells without a mark.  Since it goes from the highest cell
to the lowest and always puts the cell at the head of the list, the list it builds is in ascending
order.  Together with marking this says what a collection of a closed heap does: it frees a
collectible cell if and only if the cell cannot be reached, and it changes no other object.
-/
import Mathlib.Data.Set.Card
import ArenaScheme.Proofs.Marking

namespace ArenaScheme

namespace Heap

/-! ## Sweeping -/

/-- The lowest `n` collectible cells without a mark, in ascending order. -/
def unmarked (marks : Array Bool) (n : Nat) : List Nat :=
  (List.range' regionStart n).filter fun i => marks[i]? != some true

lemma mem_unmarked {marks : Array Bool} {n i : Nat} :
    i ∈ unmarked marks n ↔ regionStart ≤ i ∧ i < regionStart + n ∧ marks[i]? ≠ some true := by
  simp [unmarked, List.mem_range'_1, and_assoc]

lemma unmarked_succ (marks : Array Bool) (n : Nat) :
    unmarked marks (n + 1) = unmarked marks n ++
      (if marks[regionStart + n]? = some true then [] else [regionStart + n]) := by
  rw [unmarked, List.range'_1_concat, List.filter_append, unmarked]
  by_cases hm : marks[regionStart + n]? = some true <;> simp [hm]

lemma sweep_of_marked {marks : Array Bool} {n freed : Nat} {h : Heap}
    (hm : marks[regionStart + n]? = some true) :
    sweep marks (n + 1) freed h = sweep marks n freed h := by
  rw [sweep]
  simp only [hm]

lemma sweep_of_unmarked {marks : Array Bool} {n freed : Nat} {h : Heap}
    (hm : marks[regionStart + n]? ≠ some true) (hs : regionStart + n < h.cells.size) :
    sweep marks (n + 1) freed h =
      sweep marks n (freed + if h.isLive ⟨regionStart + n⟩ then 1 else 0)
        (h.reclaim (regionStart + n)) := by
  have hc : h.cells[regionStart + n]? = some h.cells[regionStart + n] :=
    Array.getElem?_eq_getElem hs
  have hl : h.isLive ⟨regionStart + n⟩ = !(h.cells[regionStart + n]).isFree := by
    simp [isLive, hc]
  rw [sweep, hl]
  simp only [hc]
  cases h.cells[regionStart + n] <;> split <;>
    first | contradiction | simp_all [Datum.isFree, Datum.type]

/-- The effect of sweeping the lowest `n` collectible cells when the free list holds the cells `l`,
all of them higher ones. -/
lemma sweep_spec (marks : Array Bool) (n freed : Nat) {h : Heap} {l : List Nat}
    (hl : h.FreeList l) (hn : l.Nodup) (hle : ∀ i ∈ l, regionStart + n ≤ i)
    (hs : regionStart + n ≤ h.cells.size) :
    (sweep marks n freed h).2.FreeList (unmarked marks n ++ l) ∧
      (∀ v, (sweep marks n freed h).2.object? v =
        if v.index ∈ unmarked marks n then none else h.object? v) ∧
      (sweep marks n freed h).1 =
        freed + ((unmarked marks n).filter fun i => h.isLive ⟨i⟩).length ∧
      (sweep marks n freed h).2.freeCount = h.freeCount + (unmarked marks n).length ∧
      (sweep marks n freed h).2.collections = h.collections ∧
      SameFrame h (sweep marks n freed h).2 := by
  induction n generalizing freed h l with
  | zero => simp [sweep, unmarked, hl, SameFrame.refl]
  | succ n ih =>
    by_cases hm : marks[regionStart + n]? = some true
    · rw [sweep_of_marked hm, unmarked_succ, if_pos hm, List.append_nil]
      exact ih freed hl hn (fun i hi => by have := hle i hi; omega) (by omega)
    have hnil : regionStart + n ∉ l := fun hi => by have := hle _ hi; omega
    obtain ⟨hl', ho, hfc, hcol, hfr⟩ := reclaim_spec hl hn hnil (by omega)
    rw [sweep_of_unmarked hm (by omega)]
    obtain ⟨h1, h2, h3, h4, h5, h6⟩ :=
      ih (freed + if h.isLive ⟨regionStart + n⟩ then 1 else 0) hl' (List.nodup_cons.mpr ⟨hnil, hn⟩)
        (fun i hi => by
          rcases List.mem_cons.mp hi with rfl | hi
          · exact Nat.le_refl _
          · have := hle i hi; omega)
        (by rw [hfr.size]; omega)
    rw [unmarked_succ, if_neg hm]
    refine ⟨by simpa using h1, fun v => ?_, ?_, ?_, h5.trans hcol, hfr.trans h6⟩
    · rw [h2, ho]
      by_cases hv : v.index = regionStart + n <;> simp [hv]
    · have hsame : (unmarked marks n).filter (fun i => (h.reclaim (regionStart + n)).isLive ⟨i⟩) =
          (unmarked marks n).filter fun i => h.isLive ⟨i⟩ := by
        refine List.filter_congr fun i hi => ?_
        have hne : i ≠ regionStart + n := by have := (mem_unmarked.mp hi).2.1; omega
        rw [isLive_eq_isSome, ho, if_neg hne, isLive_eq_isSome]
      rw [h3, hsame, List.filter_append, List.length_append]
      cases hlv : h.isLive ⟨regionStart + n⟩ <;> simp [hlv]
      omega
    · rw [h4, hfc]
      simp
      omega

/-! ## Collections -/

/-- `h'` is what a collection that also keeps `extra` makes of `h`, and `c` is its report. -/
structure Collected (h : Heap) (extra : List Handle) (c : Collection) (h' : Heap) : Prop where
  /-- A collectible cell is free afterwards exactly if it cannot be reached. -/
  free_iff : ∀ i, h.Collectible i →
    ((∃ p n, h'.cells[i]? = some (.free p n)) ↔ ¬ h.Reachable extra ⟨i⟩)
  /-- What can be reached stays as it is. -/
  kept : ∀ v, h.Reachable extra v → h'.datum? v = h.datum? v
  /-- So do the sentinels and the permanent cells. -/
  outside : ∀ v : Handle, ¬ h.Collectible v.index → h'.datum? v = h.datum? v
  /-- The free list runs through the free cells in ascending order. -/
  freeList : h'.FreeList ((List.range' regionStart h.capacity).filter fun i => !h'.isLive ⟨i⟩)
  /-- The report counts the collectible cells that were in use and are free now. -/
  freed : c.freed = {i | h.Collectible i ∧ h.isLive ⟨i⟩ ∧ ¬ h'.isLive ⟨i⟩}.ncard
  /-- The report counts the collectible cells that can be reached. -/
  live : c.live = {i | h.Collectible i ∧ h.Reachable extra ⟨i⟩}.ncard
  count : c.collections = h.collections + 1
  /-- The length of the free list is kept right. -/
  freeCount : h'.freeCount =
    ((List.range' regionStart h.capacity).filter fun i => !h'.isLive ⟨i⟩).length
  collections : h'.collections = h.collections + 1
  frame : SameFrame h h'

lemma mem_range'_capacity {h : Heap} {i : Nat} :
    i ∈ List.range' regionStart h.capacity ↔ h.Collectible i := by
  rw [List.mem_range'_1, Collectible, regionEnd]

lemma ncard_collectible (h : Heap) (p : Nat → Bool) :
    {i | h.Collectible i ∧ p i}.ncard =
      ((List.range' regionStart h.capacity).filter p).length := by
  have hset : {i | h.Collectible i ∧ p i} =
      ((List.range' regionStart h.capacity).filter p).toFinset := by
    ext i
    simp [Collectible, regionEnd, List.mem_range'_1]
  rw [hset, Set.ncard_coe_finset,
    List.toFinset_card_of_nodup (List.Nodup.filter _ List.nodup_range')]

/-- The effect of sweeping the whole region: a new free list, and no other change to objects than
that those of the unmarked cells are gone. -/
lemma sweepUnmarked_spec (marks : Array Bool) {h : Heap} (hs : h.regionEnd ≤ h.cells.size) :
    (h.sweepUnmarked marks).2.FreeList (unmarked marks h.capacity) ∧
      (∀ v, (h.sweepUnmarked marks).2.object? v =
        if v.index ∈ unmarked marks h.capacity then none else h.object? v) ∧
      (h.sweepUnmarked marks).1 =
        ⟨h.collections + 1, ((unmarked marks h.capacity).filter fun i => h.isLive ⟨i⟩).length,
          h.capacity - (unmarked marks h.capacity).length⟩ ∧
      (h.sweepUnmarked marks).2.freeCount = (unmarked marks h.capacity).length ∧
      (h.sweepUnmarked marks).2.collections = h.collections + 1 ∧
      SameFrame h (h.sweepUnmarked marks).2 := by
  have hstart : ({ h with free := none, freeCount := 0 } : Heap).FreeList [] := rfl
  obtain ⟨hfl, hobj, hfreed, hfc, hcol, hfr⟩ :=
    sweep_spec marks h.capacity 0 hstart List.nodup_nil (by simp) hs
  rw [sweepUnmarked]
  generalize sweep marks h.capacity 0 _ = swept at *
  obtain ⟨freed, h'⟩ := swept
  dsimp only at *
  have hcap : h'.capacity = h.capacity := hfr.capacity
  rw [List.append_nil] at hfl
  refine ⟨hfl, hobj, ?_, by simpa using hfc, by rw [hcol], ⟨hfr.size, hfr.capacity,
    hfr.roots, hfr.rootSlots, hfr.symbols, hfr.baseEnv, hfr.currentEnv, hfr.audited⟩⟩
  simp only [liveCount, hfreed, hfc, hcol, hcap, Nat.zero_add]
  rfl

/-- A collection halts on no closed heap.  It takes away the objects that cannot be reached and no
others. -/
lemma collectKeeping_spec {h : Heap} (hc : h.Closed) (extra : List Handle)
    (he : ∀ v ∈ extra, h.isLive v = true) :
    ∃ c h', h.collectKeeping extra = .ok (c, h') ∧ h.Collected extra c h' := by
  obtain ⟨hfault, hmarks, -, -⟩ := marking_spec hc extra he
  obtain ⟨hfl, hobj, hcoll, hfc, hcol, hfr⟩ := sweepUnmarked_spec (h.marking extra).marks hc.layout
  have hrun : h.collectKeeping extra = .ok (h.sweepUnmarked (h.marking extra).marks) := by
    simp only [collectKeeping, hfault]
  generalize h.sweepUnmarked (h.marking extra).marks = swept at *
  generalize (h.marking extra).marks = marks at *
  obtain ⟨c, h'⟩ := swept
  dsimp only at *
  have hmem : ∀ i, i ∈ unmarked marks h.capacity ↔ h.Collectible i ∧ ¬ h.Reachable extra ⟨i⟩ := by
    intro i
    rw [mem_unmarked, Ne, hmarks, Collectible, regionEnd, and_assoc]
  have hkept : ∀ v, h.Reachable extra v → h'.object? v = h.object? v := fun v hv => by
    rw [hobj, if_neg fun hi => ((hmem _).mp hi).2 hv]
  have hlive : ∀ v, h.Reachable extra v → h.isLive v = true :=
    fun v hv => hc.isLive_of_reachable he hv
  have hdatum : ∀ v, h.Reachable extra v → h'.datum? v = h.datum? v := fun v hv => by
    obtain ⟨d, hd⟩ := isLive_iff.mp (hlive v hv)
    exact (object?_eq_some.mp ((hkept v hv).trans hd)).1.trans (object?_eq_some.mp hd).1.symm
  have hlive' : ∀ i, h.Collectible i → (h'.isLive ⟨i⟩ = true ↔ h.Reachable extra ⟨i⟩) := by
    intro i hi
    by_cases hr : h.Reachable extra ⟨i⟩
    · rw [isLive_eq_isSome, hkept _ hr, ← isLive_eq_isSome]
      simp [hr, hlive _ hr]
    · rw [isLive_eq_isSome, hobj, if_pos ((hmem i).mpr ⟨hi, hr⟩)]
      simp [hr]
  have hlist : unmarked marks h.capacity =
      (List.range' regionStart h.capacity).filter fun i => !h'.isLive ⟨i⟩ := by
    refine List.filter_congr fun i hi => ?_
    rw [Bool.eq_iff_iff, bne_iff_ne, Ne, hmarks i, ← hlive' i (mem_range'_capacity.mp hi)]
    simp
  refine ⟨c, h', hrun, fun i hi => ?_, hdatum, fun v hv => ?_, hlist ▸ hfl, ?_, ?_,
    by rw [hcoll], hlist ▸ hfc, hcol, hfr⟩
  · rw [← hlive' i hi, Bool.not_eq_true]
    constructor
    · rintro ⟨p, n, hf⟩
      rw [isLive_eq_isSome, object?_eq_none_of_free hf]
      rfl
    · refine fun hf => free_of_not_isLive ?_ hf
      have := hi.2
      have := hc.layout
      rw [hfr.size]
      omega
  · by_cases hs : v.index < h.cells.size
    · exact hdatum v (.of_not_collectible hs hv)
    · simp [datum?, hs, hfr.size]
  · have hset : {i | h.Collectible i ∧ h.isLive ⟨i⟩ ∧ ¬ h'.isLive ⟨i⟩} =
        {i | h.Collectible i ∧ (h.isLive ⟨i⟩ && !h'.isLive ⟨i⟩) = true} := by
      ext i
      simp
    rw [hset, ncard_collectible h fun i => h.isLive ⟨i⟩ && !h'.isLive ⟨i⟩, hcoll, hlist,
      List.filter_filter]
  · have hset : {i | h.Collectible i ∧ h.Reachable extra ⟨i⟩} =
        {i | h.Collectible i ∧ h'.isLive ⟨i⟩ = true} := by
      ext i
      exact and_congr_right fun hi => (hlive' i hi).symm
    have hlen := List.length_eq_length_filter_add (l := List.range' regionStart h.capacity)
      fun i => h'.isLive ⟨i⟩
    rw [List.length_range'] at hlen
    rw [hset, ncard_collectible, hcoll, hlist]
    dsimp only
    omega

/-- Collections are exact.  In a closed heap, whatever its shape, a collection ends; it frees a
collectible cell exactly if the cell cannot be reached, keeps all else as it is, rebuilds the free
list in ascending order and reports the right counts; and no cell is put on the worklist twice. -/
theorem collect_exact {h : Heap} (hc : h.Closed) :
    ∃ c h', h.collect = .ok (c, h') ∧ h.Collected [] c h' ∧ (h.worklistEntries []).Nodup := by
  obtain ⟨c, h', hrun, hcoll⟩ := collectKeeping_spec hc [] (by simp)
  exact ⟨c, h', hrun, hcoll, (marking_spec hc [] (by simp)).2.2.1⟩

/-- A heap with cycles through a pair, a closure and a frame, all of which can be reached, and with
a pair that only the pair itself refers to. -/
def tangled : Heap where
  cells := #[.emptyList, .bool true, .bool false, .error .outOfMemory "out of memory",
    .pair ⟨5⟩ ⟨4⟩, .closure ⟨6⟩ .emptyList ⟨4⟩, .frame (some ⟨9⟩) ⟨4⟩ ⟨5⟩, .pair ⟨7⟩ ⟨5⟩,
    .free none none, rootFrame]
  capacity := 5
  free := some 8
  freeCount := 1
  collections := 0
  roots := #[⟨4⟩]
  rootSlots := 1
  symbols := ∅
  baseEnv := ⟨9⟩
  currentEnv := ⟨6⟩
  audited := true

theorem collect_exact_tangled : tangled.Closed ∧
    ∃ c h', tangled.collect = .ok (c, h') ∧ tangled.Collected [] c h' ∧
      (tangled.worklistEntries []).Nodup :=
  ⟨by decide, collect_exact (by decide)⟩

end Heap

end ArenaScheme
