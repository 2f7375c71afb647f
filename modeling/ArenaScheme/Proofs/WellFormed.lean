/-
# Well-formed heaps

A heap is well formed if it is closed, its free list runs exactly through its free cells, and its
table of symbols tells the truth.  A new heap is well formed.  This file shows that the elementary
changes keep a heap well formed: collecting, allocating, overwriting an object, appending a
permanent cell, and changing the roots or the current frame.

Allocation is the delicate one, since it may run a collection first.  What it changes is summed up
in `Heap.Allocated`: nothing that can be reached, be it from the operands only, is lost.
-/
import ArenaScheme.Heap.Objects
import ArenaScheme.Proofs.Collection

namespace ArenaScheme

namespace Heap

/-- The free list runs through the cells `l`, each of them once, and these are the free cells. -/
structure FreeCells (h : Heap) (l : List Nat) : Prop where
  list : h.FreeList l
  nodup : l.Nodup
  mem_iff : ∀ i, i ∈ l ↔ ∃ p n, h.cells[i]? = some (.free p n)
  count : h.freeCount = l.length

/-- The invariant of heaps. -/
structure WellFormed (h : Heap) : Prop extends h.Closed where
  free : ∃ l, h.FreeCells l
  table : ∀ name v, h.symbols[name]? = some v →
    ¬ h.Collectible v.index ∧ h.object? v = some (.symbol name)

/-- A free list that leaves out no free cell. -/
lemma FreeCells.of_list {h : Heap} {l : List Nat} (hl : h.FreeList l) (hn : l.Nodup)
    (hall : ∀ i (hi : i < h.cells.size), h.cells[i].isFree = true → i ∈ l)
    (hc : h.freeCount = l.length) : h.FreeCells l := by
  refine ⟨hl, hn, fun i => ⟨Linked.free_of_mem hl, ?_⟩, hc⟩
  rintro ⟨p, n, hi⟩
  obtain ⟨hlt, hd⟩ := Array.getElem?_eq_some_iff.mp hi
  exact hall i hlt (by rw [hd]; rfl)

/-- A table of one symbol. -/
lemma table_of_insert {h : Heap} {symbol : String} {w : Handle}
    (hs : h.symbols = (∅ : Std.TreeMap String Handle).insert symbol w)
    (hw : ¬ h.Collectible w.index ∧ h.object? w = some (.symbol symbol)) (name : String)
    (v : Handle) (hv : h.symbols[name]? = some v) :
    ¬ h.Collectible v.index ∧ h.object? v = some (.symbol name) := by
  rw [hs, Std.TreeMap.getElem?_insert] at hv
  split at hv
  · next he =>
    obtain rfl := Std.LawfulEqCmp.eq_of_compare he
    exact Option.some.inj hv ▸ hw
  · simp at hv

lemma Closed.collectible_of_free {h : Heap} (hc : h.Closed) {i : Nat} {p n : Option Nat}
    (hf : h.cells[i]? = some (.free p n)) : h.Collectible i := by
  by_contra hn
  have hl := hc.outside ⟨i⟩ (Array.getElem?_eq_some_iff.mp hf).1 hn
  rw [isLive_eq_isSome, object?_eq_none_of_free hf] at hl
  simp at hl

/-- All free cells lie in the collectible region. -/
lemma WellFormed.collectible_of_mem {h : Heap} (hw : h.WellFormed) {l : List Nat}
    (hl : h.FreeCells l) {i : Nat} (hi : i ∈ l) : h.Collectible i := by
  obtain ⟨p, n, hf⟩ := (hl.mem_iff i).mp hi
  exact hw.collectible_of_free hf

/-- The free cells and the cells in use make up the collectible region. -/
lemma WellFormed.freeCount_add_liveCount {h : Heap} (hw : h.WellFormed) :
    h.freeCount + h.liveCount = h.capacity := by
  obtain ⟨l, hl⟩ := hw.free
  have hsub : l ⊆ List.range' regionStart h.capacity :=
    fun i hi => mem_range'_capacity.mpr (hw.collectible_of_mem hl hi)
  have hlen := (List.subperm_of_subset hl.nodup hsub).length_le
  rw [List.length_range'] at hlen
  have := hl.count
  rw [liveCount]
  omega

lemma free_of_object?_eq_none {h : Heap} {i : Nat} (hi : i < h.cells.size)
    (hn : h.object? ⟨i⟩ = none) : ∃ p n, h.cells[i]? = some (.free p n) :=
  free_of_not_isLive hi (by rw [isLive_eq_isSome, hn]; rfl)

/-! ## A new heap -/

lemma cells_ofSizing (s : Sizing) : (ofSizing s).cells.size = regionStart + s.arenaCells + 1 := by
  simp [ofSizing, sentinels, regionStart, Handle.sentinelCount]
  omega

lemma getElem?_ofSizing_collectible {s : Sizing} {k : Nat} (hk : k < s.arenaCells) :
    (ofSizing s).cells[regionStart + k]? = some (freshCell s.arenaCells k) := by
  have h4 : regionStart = 4 := rfl
  have hs : sentinels.length = 4 := rfl
  simp only [ofSizing, Array.getElem?_push, Array.getElem?_append, List.getElem?_toArray,
    List.size_toArray, Array.size_append, Array.size_ofFn, h4, hs]
  rw [if_neg (by omega), if_neg (by omega)]
  simp [hk]

lemma getElem?_ofSizing_base (s : Sizing) :
    (ofSizing s).cells[regionStart + s.arenaCells]? = some rootFrame := by
  have h4 : regionStart = 4 := rfl
  have hs : sentinels.length = 4 := rfl
  simp only [ofSizing, Array.getElem?_push, Array.size_append, List.size_toArray, Array.size_ofFn,
    h4, hs, if_true]

lemma getElem?_ofSizing_sentinel (s : Sizing) {i : Nat} (hi : i < regionStart) :
    (ofSizing s).cells[i]? = sentinels[i]? := by
  have h4 : regionStart = 4 := rfl
  have hs : sentinels.length = 4 := rfl
  simp only [ofSizing, Array.getElem?_push, Array.getElem?_append, List.getElem?_toArray,
    List.size_toArray, Array.size_append, Array.size_ofFn, hs]
  rw [if_neg (by omega), if_pos (by omega)]

lemma object?_ofSizing_sentinel (s : Sizing) {v : Handle} (hv : v.index < regionStart) :
    (ofSizing s).object? v = sentinels[v.index]? := by
  rw [object?, getElem?_ofSizing_sentinel s hv]
  obtain ⟨i⟩ := v
  obtain rfl | rfl | rfl | rfl : i = 0 ∨ i = 1 ∨ i = 2 ∨ i = 3 := by
    simp only [regionStart, Handle.sentinelCount] at hv
    omega
  all_goals rfl

/-- The sentinels hold what they hold in a new arena. -/
def HasSentinels (h : Heap) : Prop :=
  ∀ v : Handle, v.index < regionStart → h.object? v = sentinels[v.index]?

/-- The sentinels are the first cells of the arena. -/
lemma HasSentinels.of_take {h : Heap} (hc : h.cells.toList.take regionStart = sentinels) :
    h.HasSentinels := by
  intro v hv
  have hall : ∀ d ∈ sentinels, d.isFree = false := by decide
  have hcell : h.cells[v.index]? = sentinels[v.index]? := by
    rw [← hc, List.getElem?_take_of_lt hv, Array.getElem?_toList]
  rw [object?, hcell]
  cases hd : sentinels[v.index]? with
  | none => rfl
  | some d => simp [Option.filter, hall d (List.mem_of_getElem? hd)]

lemma hasSentinels_ofSizing (s : Sizing) : (ofSizing s).HasSentinels := fun _ hv =>
  object?_ofSizing_sentinel s hv

lemma object?_ofSizing_base (s : Sizing) :
    (ofSizing s).object? ⟨regionStart + s.arenaCells⟩ = some rootFrame :=
  object?_eq_some.mpr ⟨getElem?_ofSizing_base s, rfl⟩

lemma object?_ofSizing_collectible {s : Sizing} {k : Nat} (hk : k < s.arenaCells) :
    (ofSizing s).object? ⟨regionStart + k⟩ = none :=
  object?_eq_none_of_free (getElem?_ofSizing_collectible hk)

/-- The objects of a new heap are the sentinels and the base frame. -/
lemma object?_ofSizing {s : Sizing} {v : Handle} {d : Datum}
    (hd : (ofSizing s).object? v = some d) :
    (v.index < regionStart ∧ sentinels[v.index]? = some d) ∨
      (v = ⟨regionStart + s.arenaCells⟩ ∧ d = rootFrame) := by
  by_cases h1 : v.index < regionStart
  · exact .inl ⟨h1, by rwa [object?_ofSizing_sentinel s h1] at hd⟩
  obtain ⟨k, hk⟩ : ∃ k, v = ⟨regionStart + k⟩ :=
    ⟨v.index - regionStart, by rw [Nat.add_sub_cancel' (by omega)]⟩
  subst hk
  have hlt := lt_size_of_object? hd
  rw [cells_ofSizing] at hlt
  rcases Nat.lt_or_eq_of_le (show k ≤ s.arenaCells by dsimp only at hlt; omega) with hk | rfl
  · simp [object?_ofSizing_collectible hk] at hd
  · rw [object?_ofSizing_base] at hd
    exact .inr ⟨rfl, (Option.some.inj hd).symm⟩

/-- From the `k`-th collectible cell on, the fresh cells are linked in ascending order. -/
lemma linked_ofSizing (s : Sizing) (k n : Nat) (hk : k + n = s.arenaCells) :
    Linked (ofSizing s).cells (if k = 0 then none else some (regionStart + k - 1))
      (if k < s.arenaCells then some (regionStart + k) else none)
      (List.range' (regionStart + k) n) := by
  induction n generalizing k with
  | zero => simp only [List.range'_zero, Linked, ite_eq_right_iff]; omega
  | succ n ih =>
    rw [List.range'_succ]
    refine ⟨if_pos (by omega), _, getElem?_ofSizing_collectible (by omega), ?_⟩
    have := ih (k + 1) (by omega)
    rwa [if_neg (by omega), ← Nat.add_assoc, Nat.add_sub_cancel] at this

lemma wellFormed_ofSizing (s : Sizing) : (ofSizing s).WellFormed := by
  have hbase : (ofSizing s).isLive ⟨regionStart + s.arenaCells⟩ = true :=
    isLive_of_object? (object?_ofSizing_base s)
  have hnil : (ofSizing s).isLive .emptyList = true :=
    isLive_of_object? (object?_ofSizing_sentinel s (by decide))
  have hsentinel : ∀ v : Handle, v.index < regionStart → (ofSizing s).isLive v = true := by
    intro v hv
    have hlen : v.index < sentinels.length := hv
    rw [isLive_eq_isSome, object?_ofSizing_sentinel s hv, List.getElem?_eq_getElem hlen]
    rfl
  have hre : (ofSizing s).regionEnd = regionStart + s.arenaCells := rfl
  refine ⟨⟨?_, fun v hs hv => ?_, fun v d hd w hw => ?_, by simp [ofSizing], hbase, hbase⟩, ?_,
    by simp [ofSizing]⟩
  · rw [cells_ofSizing, hre]
    omega
  · rw [cells_ofSizing] at hs
    simp only [Collectible, hre] at hv
    by_cases h1 : v.index < regionStart
    · exact hsentinel v h1
    · obtain rfl : v = ⟨regionStart + s.arenaCells⟩ := by
        rw [show v = ⟨v.index⟩ from rfl, Handle.mk.injEq]
        omega
      exact hbase
  · rcases object?_ofSizing hd with ⟨h1, h2⟩ | ⟨rfl, rfl⟩
    · have hnone : d.children = [] := by
        obtain ⟨i⟩ := v
        obtain rfl | rfl | rfl | rfl : i = 0 ∨ i = 1 ∨ i = 2 ∨ i = 3 := by
          simp only [regionStart, Handle.sentinelCount] at h1
          omega
        all_goals
          cases h2
          rfl
      simp [hnone] at hw
    · obtain rfl : w = .emptyList := by simpa [rootFrame, Datum.children] using hw
      exact hnil
  · refine ⟨List.range' regionStart s.arenaCells, ?_, List.nodup_range', fun i => ?_, ?_⟩
    · have := linked_ofSizing s 0 s.arenaCells (by omega)
      rw [FreeList]
      have hfree : (ofSizing s).free = if 0 <
          s.arenaCells then some (regionStart + 0) else none := by
        rcases Nat.eq_zero_or_pos s.arenaCells with h0 | h0
        · simp [ofSizing, h0]
        · simp [ofSizing, h0, Nat.ne_of_gt h0]
      rwa [hfree]
    · rw [List.mem_range'_1]
      constructor
      · rintro ⟨h1, h2⟩
        have := getElem?_ofSizing_collectible (s := s) (k := i - regionStart) (by omega)
        rw [Nat.add_sub_cancel' h1] at this
        exact ⟨_, _, this⟩
      · rintro ⟨p, n, hf⟩
        by_contra hn
        have hlt := (Array.getElem?_eq_some_iff.mp hf).1
        rw [cells_ofSizing] at hlt
        have hlive : (ofSizing s).isLive ⟨i⟩ = true := by
          by_cases h1 : i < regionStart
          · exact hsentinel ⟨i⟩ h1
          · rwa [show i = regionStart + s.arenaCells by omega]
        rw [isLive_eq_isSome, object?_eq_none_of_free hf] at hlive
        simp at hlive
    · simp [ofSizing]

/-! ## Collecting -/

/-- The objects after a collection are those that could be reached before. -/
lemma Collected.object? {h h' : Heap} {extra : List Handle} {c : Collection}
    (hcoll : h.Collected extra c h') {v : Handle} {d : Datum} :
    h'.object? v = some d ↔ h.Reachable extra v ∧ h.object? v = some d := by
  constructor
  · intro hd
    have hlt := lt_size_of_object? hd
    rw [hcoll.frame.size] at hlt
    have hr : h.Reachable extra v := by
      by_contra hr
      by_cases hv : h.Collectible v.index
      · obtain ⟨p, n, hf⟩ := (hcoll.free_iff _ hv).mpr hr
        rw [object?_eq_none_of_free hf] at hd
        simp at hd
      · exact hr (.of_not_collectible hlt hv)
    have hdat := hcoll.kept v hr
    rw [object?_eq_some] at hd
    exact ⟨hr, object?_eq_some.mpr ⟨hdat.symm.trans hd.1, hd.2⟩⟩
  · rintro ⟨hr, hd⟩
    rw [object?_eq_some] at hd ⊢
    exact ⟨(hcoll.kept v hr).trans hd.1, hd.2⟩

lemma Collected.wellFormed {h h' : Heap} {extra : List Handle} {c : Collection}
    (hw : h.WellFormed) (he : ∀ v ∈ extra, h.isLive v = true) (hcoll : h.Collected extra c h') :
    h'.WellFormed := by
  have hobj := fun v d => hcoll.object? (v := v) (d := d)
  have hkept : ∀ v, h.Reachable extra v → h'.isLive v = true := by
    intro v hv
    obtain ⟨d, hd⟩ := isLive_iff.mp (hw.isLive_of_reachable he hv)
    exact isLive_of_object? ((hobj v d).mpr ⟨hv, hd⟩)
  have hcollectible := fun i => hcoll.frame.collectible (i := i)
  have hout : ∀ v : Handle, v.index < h'.cells.size → ¬ h'.Collectible v.index →
      h'.isLive v = true := fun v hs hv =>
    hkept v (.of_not_collectible (hcoll.frame.size ▸ hs) (mt (hcollectible _).mpr hv))
  have hclosed : h'.Closed := by
    refine ⟨?_, hout, fun v d hd w hwd => ?_, fun v hv => ?_, ?_, ?_⟩
    · rw [hcoll.frame.regionEnd, hcoll.frame.size]
      exact hw.layout
    · obtain ⟨hr, hd⟩ := (hobj v d).mp hd
      exact hkept w (.child hr hd hwd)
    · rw [hcoll.frame.roots] at hv
      exact hkept v (.anchor (.root hv))
    · rw [hcoll.frame.baseEnv]
      exact hkept _ (.anchor .base)
    · rw [hcoll.frame.currentEnv]
      exact hkept _ (.anchor .current)
  refine ⟨hclosed, ⟨_, hcoll.freeList, List.Nodup.filter _ List.nodup_range', fun i => ?_,
    hcoll.freeCount⟩, fun name v hv => ?_⟩
  · rw [List.mem_filter, mem_range'_capacity, Bool.not_eq_true']
    constructor
    · rintro ⟨hi, hl⟩
      refine free_of_not_isLive ?_ hl
      have := hi.2
      have := hw.layout
      rw [hcoll.frame.size]
      omega
    · rintro ⟨p, n, hf⟩
      refine ⟨(hcollectible i).mp (hclosed.collectible_of_free hf), ?_⟩
      rw [isLive_eq_isSome, object?_eq_none_of_free hf]
      rfl
  · rw [hcoll.frame.symbols] at hv
    obtain ⟨hn, hd⟩ := hw.table name v hv
    refine ⟨mt (hcollectible _).mp hn, (hobj _ _).mpr ⟨?_, hd⟩⟩
    exact .of_not_collectible (lt_size_of_object? hd) hn

end Heap

end ArenaScheme
