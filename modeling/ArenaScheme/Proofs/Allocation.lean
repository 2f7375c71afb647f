/-
# Elementary changes of a well-formed heap

A heap stays well formed when an object is replaced by another one, when a permanent cell is
appended, when the roots or the frames that the heap names are changed, and when an object is
allocated, as long as all handles that are put into the heap are handles of objects.

Allocation is the delicate one, since it may run a collection first.  What it does is summed up in
`Heap.Allocated`: all that could be reached, be it from the operands only, is there as before; every
other object was there before; and nothing but the caller knows the new handle.
-/
import ArenaScheme.Heap.Symbols
import ArenaScheme.Proofs.WellFormed

namespace ArenaScheme

namespace Heap

/-! ## Roots and frames -/

lemma WellFormed.setRoots {h : Heap} (hw : h.WellFormed) {roots : Array Handle}
    (hr : ∀ v ∈ roots.toList, h.isLive v = true) : ({ h with roots } : Heap).WellFormed :=
  ⟨⟨hw.layout, hw.outside, hw.child, hr, hw.base, hw.current⟩, hw.free.imp fun _ hl => ⟨hl.list,
    hl.nodup, hl.mem_iff, hl.count⟩, hw.table⟩

lemma WellFormed.push {h : Heap} (hw : h.WellFormed) {v : Handle} (hv : h.isLive v = true) :
    ({ h with roots := h.roots.push v } : Heap).WellFormed := by
  refine hw.setRoots fun w hm => ?_
  rw [Array.toList_push, List.mem_append, List.mem_singleton] at hm
  rcases hm with hm | rfl
  · exact hw.root w hm
  · exact hv

lemma WellFormed.pop {h : Heap} (hw : h.WellFormed) :
    ({ h with roots := h.roots.pop } : Heap).WellFormed := by
  refine hw.setRoots fun w hm => hw.root w ?_
  rw [Array.toList_pop] at hm
  exact List.mem_of_mem_dropLast hm

lemma WellFormed.put {h : Heap} (hw : h.WellFormed) {v : Handle} (hv : h.isLive v = true)
    (i : Nat) : ({ h with roots := h.roots.setIfInBounds i v } : Heap).WellFormed := by
  refine hw.setRoots fun w hm => ?_
  rw [Array.toList_setIfInBounds] at hm
  rcases List.mem_or_eq_of_mem_set hm with hm | rfl
  · exact hw.root w hm
  · exact hv

lemma WellFormed.isLive_root {h : Heap} (hw : h.WellFormed) {i : Nat} {v : Handle}
    (hv : h.roots[i]? = some v) : h.isLive v = true :=
  hw.root v (Array.mem_toList_iff.mpr (Array.mem_of_getElem? hv))

lemma WellFormed.switchEnv {h : Heap} (hw : h.WellFormed) {env : Handle}
    (he : h.isLive env = true) : ({ h with currentEnv := env } : Heap).WellFormed :=
  ⟨⟨hw.layout, hw.outside, hw.child, hw.root, hw.base, he⟩, hw.free.imp fun _ hl => ⟨hl.list,
    hl.nodup, hl.mem_iff, hl.count⟩, hw.table⟩

/-! ## Overwriting and appending -/

lemma isLive_setCell {h : Heap} {v : Handle} {d d' : Datum} (hv : h.object? v = some d)
    (hf : d'.isFree = false) (w : Handle) : (h.setCell v.index d').isLive w = h.isLive w := by
  rw [isLive_eq_isSome, object?_setCell h (lt_size_of_object? hv), isLive_eq_isSome, hf]
  split
  · next he => rw [show w = v from congrArg Handle.mk he, hv]; rfl
  · rfl

/-- An object that is no symbol may be replaced by any object that refers to objects only. -/
lemma WellFormed.setCell {h : Heap} (hw : h.WellFormed) {v : Handle} {d d' : Datum}
    (hv : h.object? v = some d) (hs : d.type ≠ .symbol) (hf : d'.isFree = false)
    (hc : ∀ w ∈ d'.children, h.isLive w = true) : (h.setCell v.index d').WellFormed := by
  have hlt := lt_size_of_object? hv
  have hlive := isLive_setCell hv hf
  have hne : ∀ {i : Nat} {p n : Option Nat}, h.cells[i]? = some (.free p n) → v.index ≠ i := by
    rintro _ p n hi rfl
    rw [object?_eq_none_of_free hi] at hv
    simp at hv
  have hfree : ∀ i : Nat, (∃ p n, (h.setCell v.index d').cells[i]? = some (Datum.free p n)) ↔
      ∃ p n, h.cells[i]? = some (Datum.free p n) := by
    intro i
    by_cases hi : v.index = i
    · subst hi
      have hnot : ¬ ∃ p n, h.cells[v.index]? = some (Datum.free p n) := fun ⟨p, n, hp⟩ => hne hp rfl
      simp only [hnot, iff_false]
      rintro ⟨p, n, hp⟩
      rw [cells_setCell, Array.getElem?_setIfInBounds_self, if_pos hlt] at hp
      rw [Option.some.inj hp] at hf
      simp at hf
    · rw [cells_setCell, Array.getElem?_setIfInBounds_ne hi]
  obtain ⟨l, hl⟩ := hw.free
  refine ⟨⟨?_, fun w hw' hn => ?_, fun w e hwe x hx => ?_, fun w hm => ?_, ?_, ?_⟩,
    ⟨l, ?_, hl.nodup, fun i => (hl.mem_iff i).trans (hfree i).symm, hl.count⟩, fun name s hs' => ?_⟩
  · rw [(SameFrame.setCell h _ _).size]
    exact hw.layout
  · rw [(SameFrame.setCell h _ _).size] at hw'
    rw [hlive]
    exact hw.outside w hw' hn
  · rw [hlive]
    rw [object?_setCell h hlt, hf] at hwe
    split at hwe
    · obtain rfl : d' = e := by simpa using hwe
      exact hc x hx
    · exact hw.child w e hwe x hx
  · rw [hlive]
    exact hw.root w hm
  · rw [hlive]
    exact hw.base
  · rw [hlive]
    exact hw.current
  · refine Linked.congr (fun i hi => ?_) hl.list
    obtain ⟨p, n, hp⟩ := (hl.mem_iff i).mp hi
    rw [cells_setCell, Array.getElem?_setIfInBounds_ne (hne hp)]
  · obtain ⟨h1, h2⟩ := hw.table name s hs'
    refine ⟨h1, ?_⟩
    rw [object?_setCell h hlt, if_neg]
    · exact h2
    · intro he
      rw [show s = v from congrArg Handle.mk he, hv] at h2
      exact hs (by rw [Option.some.inj h2]; rfl)

lemma object?_addPermanent (h : Heap) {d : Datum} (hf : d.isFree = false) (v : Handle) :
    (h.addPermanent d).2.object? v = if v.index = h.cells.size then some d else h.object? v := by
  simp only [addPermanent, object?, Array.getElem?_push]
  split <;> simp [Option.filter, hf]

lemma not_collectible_size {h : Heap} (hc : h.Closed) : ¬ h.Collectible h.cells.size := fun hm => by
  have := hc.layout
  have := hm.2
  omega

/-- A permanent cell may be appended if it refers to objects only. -/
lemma WellFormed.addPermanent {h : Heap} (hw : h.WellFormed) {d : Datum} (hf : d.isFree = false)
    (hc : ∀ w ∈ d.children, h.isLive w = true) : (h.addPermanent d).2.WellFormed := by
  have hobj := h.object?_addPermanent hf
  have hsame : ∀ {w e}, h.object? w = some e → (h.addPermanent d).2.object? w = some e := by
    intro w e hwe
    rw [hobj, if_neg (Nat.ne_of_lt (lt_size_of_object? hwe)), hwe]
  have hlive : ∀ w, h.isLive w = true → (h.addPermanent d).2.isLive w = true := fun w hw' => by
    obtain ⟨e, he⟩ := isLive_iff.mp hw'
    exact isLive_of_object? (hsame he)
  have hsize : (h.addPermanent d).2.cells.size = h.cells.size + 1 := by simp [Heap.addPermanent]
  have hcells : ∀ {i}, i < h.cells.size → (h.addPermanent d).2.cells[i]? = h.cells[i]? := by
    intro i hi
    simp [Heap.addPermanent, Array.getElem?_push, Nat.ne_of_lt hi]
  obtain ⟨l, hl⟩ := hw.free
  refine ⟨⟨?_, fun w hs hn => ?_, fun w e hwe x hx => ?_, fun w hm => hlive w (hw.root w hm),
    hlive _ hw.base, hlive _ hw.current⟩, ⟨l, ?_, hl.nodup, fun i => (hl.mem_iff i).trans ?_,
    hl.count⟩, fun name s hs => ?_⟩
  · have h1 : (h.addPermanent d).2.regionEnd = h.regionEnd := rfl
    have := hw.layout
    omega
  · by_cases he : w.index = h.cells.size
    · exact isLive_of_object? (by rw [hobj, if_pos he])
    · exact hlive w (hw.outside w (by omega) hn)
  · rw [hobj] at hwe
    split at hwe
    · obtain rfl := Option.some.inj hwe
      exact hlive x (hc x hx)
    · exact hlive x (hw.child w e hwe x hx)
  · refine Linked.congr (fun i hi => hcells ?_) hl.list
    obtain ⟨p, n, hp⟩ := (hl.mem_iff i).mp hi
    exact (Array.getElem?_eq_some_iff.mp hp).1
  · refine exists_congr fun p => exists_congr fun n => ?_
    by_cases hi : i < h.cells.size
    · rw [hcells hi]
    · refine iff_of_false (by simp [Nat.not_lt.mp hi]) fun hp => ?_
      have hlt := (Array.getElem?_eq_some_iff.mp hp).1
      obtain rfl : i = h.cells.size := by omega
      simp only [Heap.addPermanent, Array.getElem?_push_size, Option.some.injEq] at hp
      rw [hp] at hf
      simp at hf
  · obtain ⟨h1, h2⟩ := hw.table name s hs
    exact ⟨h1, hsame h2⟩

/-- Interning keeps a heap well formed, and the symbol it returns is one of that name. -/
lemma WellFormed.intern {h : Heap} (hw : h.WellFormed) (name : String) :
    (h.intern name).2.WellFormed ∧
      (h.intern name).2.object? (h.intern name).1 = some (.symbol name) := by
  unfold Heap.intern
  split
  · next s hs => exact ⟨hw, (hw.table name s hs).2⟩
  have hobj := h.object?_addPermanent (d := .symbol name) rfl
  have hp := hw.addPermanent (d := .symbol name) rfl (by simp [Datum.children])
  have hnew : (h.addPermanent (.symbol name)).2.object? ⟨h.cells.size⟩ = some (.symbol name) := by
    rw [hobj, if_pos rfl]
  refine ⟨⟨⟨hp.layout, hp.outside, hp.child, hp.root, hp.base, hp.current⟩,
    hp.free.imp fun _ hl => ⟨hl.list, hl.nodup, hl.mem_iff, hl.count⟩, fun n s hs => ?_⟩, hnew⟩
  change ((h.addPermanent (.symbol name)).2.symbols.insert name ⟨h.cells.size⟩)[n]? = some s at hs
  rw [Std.TreeMap.getElem?_insert] at hs
  split at hs
  · next he =>
    obtain rfl : name = n := by simpa using he
    obtain rfl := Option.some.inj hs
    exact ⟨not_collectible_size hw.toClosed, hnew⟩
  · exact hp.table n s hs

/-! ## Allocating -/

/-- `h'` has what can be reached in `h`, be it from `extra` only, and no object that `h` has not. -/
structure Kept (h : Heap) (extra : List Handle) (h' : Heap) : Prop where
  frame : SameFrame h h'
  kept : ∀ v, h.Reachable extra v → h'.object? v = h.object? v
  old : ∀ v d, h'.object? v = some d → h.object? v = some d

lemma Kept.refl (h : Heap) (extra : List Handle) : Kept h extra h :=
  ⟨.refl h, fun _ _ => rfl, fun _ _ => id⟩

lemma Collected.toKept {h h' : Heap} {extra : List Handle} {c : Collection} (hw : h.WellFormed)
    (he : ∀ v ∈ extra, h.isLive v = true) (hcoll : h.Collected extra c h') : Kept h extra h' := by
  refine ⟨hcoll.frame, fun v hv => ?_, fun v d hd => (hcoll.object?.mp hd).2⟩
  obtain ⟨d, hd⟩ := isLive_iff.mp (hw.isLive_of_reachable he hv)
  rw [hd]
  exact hcoll.object?.mpr ⟨hv, hd⟩

/-- `h'` is `h` with a new object `d` at `v`. -/
structure Allocated (h : Heap) (d : Datum) (v : Handle) (h' : Heap) : Prop where
  frame : SameFrame h h'
  new : h'.object? v = some d
  kept : ∀ w, h.Reachable d.children w → h'.object? w = h.object? w
  old : ∀ w e, w ≠ v → h'.object? w = some e → h.object? w = some e
  fresh : ¬ h.Reachable d.children v
  unknown : ∀ w e, w ≠ v → h'.object? w = some e → v ∉ e.children
  collectible : h.Collectible v.index

/-- Preparing an allocation never halts; if no free cell is found, there is none. -/
lemma prepare_spec {h : Heap} (hw : h.WellFormed) {extra : List Handle}
    (he : ∀ v ∈ extra, h.isLive v = true) :
    ∃ h', h.prepare extra = .ok h' ∧ h'.WellFormed ∧ h.Kept extra h' := by
  unfold prepare
  split
  · obtain ⟨c, h', hrun, hcoll⟩ := collectKeeping_spec hw.toClosed extra he
    exact ⟨h', by rw [hrun]; rfl, hcoll.wellFormed hw he, hcoll.toKept hw he⟩
  · exact ⟨h, rfl, hw, .refl h extra⟩

/-- Taking a free cell into use. -/
lemma claim_wellFormed {h : Heap} (hw : h.WellFormed) {i : Nat} (hi : h.free = some i) {d : Datum}
    (hf : d.isFree = false) (hc : ∀ v ∈ d.children, h.isLive v = true) :
    ∃ h', h.claim i d = .ok h' ∧ h'.WellFormed ∧
      (∀ v, h'.object? v = if v.index = i then some d else h.object? v) ∧
      h.object? ⟨i⟩ = none ∧ h.Collectible i ∧ SameFrame h h' := by
  obtain ⟨l, hl⟩ := hw.free
  obtain ⟨j, l, rfl⟩ : ∃ j l', l = j :: l' := by
    cases l with
    | nil =>
      have : h.free = none := hl.list
      rw [hi] at this
      simp at this
    | cons j l => exact ⟨j, l, rfl⟩
  obtain rfl : i = j := Option.some.inj (hi.symm.trans hl.list.1)
  obtain ⟨h', hclaim, hfl, hobj, hcount, -, hfr⟩ := claim_spec hl.list hl.nodup hf
  obtain ⟨p, n, hp⟩ := (hl.mem_iff i).mp (by simp)
  have hnone : h.object? ⟨i⟩ = none := object?_eq_none_of_free hp
  have hcol : h.Collectible i := hw.collectible_of_free hp
  have hlive : ∀ w, h.isLive w = true → h'.isLive w = true := fun w hw' => by
    rw [isLive_eq_isSome, hobj]
    split
    · rfl
    · rwa [← isLive_eq_isSome]
  have hout : ∀ w : Handle, w.index < h'.cells.size → ¬ h'.Collectible w.index →
      h'.isLive w = true := fun w hs hn =>
    hlive w (hw.outside w (hfr.size ▸ hs) (mt hfr.collectible.mpr hn))
  refine ⟨h', hclaim, ⟨⟨?_, hout, fun w e hwe x hx => ?_, fun w hm => ?_, ?_, ?_⟩,
    ⟨l, hfl, (List.nodup_cons.mp hl.nodup).2, fun k => ?_, ?_⟩, fun name s hs => ?_⟩, hobj, hnone,
    hcol, hfr⟩
  · rw [hfr.regionEnd, hfr.size]
    exact hw.layout
  · rw [hobj] at hwe
    split at hwe
    · obtain rfl := Option.some.inj hwe
      exact hlive x (hc x hx)
    · exact hlive x (hw.child w e hwe x hx)
  · rw [hfr.roots] at hm
    exact hlive w (hw.root w hm)
  · rw [hfr.baseEnv]
    exact hlive _ hw.base
  · rw [hfr.currentEnv]
    exact hlive _ hw.current
  · constructor
    · exact fun hk => Linked.free_of_mem hfl hk
    · rintro ⟨q, m, hq⟩
      have hk : h'.object? ⟨k⟩ = none := object?_eq_none_of_free hq
      rw [hobj] at hk
      split at hk
      · simp at hk
      · next hne =>
        have hlt : k < h.cells.size := hfr.size ▸ (Array.getElem?_eq_some_iff.mp hq).1
        have hmem := (hl.mem_iff k).mpr (free_of_object?_eq_none hlt hk)
        exact (List.mem_cons.mp hmem).resolve_left hne
  · rw [hcount, hl.count]
    simp
  · rw [hfr.symbols] at hs
    obtain ⟨h1, h2⟩ := hw.table name s hs
    refine ⟨mt hfr.collectible.mp h1, ?_⟩
    rw [hobj, if_neg]
    · exact h2
    · intro he
      rw [show s = ⟨i⟩ from congrArg Handle.mk he, hnone] at h2
      simp at h2

/-- Allocation in a well-formed heap never halts.  It makes a new object of the arena, or, if all
collectible cells are reachable, fails for want of memory. -/
lemma alloc_spec {h : Heap} (hw : h.WellFormed) {d : Datum} (hf : d.isFree = false)
    (hc : ∀ v ∈ d.children, h.isLive v = true) :
    (∃ v h', HeapM.alloc d h = .ok v h' ∧ h'.WellFormed ∧ h.Allocated d v h') ∨
      ∃ h', HeapM.alloc d h = .error .outOfMemory h' ∧ h'.WellFormed ∧ h.Kept d.children h' := by
  obtain ⟨k, hprep, hwk, hkept⟩ := prepare_spec hw hc
  have hck : ∀ v ∈ d.children, k.isLive v = true := fun v hv => by
    rw [isLive_eq_isSome, hkept.kept v (.of_extra hv), ← isLive_eq_isSome]
    exact hc v hv
  cases hfree : k.free with
  | none => exact .inr ⟨k, by simp only [HeapM.alloc, hprep, hfree], hwk, hkept⟩
  | some i =>
    obtain ⟨h', hclaim, hw', hobj, hnone, hcol, hfr⟩ := claim_wellFormed hwk hfree hf hck
    refine .inl ⟨⟨i⟩, h', by simp only [HeapM.alloc, hprep, hfree, hclaim], hw',
      hkept.frame.trans hfr, by rw [hobj, if_pos rfl], fun w hr => ?_, fun w e hne he => ?_,
      fun hr => ?_, fun w e hne he hm => ?_, hkept.frame.collectible.mp hcol⟩
    · rw [hobj, if_neg, hkept.kept w hr]
      intro hi
      obtain ⟨e, he⟩ := isLive_iff.mp (hw.isLive_of_reachable hc hr)
      rw [← hkept.kept w hr, show w = ⟨i⟩ from congrArg Handle.mk hi, hnone] at he
      simp at he
    · rw [hobj, if_neg fun hi => hne (congrArg Handle.mk hi)] at he
      exact hkept.old w e he
    · obtain ⟨e, he⟩ := isLive_iff.mp (hw.isLive_of_reachable hc hr)
      rw [← hkept.kept _ hr, hnone] at he
      simp at he
    · rw [hobj, if_neg fun hi => hne (congrArg Handle.mk hi)] at he
      have := hwk.child w e he _ hm
      rw [isLive_eq_isSome, hnone] at this
      simp at this

end Heap

end ArenaScheme
