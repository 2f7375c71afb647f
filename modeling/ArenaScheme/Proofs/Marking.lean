/-
# Marking computes reachability

A handle is reachable if it is one of the handles that a collection starts from, or if an object at
a reachable handle refers to it.  In a closed heap, where objects refer to objects only, marking
ends without a fault and marks exactly the reachable cells.

The argument is the one of three colours.  A cell without a mark is white, a marked cell on the
worklist is grey, and any other marked cell is black: no black cell refers to a white one.  Only the
cell that is being scanned is neither, until all of its children have been visited.

Marking is also recorded as a log of the cells that enter the worklist, in order.  No cell is logged
twice, so marking takes at most as many rounds as the arena has cells.
-/
import ArenaScheme.Heap.Collector
import ArenaScheme.Proofs.FreeList

namespace ArenaScheme

namespace Heap

/-! ## Reachability -/

/-- The handles that a collection starts from, if it also keeps `extra`. -/
inductive Anchored (h : Heap) (extra : List Handle) : Handle → Prop
  | sentinel {v : Handle} (hv : v.index < regionStart) : Anchored h extra v
  | permanent {v : Handle} (hr : h.regionEnd ≤ v.index) (hs : v.index < h.cells.size) :
      Anchored h extra v
  | root {v : Handle} (hv : v ∈ h.roots.toList) : Anchored h extra v
  | base : Anchored h extra h.baseEnv
  | current : Anchored h extra h.currentEnv
  | extra {v : Handle} (hv : v ∈ extra) : Anchored h extra v

/-- The handles that can be reached through the children of objects. -/
inductive Reachable (h : Heap) (extra : List Handle) : Handle → Prop
  | anchor {v : Handle} (hv : h.Anchored extra v) : Reachable h extra v
  | child {u v : Handle} {d : Datum} (hu : Reachable h extra u) (hd : h.object? u = some d)
      (hv : v ∈ d.children) : Reachable h extra v

lemma Reachable.of_extra {h : Heap} {extra : List Handle} {v : Handle} (hv : v ∈ extra) :
    h.Reachable extra v := .anchor (.extra hv)

lemma Reachable.mono {h : Heap} {e e' : List Handle} (he : ∀ v ∈ e, h.Reachable e' v) {v : Handle}
    (hv : h.Reachable e v) : h.Reachable e' v := by
  induction hv with
  | anchor hv =>
    cases hv with
    | sentinel hv => exact .anchor (.sentinel hv)
    | permanent hr hs => exact .anchor (.permanent hr hs)
    | root hv => exact .anchor (.root hv)
    | base => exact .anchor .base
    | current => exact .anchor .current
    | extra hv => exact he _ hv
  | child _ hd hc ih => exact .child ih hd hc

lemma Reachable.of_nil {h : Heap} {e : List Handle} {v : Handle} (hv : h.Reachable [] v) :
    h.Reachable e v := hv.mono (by simp)

lemma Reachable.of_slot {h : Heap} {e : List Handle} {i : Nat} {v : Handle}
    (hv : h.roots[i]? = some v) : h.Reachable e v :=
  .anchor (.root (Array.mem_toList_iff.mpr (Array.mem_of_getElem? hv)))

/-- A heap without dangling references: the arena has its three regions, the sentinels and the
permanent cells hold objects, and so does every cell that an object, a root slot or one of the two
named frames refers to. -/
structure Closed (h : Heap) : Prop where
  layout : h.regionEnd ≤ h.cells.size
  outside : ∀ v : Handle, v.index < h.cells.size → ¬ h.Collectible v.index → h.isLive v = true
  child : ∀ (v : Handle) (d : Datum), h.object? v = some d → ∀ w ∈ d.children, h.isLive w = true
  root : ∀ v ∈ h.roots.toList, h.isLive v = true
  base : h.isLive h.baseEnv = true
  current : h.isLive h.currentEnv = true

lemma Closed.isLive_of_reachable {h : Heap} (hc : h.Closed) {extra : List Handle}
    (he : ∀ v ∈ extra, h.isLive v = true) {v : Handle} (hv : h.Reachable extra v) :
    h.isLive v = true := by
  induction hv with
  | anchor hv =>
    cases hv with
    | sentinel hv =>
      have hr : regionStart ≤ h.regionEnd := Nat.le_add_right ..
      exact hc.outside _ (by have := hc.layout; omega) (fun hm => by have := hm.1; omega)
    | permanent hr hs => exact hc.outside _ hs (fun hm => by have := hm.2; omega)
    | root hv => exact hc.root _ hv
    | base => exact hc.base
    | current => exact hc.current
    | extra hv => exact he _ hv
  | child _ hd hv _ => exact hc.child _ _ hd _ hv

/-- A cell that is not collectible is always kept. -/
lemma Reachable.of_not_collectible {h : Heap} {extra : List Handle} {v : Handle}
    (hs : v.index < h.cells.size) (hv : ¬ h.Collectible v.index) : h.Reachable extra v := by
  by_cases hlt : v.index < regionStart
  · exact .anchor (.sentinel hlt)
  · exact .anchor (.permanent (by simp only [Collectible] at hv; omega) hs)

lemma mem_rootHandles {h : Heap} {extra : List Handle} {v : Handle} :
    v ∈ h.rootHandles extra ↔ h.Anchored extra v := by
  simp only [rootHandles, List.mem_append, List.mem_map, List.mem_range, List.mem_range'_1,
    List.mem_cons, List.not_mem_nil, or_false]
  constructor
  · rintro ((((⟨i, hi, rfl⟩ | ⟨i, hi, rfl⟩) | hv) | (rfl | rfl)) | hv)
    · exact .sentinel hi
    · exact .permanent hi.1 (Nat.lt_of_lt_of_le hi.2 (by omega))
    · exact .root hv
    · exact .base
    · exact .current
    · exact .extra hv
  · intro hv
    cases hv with
    | sentinel hv => exact .inl (.inl (.inl (.inl ⟨v.index, hv, rfl⟩)))
    | permanent hr hs => exact .inl (.inl (.inl (.inr ⟨v.index, by omega, rfl⟩)))
    | root hv => exact .inl (.inl (.inr hv))
    | base => exact .inl (.inr (.inl rfl))
    | current => exact .inl (.inr (.inr rfl))
    | extra hv => exact .inr hv

lemma fault?_of_isLive {h : Heap} {v : Handle} (hv : h.isLive v = true) : h.fault? v = none := by
  obtain ⟨d, hd⟩ := isLive_iff.mp hv
  obtain ⟨hc, hf⟩ := object?_eq_some.mp hd
  simp [fault?, hc, hf]

end Heap

namespace Marking

lemma drain_of_nil (h : Heap) {m : Marking} (hw : m.work = []) : m.drain h = m := by
  rw [drain]
  split
  · rfl
  · next hw' => simp [hw] at hw'

lemma drain_of_cons (h : Heap) {m : Marking} {i : Nat} {work : List Nat} (hw : m.work = i :: work) :
    m.drain h = (visitAll h { m with work } (childrenAt h.cells i)).drain h := by
  rw [drain]
  split
  · next hw' => simp [hw] at hw'
  · next hw' =>
    obtain ⟨rfl, rfl⟩ := List.cons.inj (hw.symm.trans hw')
    rfl

lemma mem_childrenAt {h : Heap} {u v : Handle} :
    v ∈ childrenAt h.cells u.index ↔ ∃ d, h.object? u = some d ∧ v ∈ d.children := by
  unfold childrenAt
  constructor
  · split
    · next d hd =>
      intro hv
      cases hf : d.isFree
      · exact ⟨d, Heap.object?_eq_some.mpr ⟨hd, hf⟩, hv⟩
      · obtain ⟨p, n, rfl⟩ := Datum.isFree_iff.mp hf
        simp [Datum.children] at hv
    · simp
  · rintro ⟨d, hd, hv⟩
    rw [(Heap.object?_eq_some.mp hd).1]
    exact hv

/-- If neither a handle that a collection starts from nor a cell outside the collectible region
refers into it, then nothing in it can be reached. -/
lemma not_collectible_of_reachable {h : Heap} {extra : List Handle}
    (hstart : ∀ v ∈ h.rootHandles extra, ¬ h.Collectible v.index)
    (hcells : ∀ i < h.cells.size, ¬ h.Collectible i →
      ∀ w ∈ childrenAt h.cells i, ¬ h.Collectible w.index)
    {v : Handle} (hv : h.Reachable extra v) : ¬ h.Collectible v.index := by
  induction hv with
  | anchor ha => exact hstart _ (Heap.mem_rootHandles.mpr ha)
  | @child u v d _ hd hc ih =>
    exact hcells u.index (Heap.lt_size_of_object? hd) ih v (mem_childrenAt.mpr ⟨d, hd, hc⟩)

/-! ## The log of the worklist -/

/-- The cell that a visit puts on the worklist, if it does. -/
def entered (m : Marking) (v : Handle) : List Nat :=
  if m.marks[v.index]? = some false then [v.index] else []

/-- The cells that visits put on the worklist, in order. -/
def enteredAll (h : Heap) (m : Marking) : List Handle → List Nat
  | [] => []
  | v :: vs => m.entered v ++ enteredAll h (m.visit h v) vs

/-- The cells that enter the worklist while it is drained, in order. -/
def enteredDraining (h : Heap) (m : Marking) : List Nat :=
  match hw : m.work with
  | [] => []
  | i :: work =>
    have := pending_scan h hw (childrenAt h.cells i)
    enteredAll h { m with work } (childrenAt h.cells i) ++
      enteredDraining h (visitAll h { m with work } (childrenAt h.cells i))
termination_by m.pending

lemma enteredDraining_of_nil (h : Heap) {m : Marking} (hw : m.work = []) :
    m.enteredDraining h = [] := by
  rw [enteredDraining]
  split
  · rfl
  · next hw' => simp [hw] at hw'

lemma enteredDraining_of_cons (h : Heap) {m : Marking} {i : Nat} {work : List Nat}
    (hw : m.work = i :: work) :
    m.enteredDraining h = enteredAll h { m with work } (childrenAt h.cells i) ++
      (visitAll h { m with work } (childrenAt h.cells i)).enteredDraining h := by
  rw [enteredDraining]
  split
  · next hw' => simp [hw] at hw'
  · next hw' =>
    obtain ⟨rfl, rfl⟩ := List.cons.inj (hw.symm.trans hw')
    rfl

/-- `m'` has the marks of `m` and those of the cells `l`, each of which has been marked once. -/
structure Grows (m m' : Marking) (l : List Nat) : Prop where
  size : m'.marks.size = m.marks.size
  nodup : l.Nodup
  fresh : ∀ i ∈ l, m.marks[i]? = some false
  marked : ∀ i, m'.marks[i]? = some true ↔ m.marks[i]? = some true ∨ i ∈ l

lemma Grows.refl (m : Marking) : Grows m m [] := ⟨rfl, by simp, by simp, by simp⟩

lemma Grows.trans {m m' m'' : Marking} {l l' : List Nat} (a : Grows m m' l) (b : Grows m' m'' l') :
    Grows m m'' (l ++ l') := by
  refine ⟨b.size.trans a.size, ?_, ?_, fun i => ?_⟩
  · refine List.nodup_append.mpr ⟨a.nodup, b.nodup, ?_⟩
    rintro i hi _ hj rfl
    have h1 := (a.marked i).mpr (.inr hi)
    rw [b.fresh i hj] at h1
    simp at h1
  · intro i hi
    rcases List.mem_append.mp hi with hi | hi
    · exact a.fresh i hi
    · have hf := b.fresh i hi
      have hlt : i < m.marks.size := a.size ▸ (Array.getElem?_eq_some_iff.mp hf).1
      rw [Array.getElem?_eq_getElem hlt]
      by_contra hne
      have ht : m.marks[i]? = some true := by
        rw [Array.getElem?_eq_getElem hlt]
        simpa using hne
      rw [(a.marked i).mpr (.inl ht)] at hf
      simp at hf
  · rw [b.marked, a.marked, List.mem_append, or_assoc]

lemma grows_visit (h : Heap) (m : Marking) (v : Handle) : Grows m (m.visit h v) (m.entered v) := by
  unfold visit entered
  split
  · next hm => simpa [hm] using Grows.refl m
  · next hm =>
    have hlt : v.index < m.marks.size := (Array.getElem?_eq_some_iff.mp hm).1
    refine ⟨by simp, by simp [hm], by simp [hm], fun i => ?_⟩
    by_cases hi : v.index = i
    · subst hi; simp [hlt]
    · simp [hi, hm, Ne.symm hi]
  · next hm => exact ⟨rfl, by simp [hm], by simp [hm], by simp [hm]⟩

lemma grows_visitAll (h : Heap) (m : Marking) (vs : List Handle) :
    Grows m (m.visitAll h vs) (m.enteredAll h vs) := by
  induction vs generalizing m with
  | nil => exact .refl m
  | cons v vs ih => exact (grows_visit h m v).trans (ih (m.visit h v))

lemma grows_drain (h : Heap) (m : Marking) : Grows m (m.drain h) (m.enteredDraining h) := by
  induction m using drain.induct h with
  | case1 m hw =>
    rw [drain_of_nil h hw, enteredDraining_of_nil h hw]
    exact .refl m
  | case2 m i work hw _ ih =>
    rw [drain_of_cons h hw, enteredDraining_of_cons h hw]
    have hg := grows_visitAll h { m with work } (childrenAt h.cells i)
    exact Grows.trans ⟨hg.size, hg.nodup, hg.fresh, hg.marked⟩ ih

/-! ## Three colours -/

/-- The invariant of marking: there is no fault, all marked cells are to be kept, the worklist has
marked cells only, and a marked cell that is neither on it nor being scanned refers to marked cells
only. -/
structure Tricolour (h : Heap) (keep : Handle → Prop) (scanning : Option Nat) (m : Marking) :
    Prop where
  size : m.marks.size = h.cells.size
  clean : m.fault = none
  sound : ∀ i, m.marks[i]? = some true → keep ⟨i⟩
  grey : ∀ i ∈ m.work, m.marks[i]? = some true
  black : ∀ i, m.marks[i]? = some true → i ∈ m.work ∨ scanning = some i ∨
    ∀ c ∈ childrenAt h.cells i, m.marks[c.index]? = some true

variable {h : Heap} {keep : Handle → Prop}

lemma Tricolour.start (h : Heap) (keep : Handle → Prop) : Tricolour h keep none (start h) := by
  refine ⟨by simp [Marking.start], rfl, fun i hi => ?_, by simp [Marking.start], fun i hi => ?_⟩ <;>
    simp [Marking.start, Array.getElem?_replicate] at hi

lemma Tricolour.visit {m : Marking} {s : Option Nat} (hm : Tricolour h keep s m) {v : Handle}
    (hk : keep v) (hl : h.isLive v = true) : Tricolour h keep s (m.visit h v) := by
  have hg := grows_visit h m v
  obtain ⟨d, hd⟩ := Heap.isLive_iff.mp hl
  have hlt : v.index < m.marks.size := hm.size ▸ Heap.lt_size_of_object? hd
  have hmem : ∀ i, i ∈ m.work → i ∈ (m.visit h v).work := by
    unfold Marking.visit
    intro i hi
    split <;> simp [hi]
  refine ⟨hg.size.trans hm.size, ?_, fun i hi => ?_, fun i hi => ?_, fun i hi => ?_⟩
  · unfold Marking.visit
    split <;> simp [hm.clean, Heap.fault?_of_isLive hl]
  · rcases (hg.marked i).mp hi with hi | hi
    · exact hm.sound i hi
    · obtain rfl : i = v.index := by
        unfold entered at hi
        split at hi <;> simp at hi
        exact hi
      exact hk
  · refine (hg.marked i).mpr ?_
    unfold Marking.visit at hi
    split at hi
    · exact .inl (hm.grey i hi)
    · next hf =>
      rcases List.mem_cons.mp hi with rfl | hi
      · exact .inr (by simp [entered, hf])
      · exact .inl (hm.grey i hi)
    · exact .inl (hm.grey i hi)
  · rcases (hg.marked i).mp hi with hi | hi
    · rcases hm.black i hi with hw | hs | hc
      · exact .inl (hmem i hw)
      · exact .inr (.inl hs)
      · exact .inr (.inr fun c hc' => (hg.marked _).mpr (.inl (hc c hc')))
    · left
      unfold entered at hi
      split at hi
      · next hf => simp [Marking.visit, hf, List.mem_singleton.mp hi]
      · simp at hi

lemma marked_visit {m : Marking} (hs : m.marks.size = h.cells.size) {v : Handle}
    (hl : h.isLive v = true) : (m.visit h v).marks[v.index]? = some true := by
  obtain ⟨d, hd⟩ := Heap.isLive_iff.mp hl
  have hlt : v.index < m.marks.size := hs ▸ Heap.lt_size_of_object? hd
  refine ((grows_visit h m v).marked _).mpr ?_
  have hb : m.marks[v.index]? = some m.marks[v.index] := Array.getElem?_eq_getElem hlt
  cases hv : m.marks[v.index]
  · exact .inr (by simp [entered, hb, hv])
  · exact .inl (by rw [hb, hv])

lemma Tricolour.visitAll {m : Marking} {s : Option Nat} (hm : Tricolour h keep s m)
    {vs : List Handle} (hk : ∀ v ∈ vs, keep v) (hl : ∀ v ∈ vs, h.isLive v = true) :
    Tricolour h keep s (m.visitAll h vs) ∧
      ∀ v ∈ vs, (m.visitAll h vs).marks[v.index]? = some true := by
  induction vs generalizing m with
  | nil => exact ⟨hm, by simp⟩
  | cons v vs ih =>
    have hv := hm.visit (hk v (by simp)) (hl v (by simp))
    obtain ⟨ht, hmarked⟩ := ih hv (fun w hw => hk w (by simp [hw])) fun w hw => hl w (by simp [hw])
    refine ⟨ht, fun w hw => ?_⟩
    rcases List.mem_cons.mp hw with rfl | hw
    · exact ((grows_visitAll h _ vs).marked _).mpr
        (.inl (marked_visit hm.size (hl _ (by simp))))
    · exact hmarked w hw

/-- Draining the worklist ends with black and white cells only. -/
lemma Tricolour.drain (hkeep : ∀ v, keep v → h.isLive v = true)
    (hchild : ∀ u v d, keep u → h.object? u = some d → v ∈ d.children → keep v) {m : Marking}
    (hm : Tricolour h keep none m) :
    Tricolour h keep none (m.drain h) ∧ (m.drain h).work = [] := by
  induction m using drain.induct h with
  | case1 m hw =>
    rw [drain_of_nil h hw]
    exact ⟨hm, hw⟩
  | case2 m i work hw _ ih =>
    rw [drain_of_cons h hw]
    -- the cell taken off the worklist is being scanned
    have hscan : Tricolour h keep (some i) { m with work } := by
      refine ⟨hm.size, hm.clean, hm.sound, fun k hk => hm.grey k (by simp [hw, hk]), fun k hk => ?_⟩
      rcases hm.black k hk with hk | hk | hk
      · rcases List.mem_cons.mp (hw ▸ hk) with rfl | hk
        · exact .inr (.inl rfl)
        · exact .inl hk
      · simp at hk
      · exact .inr (.inr hk)
    have hi : keep ⟨i⟩ := hm.sound i (hm.grey i (by simp [hw]))
    have hchildren : ∀ v ∈ childrenAt h.cells i, keep v := by
      intro v hv
      obtain ⟨d, hd, hv⟩ := mem_childrenAt (u := ⟨i⟩).mp hv
      exact hchild _ _ _ hi hd hv
    obtain ⟨ht, hmarked⟩ := hscan.visitAll hchildren fun v hv => hkeep v (hchildren v hv)
    refine ih ⟨ht.size, ht.clean, ht.sound, ht.grey, fun k hk => ?_⟩
    rcases ht.black k hk with hk | hk | hk
    · exact .inl hk
    · obtain rfl : i = k := Option.some.inj hk
      exact .inr (.inr hmarked)
    · exact .inr (.inr hk)

end Marking

namespace Heap

/-- Whether a heap is closed can be checked cell by cell. -/
lemma closed_iff {h : Heap} : h.Closed ↔ h.regionEnd ≤ h.cells.size ∧
    (∀ i < h.cells.size, ¬ h.Collectible i → h.isLive ⟨i⟩ = true) ∧
    (∀ i < h.cells.size, ∀ w ∈ Marking.childrenAt h.cells i, h.isLive w = true) ∧
    (∀ v ∈ h.roots.toList, h.isLive v = true) ∧
    h.isLive h.baseEnv = true ∧ h.isLive h.currentEnv = true := by
  constructor
  · intro hc
    refine ⟨hc.layout, fun i => hc.outside ⟨i⟩, fun i _ w hw => ?_, hc.root, hc.base, hc.current⟩
    obtain ⟨d, hd, hw⟩ := Marking.mem_childrenAt (u := ⟨i⟩).mp hw
    exact hc.child _ _ hd _ hw
  · rintro ⟨hl, ho, hch, hr, hb, hcur⟩
    exact ⟨hl, fun v => ho v.index, fun v d hd w hw =>
      hch v.index (lt_size_of_object? hd) w (Marking.mem_childrenAt.mpr ⟨d, hd, hw⟩), hr, hb, hcur⟩

instance (h : Heap) : Decidable h.Closed := decidable_of_iff' _ closed_iff

/-- The cells that enter the worklist of a collection, in order. -/
def worklistEntries (h : Heap) (extra : List Handle) : List Nat :=
  Marking.enteredAll h (Marking.start h) (h.rootHandles extra) ++
    Marking.enteredDraining h (Marking.visitAll h (Marking.start h) (h.rootHandles extra))

/-- Marking a closed heap meets no fault, marks exactly what can be reached, and puts each of these
cells on the worklist once. -/
lemma marking_spec {h : Heap} (hc : h.Closed) (extra : List Handle)
    (he : ∀ v ∈ extra, h.isLive v = true) :
    (h.marking extra).fault = none ∧
      (∀ i, (h.marking extra).marks[i]? = some true ↔ h.Reachable extra ⟨i⟩) ∧
      (h.worklistEntries extra).Nodup ∧
      ∀ i, i ∈ h.worklistEntries extra ↔ h.Reachable extra ⟨i⟩ := by
  have hlive : ∀ v, h.Reachable extra v → h.isLive v = true := fun v => hc.isLive_of_reachable he
  have hroots : ∀ v ∈ h.rootHandles extra, h.Reachable extra v :=
    fun v hv => .anchor (mem_rootHandles.mp hv)
  obtain ⟨hall, hanchors⟩ := (Marking.Tricolour.start h (h.Reachable extra)).visitAll hroots
    fun v hv => hlive v (hroots v hv)
  obtain ⟨htri, hwork⟩ := hall.drain hlive fun u v d hu hd hv => .child hu hd hv
  have hgrow := (Marking.grows_visitAll h (Marking.start h) (h.rootHandles extra)).trans
    (Marking.grows_drain h _)
  have hmarked : ∀ v, h.Reachable extra v → (h.marking extra).marks[v.index]? = some true := by
    intro v hv
    induction hv with
    | anchor hv =>
      exact ((Marking.grows_drain h _).marked _).mpr (.inl (hanchors _ (mem_rootHandles.mpr hv)))
    | child _ hd hv ih =>
      rcases htri.black _ ih with hw | hw | hw
      · simp [hwork] at hw
      · simp at hw
      · exact hw _ (Marking.mem_childrenAt.mpr ⟨_, hd, hv⟩)
  have hiff : ∀ i, (h.marking extra).marks[i]? = some true ↔ h.Reachable extra ⟨i⟩ :=
    fun i => ⟨htri.sound i, fun hi => hmarked _ hi⟩
  refine ⟨htri.clean, hiff, hgrow.nodup, fun i => ?_⟩
  rw [← hiff i]
  refine Iff.trans ?_ (hgrow.marked i).symm
  simp [worklistEntries, Marking.start, Array.getElem?_replicate]

end Heap

end ArenaScheme
