/-
# Cells that are made along the way

While an action is under way it owns the cells that it has made: nothing else refers to them, so it
may link them as it pleases.  `h.Extends made k` says that `k` is what has become of `h` so far and
that the cells `made` are owned.  All that could be reached in `h` is as it was; the root slots that
were occupied are as they were; and the slots above them, and the owned cells, refer only to owned
cells and to cells that are never collected.

So what can be reached is what could be reached in `h`, or is owned, or is permanent and refers to
nothing, and if no cell is left there are not enough for both.  That every owned cell can be reached
when another one is allocated is up to the action.
-/
import ArenaScheme.Proofs.Exhaustion
import ArenaScheme.Proofs.Discipline.Edits

namespace ArenaScheme

namespace Heap

/-- The number of collectible cells that can be reached. -/
noncomputable def used (h : Heap) : Nat := {i | h.Collectible i ∧ h.Reachable [] ⟨i⟩}.ncard

/-- The cell is owned, or it needs no owner since it is not collectible. -/
def Known (h : Heap) (made : List Handle) (v : Handle) : Prop := v ∈ made ∨ ¬ h.Collectible v.index

/-- `k` is what has become of `h` while the cells `made` were made. -/
structure Extends (h : Heap) (made : List Handle) (k : Heap) : Prop where
  origin : h.WellFormed
  wellFormed : k.WellFormed
  capacity : k.capacity = h.capacity
  rootSlots : k.rootSlots = h.rootSlots
  baseEnv : k.baseEnv = h.baseEnv
  currentEnv : k.currentEnv = h.currentEnv
  size : h.cells.size ≤ k.cells.size
  kept : ∀ v, h.Reachable [] v → k.object? v = h.object? v
  symbols : ∀ name v, h.findSymbol name = some v → k.findSymbol name = some v
  /-- New permanent cells refer to nothing. -/
  permanent : ∀ v d, h.cells.size ≤ v.index → k.object? v = some d → d.children = []
  depth : h.roots.size ≤ k.roots.size
  below : ∀ i < h.roots.size, k.roots[i]? = h.roots[i]?
  above : ∀ i v, h.roots.size ≤ i → k.roots[i]? = some v → h.Known made v
  nodup : made.Nodup
  fresh : ∀ v ∈ made, h.Collectible v.index ∧ ¬ h.Reachable [] v
  closed : ∀ v ∈ made, ∀ d, k.object? v = some d → ∀ c ∈ d.children, h.Known made c

/-- What a change leaves of some cells: their contents, and the symbols that there are. -/
structure Agree (made : List Handle) (k k' : Heap) : Prop where
  objects : ∀ v ∈ made, k'.object? v = k.object? v
  symbols : ∀ name v, k.findSymbol name = some v → k'.findSymbol name = some v

variable {h k k' : Heap} {made made' extra : List Handle} {v w : Handle} {d : Datum}

lemma Known.mono (hk : h.Known made v) (hm : made ⊆ made') : h.Known made' v := hk.imp_left (@hm v)

lemma Agree.refl (made : List Handle) (k : Heap) : Agree made k k := ⟨fun _ _ => rfl, fun _ _ => id⟩

lemma Agree.trans {l : Heap} (h₁ : Agree made k k') (h₂ : Agree made k' l) : Agree made k l :=
  ⟨fun v hv => (h₂.objects v hv).trans (h₁.objects v hv),
    fun name v hv => h₂.symbols name v (h₁.symbols name v hv)⟩

lemma Agree.mono (ha : Agree made k k') (hm : made' ⊆ made) : Agree made' k k' :=
  ⟨fun v hv => ha.objects v (hm hv), ha.symbols⟩

lemma Agree.setRoots (made : List Handle) (k : Heap) (roots : Array Handle) :
    Agree made k { k with roots } := ⟨fun _ _ => rfl, fun _ _ => id⟩

lemma Agree.of_sameFrame (hf : SameFrame k k') (ho : ∀ v ∈ made, k'.object? v = k.object? v) :
    Agree made k k' :=
  ⟨ho, fun name v hv => by rwa [findSymbol, hf.symbols]⟩

namespace Extends

lemma refl (hw : h.WellFormed) : h.Extends [] h := by
  refine ⟨hw, hw, rfl, rfl, rfl, rfl, Nat.le_refl _, fun _ _ => rfl, fun _ _ => id,
    fun v d hv hd => ?_, Nat.le_refl _, fun _ _ => rfl, fun i v hi hv => ?_, .nil, by simp, by simp⟩
  · exact absurd (lt_size_of_object? hd) (Nat.not_lt.mpr hv)
  · rw [Array.getElem?_eq_none hi] at hv
    cases hv

/-- The order in which the cells are listed does not matter. -/
lemma perm (he : h.Extends made k) (hp : made.Perm made') : h.Extends made' k :=
  { he with
    above := fun i v hi hv => (he.above i v hi hv).mono hp.subset
    nodup := hp.nodup he.nodup
    fresh := fun v hv => he.fresh v (hp.symm.subset hv)
    closed := fun v hv d hd c hc => (he.closed v (hp.symm.subset hv) d hd c hc).mono hp.subset }

lemma collectible (he : h.Extends made k) {i : Nat} : k.Collectible i ↔ h.Collectible i := by
  rw [Collectible, Collectible, regionEnd, regionEnd, he.capacity]

lemma lt_size_of_mem (he : h.Extends made k) (hv : v ∈ made) : v.index < h.cells.size :=
  Nat.lt_of_lt_of_le (he.fresh v hv).1.2 he.origin.layout

/-! ## Reachability -/

/-- What could be reached can be reached still. -/
lemma reachable (he : h.Extends made k) (hr : h.Reachable [] v) : k.Reachable extra v := by
  induction hr with
  | anchor ha =>
    cases ha with
    | sentinel hv => exact .anchor (.sentinel hv)
    | @permanent v hr hs =>
      refine .of_not_collectible (Nat.lt_of_lt_of_le hs he.size) fun hc => ?_
      exact absurd (he.collectible.mp hc).2 (Nat.not_lt.mpr hr)
    | root hv =>
      obtain ⟨i, hi⟩ := List.getElem?_of_mem hv
      rw [Array.getElem?_toList] at hi
      have hk := he.below i (Array.getElem?_eq_some_iff.mp hi).1
      exact .anchor (.root (Array.mem_toList_iff.mpr (Array.mem_of_getElem? (hk.trans hi))))
    | base => exact he.baseEnv ▸ .anchor .base
    | current => exact he.currentEnv ▸ .anchor .current
    | extra hv => cases hv
  | child hu hd hv ih => exact .child ih ((he.kept _ hu).trans hd) hv

/-- Whatever is known could be reached, or is owned, or has been appended. -/
lemma cases_of_known (hv : h.Known made v) :
    h.Reachable [] v ∨ v ∈ made ∨ h.cells.size ≤ v.index := by
  rcases hv with hv | hv
  · exact .inr (.inl hv)
  · rcases Nat.lt_or_ge v.index h.cells.size with hs | hs
    · exact .inl (.of_not_collectible hs hv)
    · exact .inr (.inr hs)

/-- What can be reached, also from known objects, could be reached, or is owned, or has been
appended. -/
lemma cases_of_reachable (he : h.Extends made k) (hx : ∀ v ∈ extra, h.Known made v)
    (hr : k.Reachable extra v) : h.Reachable [] v ∨ v ∈ made ∨ h.cells.size ≤ v.index := by
  induction hr with
  | anchor ha =>
    cases ha with
    | sentinel hv => exact .inl (.anchor (.sentinel hv))
    | permanent hr hs =>
      refine cases_of_known (.inr fun hc => ?_)
      exact absurd (he.collectible.mpr hc).2 (Nat.not_lt.mpr hr)
    | root hv =>
      obtain ⟨i, hi⟩ := List.getElem?_of_mem hv
      rw [Array.getElem?_toList] at hi
      rcases Nat.lt_or_ge i h.roots.size with hlt | hge
      · rw [he.below i hlt] at hi
        exact .inl (.anchor (.root (Array.mem_toList_iff.mpr (Array.mem_of_getElem? hi))))
      · exact cases_of_known (he.above i _ hge hi)
    | base => exact he.baseEnv ▸ .inl (.anchor .base)
    | current => exact he.currentEnv ▸ .inl (.anchor .current)
    | extra hv => exact cases_of_known (hx _ hv)
  | @child u v d _ hd hv ih =>
    rcases ih with hu | hu | hu
    · exact .inl (.child hu ((he.kept u hu).symm.trans hd) hv)
    · exact cases_of_known (he.closed u hu d hd v hv)
    · rw [he.permanent u d hu hd] at hv
      cases hv

/-- If all collectible cells can be reached, they are used in `h` or owned. -/
lemma capacity_le (he : h.Extends made k) (hx : ∀ v ∈ extra, h.Known made v)
    (hall : ∀ i, k.Collectible i → k.Reachable extra ⟨i⟩) :
    h.capacity ≤ h.used + made.length := by
  classical
  have hset : {i | h.Collectible i} =
      ((List.range' regionStart h.capacity).toFinset : Set Nat) := by
    ext i
    rw [Finset.mem_coe, List.mem_toFinset]
    exact mem_range'_capacity.symm
  have hcap : {i | h.Collectible i}.ncard = h.capacity := by
    rw [hset, Set.ncard_coe_finset, List.toFinset_card_of_nodup List.nodup_range',
      List.length_range']
  have hfin : {i | h.Collectible i}.Finite := hset ▸ Finset.finite_toSet _
  have hsub : {i | h.Collectible i} ⊆
      {i | h.Collectible i ∧ h.Reachable [] ⟨i⟩} ∪
      ((made.map Handle.index).toFinset : Set Nat) := by
    intro i hi
    rcases he.cases_of_reachable hx (hall i (he.collectible.mpr hi)) with hr | hm | hs
    · exact .inl ⟨hi, hr⟩
    · exact .inr (by simpa using ⟨_, hm, rfl⟩)
    · exact absurd (Nat.lt_of_lt_of_le hi.2 he.origin.layout) (Nat.not_lt.mpr hs)
  have hu : ({i | h.Collectible i ∧ h.Reachable [] ⟨i⟩} ∪
      ((made.map Handle.index).toFinset : Set Nat)).Finite :=
    (hfin.subset fun i hi => hi.1).union (Finset.finite_toSet _)
  calc h.capacity = {i | h.Collectible i}.ncard := hcap.symm
    _ ≤ _ := Set.ncard_le_ncard hsub hu
    _ ≤ _ := Set.ncard_union_le _ _
    _ ≤ h.used + made.length := by
      refine Nat.add_le_add_left ?_ _
      rw [Set.ncard_coe_finset]
      exact (List.toFinset_card_le _).trans (List.length_map _).le

/-! ## Allocation -/

/-- Allocation makes one cell more, if it is possible.  If not, the cells in use and the owned cells
take all of the arena. -/
lemma alloc (he : h.Extends made k) (hf : d.isFree = false)
    (hc : ∀ v ∈ d.children, h.Known made v) (hl : ∀ v ∈ d.children, k.isLive v = true)
    (hr : ∀ v ∈ made, k.Reachable d.children v) :
    (∃ v k', HeapM.alloc d k = .ok v k' ∧ h.Extends (v :: made) k' ∧ k'.object? v = some d ∧
      k'.roots = k.roots ∧ Agree made k k') ∨
    ∃ k', HeapM.alloc d k = .error .outOfMemory k' ∧ h.Extends made k' ∧ k'.roots = k.roots ∧
      Agree made k k' ∧ h.capacity ≤ h.used + made.length := by
  by_cases hx : k.Exhausted d.children
  · have hrun := alloc_of_exhausted he.wellFormed hl hx
    refine .inr ⟨_, hrun, ?_, rfl, ⟨fun _ _ => rfl, fun _ _ => id⟩, he.capacity_le hc hx.2⟩
    rcases alloc_spec he.wellFormed hf hl with ⟨v, k', hrun', -, -⟩ | ⟨k', hrun', hw, -⟩
    · rw [hrun] at hrun'
      cases hrun'
    · obtain ⟨-, rfl⟩ := Outcome.error.inj (hrun.symm.trans hrun')
      exact ⟨he.origin, hw, he.capacity, he.rootSlots, he.baseEnv, he.currentEnv, he.size, he.kept,
        he.symbols, he.permanent, he.depth, he.below, he.above, he.nodup, he.fresh, he.closed⟩
  · obtain ⟨v, k', hrun, hp⟩ := alloc_of_not_exhausted he.wellFormed hf hl hx
    have hkept : ∀ w, k.Reachable d.children w → w ≠ v ∧ k'.object? w = k.object? w := fun w hw =>
      ⟨(hp.kept w hw).1, congrArg (Option.filter _) (hp.kept w hw).2⟩
    have hnew : k'.object? v = some d := object?_eq_some.mpr ⟨hp.holds, hf⟩
    have hmade : ∀ w ∈ made, k'.object? w = k.object? w := fun w hw => (hkept w (hr w hw)).2
    have hsub : made ⊆ v :: made := fun _ => List.mem_cons_of_mem _
    have hcol : h.Collectible v.index := he.collectible.mp hp.collectible
    refine .inl ⟨v, k', hrun, ?_, hnew, hp.frame.roots, .of_sameFrame hp.frame hmade⟩
    refine ⟨he.origin, hp.wellFormed, hp.frame.capacity.trans he.capacity,
      hp.frame.rootSlots.trans he.rootSlots, hp.frame.baseEnv.trans he.baseEnv,
      hp.frame.currentEnv.trans he.currentEnv, hp.frame.size ▸ he.size, fun w hw => ?_,
      fun name w hw => ?_, fun w e hs hw => ?_, hp.frame.roots ▸ he.depth,
      hp.frame.roots ▸ he.below, fun i w hi hw => ?_, List.nodup_cons.mpr ⟨fun hv => ?_, he.nodup⟩,
      ?_, ?_⟩
    · exact (hkept w (he.reachable hw)).2.trans (he.kept w hw)
    · rw [findSymbol, hp.frame.symbols]
      exact he.symbols name w hw
    · -- the new cell is collectible, so it has not been appended
      refine he.permanent w e hs (hp.old w e ?_ hw)
      rintro rfl
      exact absurd (Nat.lt_of_lt_of_le hcol.2 he.origin.layout) (Nat.not_lt.mpr hs)
    · rw [hp.frame.roots] at hw
      exact (he.above i w hi hw).mono hsub
    · exact hp.unreachable (hr v hv)
    · rintro w (_ | ⟨_, hw⟩)
      · exact ⟨hcol, fun hv => hp.unreachable (he.reachable hv)⟩
      · exact he.fresh w hw
    · rintro w (_ | ⟨_, hw⟩) e hd c hc'
      · rw [hnew] at hd
        obtain rfl := Option.some.inj hd
        exact (hc c hc').mono hsub
      · rw [hmade w hw] at hd
        exact (he.closed w hw e hd c hc').mono hsub

/-! ## Other changes -/

/-- Interning appends a cell or nothing. -/
lemma intern (he : h.Extends made k) (name : String) :
    h.Extends made (k.intern name).2 ∧ (k.intern name).2.roots = k.roots ∧
      Agree made k (k.intern name).2 ∧
      (k.intern name).2.findSymbol name = some (k.intern name).1 := by
  have hw := (he.wellFormed.intern name).1
  rcases hs : k.symbols[name]? with _ | s
  · have hobj : ∀ {v : Handle}, v.index < k.cells.size →
        (k.intern name).2.object? v = k.object? v :=
      fun hv => object?_push hv (by rw [intern_of_none hs])
    rw [intern_of_none hs] at hw hobj ⊢
    have hlt : ∀ {v}, h.Reachable [] v → v.index < k.cells.size := fun hv => by
      obtain ⟨d, hd⟩ := isLive_iff.mp (he.origin.isLive_of_reachable (by simp) hv)
      exact Nat.lt_of_lt_of_le (lt_size_of_object? hd) he.size
    have hmade : ∀ v ∈ made, v.index < k.cells.size := fun v hv =>
      Nat.lt_of_lt_of_le (he.lt_size_of_mem hv) he.size
    have hsym : ∀ n v, k.findSymbol n = some v → (k.symbols.insert name ⟨k.cells.size⟩)[n]? =
        some v := by
      intro n v hv
      rw [Std.TreeMap.getElem?_insert, if_neg]
      · exact hv
      · intro hc
        obtain rfl := Std.LawfulEqCmp.eq_of_compare hc
        rw [findSymbol, hs] at hv
        cases hv
    refine ⟨⟨he.origin, hw, he.capacity, he.rootSlots, he.baseEnv, he.currentEnv, ?_,
      fun v hv => ?_, fun n v hv => hsym n v (he.symbols n v hv), fun v d hv hd =>
        ?_, he.depth, he.below, he.above,
      he.nodup, he.fresh, fun v hv d hd => ?_⟩, rfl, ⟨fun v hv => hobj (hmade v hv), hsym⟩, ?_⟩
    · exact he.size.trans (by simp)
    · exact (hobj (hlt hv)).trans (he.kept v hv)
    · rcases Nat.lt_or_ge v.index k.cells.size with hlt' | hge
      · rw [hobj hlt'] at hd
        exact he.permanent v d hv hd
      · -- nothing but the symbol has been appended
        have hsize := lt_size_of_object? hd
        simp only [Array.size_push] at hsize
        have hd := (object?_eq_some.mp hd).1
        simp only [show v.index = k.cells.size by omega, Array.getElem?_push_size] at hd
        rw [← Option.some.inj hd]
        rfl
    · rw [hobj (hmade v hv)] at hd
      exact he.closed v hv d hd
    · exact Std.TreeMap.getElem?_insert_self
  · rw [intern_of_some hs]
    exact ⟨he, rfl, .refl made k, hs⟩

/-- Occupying a slot with a known object. -/
lemma push (he : h.Extends made k) (hv : h.Known made v) (hl : k.isLive v = true) :
    h.Extends made { k with roots := k.roots.push v } := by
  refine ⟨he.origin, he.wellFormed.push hl, he.capacity, he.rootSlots, he.baseEnv, he.currentEnv,
    he.size, he.kept, he.symbols, he.permanent, he.depth.trans (by simp), fun i hi => ?_,
    fun i w hi hw => ?_, he.nodup, he.fresh, he.closed⟩
  · have := he.depth
    rw [Array.getElem?_push, if_neg (by omega)]
    exact he.below i hi
  · rw [Array.getElem?_push] at hw
    split at hw
    · obtain rfl := Option.some.inj hw
      exact hv
    · exact he.above i w hi hw

/-- Giving up a slot that was occupied along the way. -/
lemma pop (he : h.Extends made k) (hs : h.roots.size < k.roots.size) :
    h.Extends made { k with roots := k.roots.pop } := by
  refine ⟨he.origin, he.wellFormed.pop, he.capacity, he.rootSlots, he.baseEnv, he.currentEnv,
    he.size, he.kept, he.symbols, he.permanent, ?_, fun i hi => ?_,
    fun i w hi hw => ?_, he.nodup, he.fresh, he.closed⟩
  · rw [Array.size_pop]
    omega
  · rw [Array.getElem?_pop, if_pos (by omega)]
    exact he.below i hi
  · rw [Array.getElem?_pop] at hw
    split at hw
    · exact he.above i w hi hw
    · cases hw

/-- Putting a known object into such a slot. -/
lemma put (he : h.Extends made k) (hv : h.Known made v) (hl : k.isLive v = true) {i : Nat}
    (hi : h.roots.size ≤ i) : h.Extends made { k with roots := k.roots.setIfInBounds i v } := by
  refine ⟨he.origin, he.wellFormed.put hl i, he.capacity, he.rootSlots, he.baseEnv, he.currentEnv,
    he.size, he.kept, he.symbols, he.permanent, he.depth.trans (by simp), fun j hj => ?_,
    fun j w hj hw => ?_, he.nodup, he.fresh, he.closed⟩
  · rw [Array.getElem?_setIfInBounds_ne (by omega)]
    exact he.below j hj
  · rw [Array.getElem?_setIfInBounds] at hw
    split at hw
    · split at hw
      · obtain rfl := Option.some.inj hw
        exact hv
      · cases hw
    · exact he.above j w hj hw

/-- Linking an owned cell to other known objects. -/
lemma setCell (he : h.Extends made k) {d' : Datum} (hv : v ∈ made) (hd : k.object? v = some d)
    (hs : d.type ≠ .symbol) (hf : d'.isFree = false) (hc : ∀ w ∈ d'.children, h.Known made w)
    (hl : ∀ w ∈ d'.children, k.isLive w = true) : h.Extends made (k.setCell v.index d') := by
  have hne : ∀ {w}, w ≠ v → (k.setCell v.index d').object? w = k.object? w := fun hw =>
    object?_setCell_of_ne (Ne.symm hw)
  refine ⟨he.origin, he.wellFormed.setCell hd hs hf hl, he.capacity, he.rootSlots, he.baseEnv,
    he.currentEnv, by simpa using he.size, fun w hw => ?_, he.symbols, fun w e hs' hw =>
      ?_, he.depth,
    he.below, he.above, he.nodup, he.fresh, fun w hw e hd' c hc' => ?_⟩
  · rw [hne, he.kept w hw]
    rintro rfl
    exact (he.fresh w hv).2 hw
  · refine he.permanent w e hs' ?_
    rwa [hne] at hw
    rintro rfl
    exact absurd (he.lt_size_of_mem hv) (Nat.not_lt.mpr hs')
  · by_cases hwv : w = v
    · subst hwv
      rw [object?_setCell k (lt_size_of_object? hd), if_pos rfl, hf] at hd'
      obtain rfl : d' = e := by simpa using hd'
      exact hc c hc'
    · rw [hne hwv] at hd'
      exact he.closed w hw e hd' c hc'

end Extends

end Heap

end ArenaScheme
