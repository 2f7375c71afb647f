/-
# What survives an action

An action that makes objects may run a collection each time, and it relies on all that its caller
can still reach, or has handed to it, being there afterwards.  `h.Saves extra k` says that the heap
`k` has kept whatever can be reached in `h`, be it from `extra` only, and `h.Adds extra made k` says
besides that `k` has the new cells `made`, to which nothing in `h` referred, and that the new cells
and the new root slots refer to nothing else.

So what can be reached in `k` is what could be reached in `h` and the new cells.  If no cell is left
then these take all of the arena; and if new cells have been made then there was room for them.
That gives the exact bound on what fits into an arena.
-/
import ArenaScheme.Proofs.Exhaustion
import ArenaScheme.Proofs.Discipline.Rules

namespace ArenaScheme

namespace Heap

/-- The heap `k` comes after `h` and has all that can be reached in `h`, be it from `extra` only;
and the root slots of `h` hold in it what they held. -/
structure Saves (h : Heap) (extra : List Handle) (k : Heap) : Prop where
  origin : h.WellFormed
  live : ∀ v ∈ extra, h.isLive v = true
  wellFormed : k.WellFormed
  capacity : k.capacity = h.capacity
  rootSlots : k.rootSlots = h.rootSlots
  baseEnv : k.baseEnv = h.baseEnv
  currentEnv : k.currentEnv = h.currentEnv
  audited : k.audited = h.audited
  later : h.collections ≤ k.collections
  size : h.cells.size ≤ k.cells.size
  symbols : ∀ name v, h.findSymbol name = some v → k.findSymbol name = some v
  kept : ∀ v, h.Reachable extra v → k.object? v = h.object? v
  depth : h.roots.size ≤ k.roots.size
  below : ∀ i < h.roots.size, k.roots[i]? = h.roots[i]?

/-- Besides, `k` has the new cells `made`. -/
structure Adds (h : Heap) (extra made : List Handle) (k : Heap) : Prop extends h.Saves extra k where
  size_eq : k.cells.size = h.cells.size
  symbols_eq : k.symbols = h.symbols
  above : ∀ i v, h.roots.size ≤ i → k.roots[i]? = some v → h.Reachable extra v ∨ v ∈ made
  nodup : made.Nodup
  fresh : ∀ v ∈ made, h.Collectible v.index ∧ ¬ h.Reachable extra v
  held : ∀ v ∈ made, k.isLive v = true
  closed : ∀ v ∈ made, ∀ d, k.object? v = some d → ∀ c ∈ d.children, h.Reachable extra c ∨ c ∈ made

/-- The number of collectible cells that can be reached, be it from `extra` only. -/
noncomputable def usedWith (h : Heap) (extra : List Handle) : Nat :=
  {i | h.Collectible i ∧ h.Reachable extra ⟨i⟩}.ncard

variable {h k l : Heap} {extra extra' made made' vs : List Handle} {v w : Handle} {d : Datum}

lemma Reachable.sentinel (hv : v.index < regionStart) : h.Reachable extra v :=
  .anchor (.sentinel hv)

lemma Reachable.head {a b : Handle} (hr : h.Reachable extra v)
    (hp : h.object? v = some (.pair a b)) :
    h.Reachable extra a := .child hr hp (by simp [Datum.children])

lemma Reachable.tail {a b : Handle} (hr : h.Reachable extra v)
    (hp : h.object? v = some (.pair a b)) :
    h.Reachable extra b := .child hr hp (by simp [Datum.children])

/-! ## What is saved -/

namespace Saves

lemma refl (hw : h.WellFormed) (hl : ∀ v ∈ extra, h.isLive v = true) : h.Saves extra h :=
  ⟨hw, hl, hw, rfl, rfl, rfl, rfl, rfl, Nat.le_refl _, Nat.le_refl _, fun _ _ => id, fun _ _ => rfl,
    Nat.le_refl _, fun _ _ => rfl⟩

lemma collectible (hs : h.Saves extra k) {i : Nat} : k.Collectible i ↔ h.Collectible i := by
  rw [Collectible, Collectible, regionEnd, regionEnd, hs.capacity]

/-- What can be reached is live. -/
lemma isLive_origin (hs : h.Saves extra k) (hr : h.Reachable extra v) : h.isLive v = true :=
  hs.origin.isLive_of_reachable hs.live hr

lemma isLive (hs : h.Saves extra k) (hr : h.Reachable extra v) : k.isLive v = true := by
  rw [isLive_eq_isSome, hs.kept v hr, ← isLive_eq_isSome]
  exact hs.isLive_origin hr

/-- What could be reached can still be reached, if the handles that it was reached from can. -/
lemma reachable (hs : h.Saves extra k) (hx : ∀ v ∈ extra, k.Reachable extra' v)
    (hr : h.Reachable extra v) : k.Reachable extra' v := by
  induction hr with
  | anchor ha =>
    cases ha with
    | sentinel hv => exact .sentinel hv
    | @permanent v hr hv =>
      refine .of_not_collectible (Nat.lt_of_lt_of_le hv hs.size) fun hc => ?_
      exact absurd (hs.collectible.mp hc).2 (Nat.not_lt.mpr hr)
    | root hv =>
      obtain ⟨i, hi⟩ := List.getElem?_of_mem hv
      rw [Array.getElem?_toList] at hi
      have hlt := (Array.getElem?_eq_some_iff.mp hi).1
      exact .of_slot ((hs.below i hlt).trans hi)
    | base => exact hs.baseEnv ▸ .anchor .base
    | current => exact hs.currentEnv ▸ .anchor .current
    | extra hv => exact hx _ hv
  | child hu hd hv ih => exact .child ih ((hs.kept _ hu).trans hd) hv

/-- Less may be asked for. -/
lemma mono (hs : h.Saves extra k) (hx : ∀ v ∈ extra', h.Reachable extra v) : h.Saves extra' k :=
  { hs with
    live := fun v hv => hs.isLive_origin (hx v hv)
    kept := fun v hv => hs.kept v (hv.mono hx) }

lemma nil (hs : h.Saves extra k) : h.Saves [] k := hs.mono (by simp)

lemma trans (hs : h.Saves extra k) (hk : k.Saves extra' l)
    (hx : ∀ v ∈ extra, k.Reachable extra' v) :
    h.Saves extra l := by
  refine ⟨hs.origin, hs.live, hk.wellFormed, hk.capacity.trans hs.capacity,
    hk.rootSlots.trans hs.rootSlots, hk.baseEnv.trans hs.baseEnv, hk.currentEnv.trans hs.currentEnv,
    hk.audited.trans hs.audited, hs.later.trans hk.later, hs.size.trans hk.size,
    fun name v hv => hk.symbols name v (hs.symbols name v hv), fun v hv =>
      ?_, hs.depth.trans hk.depth,
    fun i hi => (hk.below i (Nat.lt_of_lt_of_le hi hs.depth)).trans (hs.below i hi)⟩
  exact (hk.kept v (hs.reachable hx hv)).trans (hs.kept v hv)

lemma hasSentinels (hs : h.Saves extra k) (hh : h.HasSentinels) : k.HasSentinels := fun v hv =>
  (hs.kept v (.sentinel hv)).trans (hh v hv)

/-- Changes to the root slots beyond those of `h`. -/
lemma setRoots (hs : h.Saves extra k) {roots : Array Handle}
    (hw : ({ k with roots } : Heap).WellFormed) (hd : h.roots.size ≤ roots.size)
    (hb : ∀ i < h.roots.size, roots[i]? = k.roots[i]?) : h.Saves extra { k with roots } :=
  { hs with wellFormed := hw, depth := hd, below := fun i hi => (hb i hi).trans (hs.below i hi) }

/-- Giving up all slots but those of `h`. -/
lemma dropRoots (hs : h.Saves extra k) : h.Saves extra { k with roots := h.roots } := by
  refine hs.setRoots (hs.wellFormed.setRoots fun v hv => hs.isLive (.anchor (.root hv)))
    (Nat.le_refl _) fun i hi => (hs.below i hi).symm

/-- An object that could not be reached may be replaced. -/
lemma setCell {d' : Datum} (hs : h.Saves extra k) (hv : ¬ h.Reachable extra v)
    (hd : k.object? v = some d) (ht : d.type ≠ .symbol) (hf : d'.isFree = false)
    (hc : ∀ w ∈ d'.children, k.isLive w = true) : h.Saves extra (k.setCell v.index d') :=
  { hs with
    wellFormed := hs.wellFormed.setCell hd ht hf hc
    size := by simpa using hs.size
    kept := fun w hw => by
      rw [object?_setCell_of_ne, hs.kept w hw]
      rintro rfl
      exact hv hw }

end Saves

/-! ## Counting cells -/

lemma setOf_collectible (h : Heap) :
    {i | h.Collectible i} = ((List.range' regionStart h.capacity).toFinset : Set Nat) := by
  ext i
  rw [Finset.mem_coe, List.mem_toFinset]
  exact mem_range'_capacity.symm

lemma finite_collectible (h : Heap) : {i | h.Collectible i}.Finite :=
  setOf_collectible h ▸ Finset.finite_toSet _

lemma ncard_setOf_collectible (h : Heap) : {i | h.Collectible i}.ncard = h.capacity := by
  rw [setOf_collectible, Set.ncard_coe_finset, List.toFinset_card_of_nodup List.nodup_range',
    List.length_range']

/-- What can be reached is not free. -/
lemma usedWith_add_freeCount_le (hw : h.WellFormed) (hx : ∀ v ∈ extra, h.isLive v = true) :
    h.usedWith extra + h.freeCount ≤ h.capacity := by
  obtain ⟨l, hl⟩ := hw.free
  have hfin : {i | h.Collectible i ∧ h.Reachable extra ⟨i⟩}.Finite :=
    (finite_collectible h).subset fun i hi => hi.1
  rw [usedWith, ← ncard_setOf_collectible h, hl.count, ← List.toFinset_card_of_nodup hl.nodup,
    ← Set.ncard_coe_finset, ← Set.ncard_union_eq ?_ hfin (Finset.finite_toSet _)]
  · refine Set.ncard_le_ncard ?_ (finite_collectible h)
    rintro i (hi | hi)
    · exact hi.1
    · exact hw.collectible_of_mem hl (by simpa using hi)
  · refine Set.disjoint_left.mpr fun i hi hm => ?_
    obtain ⟨p, n, hf⟩ := (hl.mem_iff i).mp (by simpa using hm)
    have hlive := hw.isLive_of_reachable hx hi.2
    rw [isLive_eq_isSome, object?_eq_none_of_free hf] at hlive
    cases hlive

/-- Cells that can be reached only now are in use besides. -/
lemma usedWith_le_of_cases {extra' : List Handle} (hcap : k.capacity = h.capacity)
    (hr : ∀ v, h.Collectible v.index → k.Reachable extra' v → h.Reachable extra v ∨ v ∈ vs) :
    k.usedWith extra' ≤ h.usedWith extra + vs.length := by
  have hfin : {i | h.Collectible i ∧ h.Reachable extra ⟨i⟩}.Finite :=
    (finite_collectible h).subset fun i hi => hi.1
  have hvs : ((vs.map Handle.index).toFinset : Set Nat).ncard ≤ vs.length := by
    rw [Set.ncard_coe_finset]
    exact (List.toFinset_card_le _).trans (List.length_map _).le
  refine (Set.ncard_le_ncard ?_ (hfin.union (Finset.finite_toSet _))).trans
    ((Set.ncard_union_le _ _).trans (Nat.add_le_add_left hvs _))
  rintro i ⟨hi, hv⟩
  rw [Collectible, regionEnd, hcap] at hi
  rcases hr ⟨i⟩ hi hv with hv | hv
  · exact .inl ⟨hi, hv⟩
  · exact .inr (by simpa using ⟨_, hv, rfl⟩)

/-- If no more can be reached, no more is in use. -/
lemma usedWith_le_of_reachable {extra' : List Handle} (hcap : k.capacity = h.capacity)
    (hr : ∀ v, h.Collectible v.index → k.Reachable extra' v → h.Reachable extra v) :
    k.usedWith extra' ≤ h.usedWith extra := by
  have hle := usedWith_le_of_cases hcap fun v hcol hv =>
    (.inl (hr v hcol hv) : h.Reachable extra v ∨ v ∈ [])
  rwa [List.length_nil, Nat.add_zero] at hle

/-! ## What is added -/

namespace Adds

lemma refl (hw : h.WellFormed) (hl : ∀ v ∈ extra, h.isLive v = true) : h.Adds extra [] h := by
  refine ⟨.refl hw hl, rfl, rfl, fun i v hi hv => ?_, .nil, by simp, by simp, by simp⟩
  rw [Array.getElem?_eq_none hi] at hv
  cases hv

/-- What can be reached now is what could be reached before and the new cells. -/
lemma cases_of_reachable (ha : h.Adds extra made k)
    (hx : ∀ v ∈ extra', h.Reachable extra v ∨ v ∈ made) (hr : k.Reachable extra' v) :
    h.Reachable extra v ∨ v ∈ made := by
  induction hr with
  | anchor hv =>
    cases hv with
    | sentinel hv => exact .inl (.sentinel hv)
    | permanent hr hv =>
      refine .inl (.of_not_collectible (ha.size_eq ▸ hv) fun hc => ?_)
      exact absurd (ha.collectible.mpr hc).2 (Nat.not_lt.mpr hr)
    | root hv =>
      obtain ⟨i, hi⟩ := List.getElem?_of_mem hv
      rw [Array.getElem?_toList] at hi
      rcases Nat.lt_or_ge i h.roots.size with hlt | hge
      · exact .inl (.of_slot ((ha.below i hlt).symm.trans hi))
      · exact ha.above i _ hge hi
    | base => exact .inl (ha.baseEnv ▸ .anchor .base)
    | current => exact .inl (ha.currentEnv ▸ .anchor .current)
    | extra hv => exact hx _ hv
  | @child u v d _ hd hv ih =>
    rcases ih with hu | hu
    · exact .inl (.child hu ((ha.kept u hu).symm.trans hd) hv)
    · exact ha.closed u hu d hd v hv

/-- One action after the other.  The second one has to save what the first one was given and the
cells that it made. -/
lemma trans (ha : h.Adds extra made k) (hk : k.Adds extra' made' l)
    (hx : ∀ v ∈ extra, k.Reachable extra' v) (hm : ∀ v ∈ made, k.Reachable extra' v)
    (hx' : ∀ v ∈ extra', h.Reachable extra v ∨ v ∈ made) : h.Adds extra (made' ++ made) l := by
  have hknown : ∀ {w}, k.Reachable extra' w ∨ w ∈ made' →
      h.Reachable extra w ∨ w ∈ made' ++ made := fun {w} hw =>
    hw.elim (fun hw => (ha.cases_of_reachable hx' hw).imp_right (List.mem_append_right made'))
      fun hw => .inr (List.mem_append_left made hw)
  refine ⟨ha.toSaves.trans hk.toSaves hx, hk.size_eq.trans ha.size_eq,
    hk.symbols_eq.trans ha.symbols_eq, fun i v hi hv => ?_, ?_, fun v hv => ?_, fun v hv =>
      ?_, fun v hv d hd c hc => ?_⟩
  · rcases Nat.lt_or_ge i k.roots.size with hlt | hge
    · rw [hk.below i hlt] at hv
      exact (ha.above i v hi hv).imp_right (List.mem_append_right made')
    · exact hknown (hk.above i v hge hv)
  · refine List.nodup_append.mpr ⟨hk.nodup, ha.nodup, ?_⟩
    rintro v hv _ hv' rfl
    exact (hk.fresh v hv).2 (hm v hv')
  · rcases List.mem_append.mp hv with hv | hv
    · exact ⟨ha.collectible.mp (hk.fresh v hv).1,
        fun hr => (hk.fresh v hv).2 (ha.toSaves.reachable hx hr)⟩
    · exact ha.fresh v hv
  · rcases List.mem_append.mp hv with hv | hv
    · exact hk.held v hv
    · exact hk.isLive (hm v hv)
  · rcases List.mem_append.mp hv with hv | hv
    · exact hknown (hk.closed v hv d hd c hc)
    · rw [hk.kept v (hm v hv)] at hd
      exact (ha.closed v hv d hd c hc).imp_right (List.mem_append_right made')

/-- Changes to the root slots beyond those of `h`. -/
lemma setRoots (ha : h.Adds extra made k) {roots : Array Handle}
    (hw : ({ k with roots } : Heap).WellFormed) (hd : h.roots.size ≤ roots.size)
    (hb : ∀ i < h.roots.size, roots[i]? = k.roots[i]?)
    (hu : ∀ i v, h.roots.size ≤ i → roots[i]? = some v → h.Reachable extra v ∨ v ∈ made) :
    h.Adds extra made { k with roots } :=
  ⟨ha.toSaves.setRoots hw hd hb, ha.size_eq, ha.symbols_eq, hu, ha.nodup, ha.fresh,
    ha.held, ha.closed⟩

/-- Giving up all slots but those of `h`. -/
lemma dropRoots (ha : h.Adds extra made k) : h.Adds extra made { k with roots := h.roots } := by
  refine ha.setRoots (ha.toSaves.dropRoots).wellFormed (Nat.le_refl _)
    (fun i hi => (ha.below i hi).symm) fun i v hi hv => ?_
  rw [Array.getElem?_eq_none hi] at hv
  cases hv

lemma sameFrame (ha : h.Adds extra made k) (hr : k.roots = h.roots) : SameFrame h k :=
  ⟨ha.size_eq, ha.capacity, hr, ha.rootSlots, ha.symbols_eq, ha.baseEnv, ha.currentEnv, ha.audited⟩

/-- Occupying a slot. -/
lemma push (ha : h.Adds extra made k) (hv : h.Reachable extra v ∨ v ∈ made)
    (hl : k.isLive v = true) : h.Adds extra made { k with roots := k.roots.push v } := by
  have hd := ha.depth
  refine ha.setRoots (ha.wellFormed.push hl) (by rw [Array.size_push]; omega) (fun i hi => ?_)
    fun i w hi hw => ?_
  · rw [Array.getElem?_push, if_neg (by omega)]
  · rw [Array.getElem?_push] at hw
    split at hw
    · obtain rfl := Option.some.inj hw
      exact hv
    · exact ha.above i w hi hw

/-- Giving up a slot that was occupied along the way. -/
lemma pop (ha : h.Adds extra made k) (hs : h.roots.size < k.roots.size) :
    h.Adds extra made { k with roots := k.roots.pop } := by
  refine ha.setRoots ha.wellFormed.pop (by rw [Array.size_pop]; omega) (fun i hi => ?_)
    fun i w hi hw => ?_
  · rw [Array.getElem?_pop, if_pos (by omega)]
  · rw [Array.getElem?_pop] at hw
    split at hw
    · exact ha.above i w hi hw
    · cases hw

/-- Putting an object into such a slot. -/
lemma put (ha : h.Adds extra made k) (hv : h.Reachable extra v ∨ v ∈ made) (hl : k.isLive v = true)
    {i : Nat} (hi : h.roots.size ≤ i) :
    h.Adds extra made { k with roots := k.roots.setIfInBounds i v } := by
  refine ha.setRoots (ha.wellFormed.put hl i) (by simpa using ha.depth) (fun j hj => ?_)
    fun j w hj hw => ?_
  · rw [Array.getElem?_setIfInBounds_ne (by omega)]
  · rw [Array.getElem?_setIfInBounds] at hw
    split at hw
    · split at hw
      · obtain rfl := Option.some.inj hw
        exact hv
      · cases hw
    · exact ha.above j w hj hw

/-! ### Counting new cells -/

lemma ncard_made (hn : made.Nodup) : ((made.map Handle.index).toFinset : Set Nat).ncard =
    made.length := by
  have hinj : Function.Injective Handle.index := fun _ _ => congrArg Handle.mk
  rw [Set.ncard_coe_finset, List.toFinset_card_of_nodup (hn.map hinj), List.length_map]

/-- There was room for the new cells. -/
lemma usedWith_add_length_le (ha : h.Adds extra made k) :
    h.usedWith extra + made.length ≤ h.capacity := by
  rw [← ncard_setOf_collectible h, ← ncard_made ha.nodup, usedWith]
  have hfin : {i | h.Collectible i ∧ h.Reachable extra ⟨i⟩}.Finite :=
    (finite_collectible h).subset fun i hi => hi.1
  rw [← Set.ncard_union_eq ?_ hfin (Finset.finite_toSet _)]
  · refine Set.ncard_le_ncard ?_ (finite_collectible h)
    rintro i (hi | hi)
    · exact hi.1
    · obtain ⟨v, hv, rfl⟩ : ∃ v ∈ made, v.index = i := by simpa using hi
      exact (ha.fresh v hv).1
  · refine Set.disjoint_left.mpr fun i hi hm => ?_
    obtain ⟨v, hv, rfl⟩ : ∃ v ∈ made, v.index = i := by simpa using hm
    exact (ha.fresh v hv).2 hi.2

/-- What can be reached now has been counted before, or is new. -/
lemma usedWith_le (ha : h.Adds extra made k) (hx : ∀ v ∈ extra', h.Reachable extra v ∨ v ∈ made) :
    k.usedWith extra' ≤ h.usedWith extra + made.length :=
  usedWith_le_of_cases ha.capacity fun _ _ hr => ha.cases_of_reachable hx hr

/-- If no cell is left, what could be reached and the new cells take all of the arena. -/
lemma capacity_le (ha : h.Adds extra made k) (hx : ∀ v ∈ extra', h.Reachable extra v ∨ v ∈ made)
    (hall : ∀ i, k.Collectible i → k.Reachable extra' ⟨i⟩) :
    h.capacity ≤ h.usedWith extra + made.length := by
  refine le_trans ?_ (ha.usedWith_le hx)
  have hset : {i | k.Collectible i ∧ k.Reachable extra' ⟨i⟩} = {i | k.Collectible i} :=
    Set.ext fun i => ⟨fun hi => hi.1, fun hi => ⟨hi, hall i hi⟩⟩
  rw [usedWith, hset, ncard_setOf_collectible, ha.capacity]

end Adds

/-! ## Allocation -/

/-- Allocation adds one cell, or none if there is none left. -/
lemma alloc_adds (hw : k.WellFormed) (hf : d.isFree = false)
    (hl : ∀ v ∈ d.children, k.isLive v = true) :
    (∃ v l, HeapM.alloc d k = .ok v l ∧ k.Adds d.children [v] l ∧ l.object? v = some d ∧
      l.roots = k.roots) ∨
    ∃ l, HeapM.alloc d k = .error .outOfMemory l ∧ k.Adds d.children [] l ∧ l.roots = k.roots ∧
      ∀ i, k.Collectible i → k.Reachable d.children ⟨i⟩ := by
  by_cases hx : k.Exhausted d.children
  · have hrun := alloc_of_exhausted hw hl hx
    have hw' : ({ k with collections := k.collections + 1 } : Heap).WellFormed := by
      rcases alloc_spec hw hf hl with ⟨v, l, hrun', -, -⟩ | ⟨l, hrun', hwl, -⟩
      · rw [hrun] at hrun'
        cases hrun'
      · obtain ⟨-, rfl⟩ := Outcome.error.inj (hrun.symm.trans hrun')
        exact hwl
    have ha := Adds.refl hw hl
    refine .inr ⟨_, hrun, ⟨?_, rfl, rfl, ha.above, .nil, by simp, by simp, by simp⟩, rfl, hx.2⟩
    exact { ha.toSaves with wellFormed := hw', later := Nat.le_succ _ }
  · obtain ⟨v, l, hrun, hp⟩ := alloc_of_not_exhausted hw hf hl hx
    have hnew : l.object? v = some d := object?_eq_some.mpr ⟨hp.holds, hf⟩
    have hroots := hp.frame.roots
    refine .inl ⟨v, l, hrun, ⟨⟨hw, hl, hp.wellFormed, hp.frame.capacity, hp.frame.rootSlots,
      hp.frame.baseEnv, hp.frame.currentEnv, hp.frame.audited, ?_, hp.frame.size.ge,
      fun name w hn => ?_, fun w hw' => congrArg (Option.filter _) (hp.kept w hw').2, by
      rw [hroots], by simp [hroots]⟩, hp.frame.size, hp.frame.symbols, fun i w hi hi' => ?_,
        List.nodup_singleton v, ?_, ?_, ?_⟩, hnew, hroots⟩
    · cases hfree : k.free with
      | some i => exact (hp.head i hfree).2.ge
      | none => exact (hp.swept hfree).symm ▸ Nat.le_succ _
    · rw [findSymbol, hp.frame.symbols]
      exact hn
    · rw [hroots, Array.getElem?_eq_none hi] at hi'
      cases hi'
    · intro w hw'
      obtain rfl := List.mem_singleton.mp hw'
      exact ⟨hp.collectible, hp.unreachable⟩
    · intro w hw'
      obtain rfl := List.mem_singleton.mp hw'
      exact isLive_of_object? hnew
    · intro w hw' e he c hc
      obtain rfl := List.mem_singleton.mp hw'
      obtain rfl := Option.some.inj (hnew.symm.trans he)
      exact .inl (.of_extra hc)

/-- Allocation in the course of an action makes one cell more, or else the arena is full. -/
lemma Adds.alloc (ha : h.Adds extra made k) (hf : d.isFree = false)
    (hd : ∀ v ∈ d.children, h.Reachable extra v ∨ v ∈ made)
    (hx : ∀ v ∈ extra, k.Reachable d.children v) (hm : ∀ v ∈ made, k.Reachable d.children v) :
    (∃ v l, HeapM.alloc d k = .ok v l ∧ h.Adds extra (v :: made) l ∧ l.object? v = some d ∧
      l.roots = k.roots ∧ k.Saves d.children l) ∨
    ∃ l, HeapM.alloc d k = .error .outOfMemory l ∧ h.Adds extra made l ∧ l.roots = k.roots ∧
      h.capacity ≤ h.usedWith extra + made.length := by
  have hlive : ∀ v ∈ d.children, k.isLive v = true := fun v hv =>
    (hd v hv).elim (fun hr => ha.isLive hr) (ha.held v)
  rcases alloc_adds ha.wellFormed hf hlive with ⟨v, l, hrun, hl, hv, hr⟩ | ⟨l, hrun, hl, hr, hall⟩
  · exact .inl ⟨v, l, hrun, ha.trans hl hx hm hd, hv, hr, hl.toSaves⟩
  · exact .inr ⟨l, hrun, ha.trans hl hx hm hd, hr, ha.capacity_le hd hall⟩

/-! ## Objects that nothing else refers to -/

/-- No object but these refers to one of these. -/
def Withholds (h : Heap) (cells : List Handle) : Prop :=
  ∀ u d, u ∉ cells → h.object? u = some d → ∀ c ∈ d.children, c ∉ cells

/-- A new object is referred to by none that has been there before, be it in use or not. -/
lemma Withholds.alloc (hk : k.Withholds made) (ha : k.Allocated d v l) :
    l.Withholds (v :: made) := by
  intro u e hu he c hc hm
  obtain ⟨hne, hu⟩ := not_or.mp (mt List.mem_cons.mpr hu)
  rcases List.mem_cons.mp hm with rfl | hm
  · exact ha.unknown u e hne he hc
  · exact hk u e hu (ha.old u e hne he) c hc hm

lemma Withholds.perm (hk : k.Withholds made) (hp : made.Perm made') : k.Withholds made' :=
  fun u d hu hd c hc hm => hk u d (mt hp.mem_iff.mp hu) hd c hc (hp.mem_iff.mpr hm)

end Heap

end ArenaScheme
