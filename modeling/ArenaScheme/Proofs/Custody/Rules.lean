/-
# Discreet actions

A step of the evaluator may hold objects that nobody else knows of, in one root slot.  They are in
the custody of that slot: no other object refers to them, no other slot holds one of them, and
whatever is evaluated in the meantime has no handle of them.  So it leaves them as they are, be
there collections or not, and even if it gets the heap out of order; and it can give none of them
away, since it makes new objects of what it knows only.

Such an action is called discreet.  Which objects are in custody does not change, so there is one
set of handles that may be shown, whatever the heap is.  The rules below are those that actions are
put together with.
-/
import ArenaScheme.Proofs.Custody.Sweeping
import ArenaScheme.Proofs.Heeding.Rules
import ArenaScheme.Proofs.Seclusion.Objects

namespace ArenaScheme

/-- What `first` leads to through some objects. -/
inductive Spans (objects : Handle → Option Datum) (first : Handle) : Handle → Prop
  | first : Spans objects first first
  | next {u v : Handle} {d : Datum} (hu : Spans objects first u) (hd : objects u = some d)
      (hv : v ∈ d.children) : Spans objects first v

/-- Objects that are held by one root slot: the slot, what is in it, and the objects that this leads
to. -/
structure Custody where
  slot : Nat
  first : Handle
  objects : Handle → Option Datum
  spans : ∀ v d, objects v = some d → Spans objects first v
  apart : ∀ v : Handle, v.index < Heap.regionStart → objects v = none

variable {C : Custody} {ε ε' α β : Type} {h k : Heap} {u v : Handle} {d : Datum}

namespace Custody

/-- The handle is not one of an object in custody. -/
def Spares (C : Custody) (v : Handle) : Prop := C.objects v = none

/-- The objects in custody are there, and nothing refers to them but the slot and these objects. -/
structure Guards (C : Custody) (h : Heap) : Prop where
  held : h.roots[C.slot]? = some C.first
  kept : ∀ v d, C.objects v = some d → h.object? v = some d
  parts : ∀ v d, C.Spares v → h.object? v = some d → ∀ c ∈ d.children, C.Spares c
  others : ∀ i v, i ≠ C.slot → h.roots[i]? = some v → C.Spares v
  current : C.Spares h.currentEnv

lemma spares_sentinel (C : Custody) (hv : v.index < Heap.regionStart) : C.Spares v := C.apart v hv

namespace Guards

/-- A handle without an object is not one of an object in custody. -/
lemma spares_of_none (hg : C.Guards h) (hv : h.object? v = none) : C.Spares v := by
  rw [Spares, Option.eq_none_iff_forall_not_mem]
  intro d hd
  have := hg.kept v d hd
  rw [hv] at this
  cases this

lemma lt_size (hg : C.Guards h) : C.slot < h.roots.size := (Array.getElem?_eq_some_iff.mp hg.held).1

/-- The objects in custody are kept by every collection. -/
lemma reachable (hg : C.Guards h) {extra : List Handle} (hv : C.objects v = some d) :
    h.Reachable extra v := by
  -- the slot leads to it, and each object on the way is in custody too
  have hspan := C.spans v d hv
  clear hv
  induction hspan with
  | first => exact .of_slot hg.held
  | next _ hd hc ih => exact .child ih (hg.kept _ _ hd) hc

/-- Other objects in other cells, which refer to objects that may be shown. -/
lemma rewritten (hg : C.Guards h) (hr : h.Rewritten v d k) (hv : C.Spares v)
    (hd : ∀ c ∈ d.children, C.Spares c) :
    C.Guards k := by
  refine ⟨hr.roots ▸ hg.held, fun u e hu => ?_, fun u e hu he => ?_, fun i u hi hu => ?_, ?_⟩
  · rw [hr.other (by rintro rfl; simp [Spares, hu] at hv)]
    exact hg.kept u e hu
  · by_cases huv : u = v
    · subst huv
      obtain rfl := Option.some.inj (hr.self.symm.trans he)
      exact hd
    · exact hg.parts u e hu ((hr.other huv).symm.trans he)
  · exact hg.others i u hi (hr.roots ▸ hu)
  · exact hr.currentEnv ▸ hg.current

/-- The same cells with other slots. -/
lemma setRoots (hg : C.Guards h) {roots : Array Handle} (hf : roots[C.slot]? = some C.first)
    (ho : ∀ i v, i ≠ C.slot → roots[i]? = some v → C.Spares v) : C.Guards { h with roots } :=
  ⟨hf, hg.kept, hg.parts, ho, hg.current⟩

lemma push (hg : C.Guards h) (hv : C.Spares v) : C.Guards { h with roots := h.roots.push v } := by
  have hlt := hg.lt_size
  refine hg.setRoots ?_ fun i u hi hu => ?_
  · rw [Array.getElem?_push, if_neg (by omega)]
    exact hg.held
  · rw [Array.getElem?_push] at hu
    split at hu
    · exact Option.some.inj hu ▸ hv
    · exact hg.others i u hi hu

lemma pop (hg : C.Guards h) (hs : C.slot + 1 < h.roots.size) :
    C.Guards { h with roots := h.roots.pop } := by
  refine hg.setRoots ?_ fun i u hi hu => ?_
  · rw [Array.getElem?_pop, if_pos (by omega)]
    exact hg.held
  · rw [Array.getElem?_pop] at hu
    split at hu
    · exact hg.others i u hi hu
    · cases hu

lemma collectKeeping (hg : C.Guards h) {extra : List Handle} {c : Collection}
    (hc : h.collectKeeping extra = .ok (c, k)) : C.Guards k := by
  -- nothing in custody is swept, since the slot leads to it
  have hf := Heap.SameFrame.collectKeeping hc
  refine ⟨hf.roots ▸ hg.held, fun v d hv => ?_, fun v d hv hd => ?_, fun i v hi hv => ?_, ?_⟩
  · exact Heap.object?_collectKeeping hc (hg.reachable hv) (hg.kept v d hv)
  · exact hg.parts v d hv (Heap.object?_of_collectKeeping hc hd)
  · exact hg.others i v hi (hf.roots ▸ hv)
  · exact hf.currentEnv ▸ hg.current

lemma prepare (hg : C.Guards h) {extra : List Handle} (hp : h.prepare extra = .ok k) :
    C.Guards k := by
  unfold Heap.prepare at hp
  split at hp
  · cases hc : h.collectKeeping extra with
    | ok p =>
      rw [hc] at hp
      obtain rfl := Except.ok.inj hp
      exact hg.collectKeeping hc
    | error c => simp [hc, Except.map] at hp
  · obtain rfl := Except.ok.inj hp
    exact hg

end Guards

end Custody

/-! ## Rules -/

/-- An action that leaves what is in custody alone and shows none of it. -/
def Discreet [Sparing ε] [Sparing α] (C : Custody) (x : HeapM ε α) : Prop :=
  ∀ h, C.Guards h → (x h).Ends True (fun a k => C.Guards k ∧ spared C.Spares a) fun e k =>
    C.Guards k ∧ spared C.Spares e

namespace Discreet

open HeapM

variable [Sparing ε] [Sparing ε'] [Sparing α] [Sparing β] {x : HeapM ε α} {root : Root}

lemma pure {a : α} (ha : spared C.Spares a) : Discreet C (pure a : HeapM ε α) :=
  fun _ hg => ⟨hg, ha⟩

lemma fail {e : ε} (he : spared C.Spares e) : Discreet C (fail e : HeapM ε α) :=
  fun _ hg => ⟨hg, he⟩

lemma halt {c : Halt} : Discreet C (halt c : HeapM ε α) := fun _ _ _ => trivial

lemma bind {f : α → HeapM ε β} (hx : Discreet C x)
    (hf : ∀ a, spared C.Spares a → Discreet C (f a)) :
    Discreet C (x >>= f) :=
  fun h hg => ends_bind (hx h hg) fun a k ha => hf a ha.2 k ha.1

/-- A value read off the heap. -/
lemma inspect {g : Heap → Except Halt α}
    (hg : ∀ h a, C.Guards h → g h = .ok a → spared C.Spares a) :
    Discreet C (inspect g : HeapM ε α) := by
  intro h hh
  rw [HeapM.inspect]
  cases hgh : g h with
  | ok a => exact ⟨hh, hg h a hh hgh⟩
  | error c => exact fun _ => trivial

/-- A failure that counts as a value. -/
lemma recover {f : ε → α} (hx : Discreet C x)
    (hf : ∀ e, spared C.Spares e → spared C.Spares (f e)) :
    Discreet C (recover x f : HeapM ε' α) := by
  intro h hg
  have := hx h hg
  rw [HeapM.recover]
  revert this
  cases x h with
  | ok _ _ => exact id
  | error e _ => exact fun he => ⟨he.1, hf e he.2⟩
  | halt _ => exact id

lemma ensuring {y : HeapM ε Unit} (hx : Discreet C x) (hy : Discreet C y) :
    Discreet C (ensuring x y) := by
  intro h hg
  have hxh := hx h hg
  rw [HeapM.ensuring]
  revert hxh
  cases x h with
  | ok a k =>
    intro ha
    have hyk := hy k ha.1
    dsimp only
    revert hyk
    cases y k with
    | ok _ _ => exact fun hm => ⟨hm.1, ha.2⟩
    | error _ _ => exact id
    | halt _ => exact id
  | error e k =>
    intro he
    have hyk := hy k he.1
    dsimp only
    revert hyk
    cases y k with
    | ok _ _ => exact fun hm => ⟨hm.1, he.2⟩
    | error _ _ => exact id
    | halt _ => exact id
  | halt _ => exact id

/-! ### Slots -/

/-- The contents of another slot. -/
lemma contents (hr : root.slot ≠ C.slot) : Discreet C (contents root : HeapM ε Handle) := by
  intro h hg
  rw [HeapM.contents]
  cases hv : h.roots[root.slot]? with
  | some v => exact ⟨hg, hg.others _ v hr hv⟩
  | none => exact fun _ => trivial

lemma store (hr : root.slot ≠ C.slot) (hv : C.Spares v) :
    Discreet C (store root v : HeapM ε Unit) := by
  intro h hg
  rw [HeapM.store]
  by_cases hlt : root.slot < h.roots.size
  · rw [if_pos hlt]
    refine ⟨hg.setRoots ?_ fun i u hi hu => ?_, trivial⟩
    · rw [Array.getElem?_setIfInBounds_ne hr]
      exact hg.held
    · rw [Array.getElem?_setIfInBounds] at hu
      split at hu
      · exact (by simpa [hlt] using hu : v = u) ▸ hv
      · exact hg.others i u hi hu
  · rw [if_neg hlt]
    exact fun _ => trivial

/-- Holding an object in a slot of its own, which is another one. -/
lemma rooted {body : Root → HeapM ε α} (hv : C.Spares v)
    (hb : ∀ root : Root, root.slot ≠ C.slot → Discreet C (body root)) :
    Discreet C (rooted v body) := by
  intro h hg
  have hlt := hg.lt_size
  have hpop : ∀ k, C.Guards k → k.roots.size = h.roots.size + 1 →
    C.Guards { k with roots := k.roots.pop } :=
    fun k hk hs => hk.pop (by omega)
  refine ends_rooted (hb ⟨h.roots.size⟩ (Nat.ne_of_gt hlt) _ (hg.push hv))
    (fun a k ha hs => ?_) fun e k he hs => ?_
  · exact ⟨hpop k ha.1 hs, ha.2⟩
  · exact ⟨hpop k he.1 hs, he.2⟩

/-! ### The current frame -/

lemma currentEnv : Discreet C (currentEnv : HeapM ε Handle) := fun _ hg => ⟨hg, hg.current⟩

lemma switchEnv (hv : C.Spares v) : Discreet C (switchEnv v : HeapM ε Unit) := fun _ hg =>
  ⟨⟨hg.held, hg.kept, hg.parts, hg.others, hv⟩, trivial⟩

end Discreet

end ArenaScheme
