/-
# Custody in spite of garbage

Objects are in the custody of a slot if nothing else refers to them.  If garbage does, then that is
no matter to an action that is blind to garbage: it does what it would do if the garbage were
something else.  So in order to say that objects are in custody, it is enough to look at what can be
reached.
-/
import ArenaScheme.Proofs.Garbage.Blindness
import ArenaScheme.Proofs.Custody.Evaluator

namespace ArenaScheme

open HeapM

variable {C : Custody} {W : Waste} {ε : Type} {h k : Heap} {extra : List Handle} {v : Handle}
  {d : Datum}

/-! ## The garbage of a heap -/

namespace Waste

/-- No garbage at all. -/
def none : Waste where
  Has _ := False
  apart _ _ := id

lemma alike_none (h : Heap) : none.Alike h h :=
  ⟨⟨rfl, rfl, fun _ _ => rfl, fun _ => False.elim⟩, fun _ _ _ _ _ _ => id, fun _ _ => id,
    fun _ _ _ => id, id, id⟩

end Waste

namespace Heap

/-- The objects that cannot be reached. -/
def waste (h : Heap) (extra : List Handle) : Waste where
  Has v := h.Collectible v.index ∧ h.isLive v = true ∧ ¬ h.Reachable extra v
  apart _ hv hw := Nat.not_le.mpr hv hw.1.1

lemma Reachable.spares_waste (hv : h.Reachable extra v) : (h.waste extra).Spares v :=
  fun hw => hw.2.2 hv

lemma reachable_of_spares_waste (hv : (h.waste extra).Spares v) (hd : h.object? v = some d) :
    h.Reachable extra v := by
  by_contra hr
  by_cases hc : h.Collectible v.index
  · exact hv ⟨hc, isLive_of_object? hd, hr⟩
  · exact hr (.of_not_collectible (lt_size_of_object? hd) hc)

open Classical in
/-- The heap with something else in place of what cannot be reached. -/
noncomputable def cleared (h : Heap) (extra : List Handle) : Heap :=
  { h with cells := h.cells.mapIdx fun i d => if (h.waste extra).Has ⟨i⟩ then .emptyList else d }

lemma getElem?_cleared_of_spares (hv : (h.waste extra).Spares v) :
    (h.cleared extra).cells[v.index]? = h.cells[v.index]? := by
  have hv : ¬ (h.waste extra).Has ⟨v.index⟩ := hv
  simp only [cleared, Array.getElem?_mapIdx, if_neg hv, Option.map_id']

lemma object?_cleared_of_has (hv : (h.waste extra).Has v) :
    (h.cleared extra).object? v = some .emptyList := by
  obtain ⟨d, hd⟩ := isLive_iff.mp hv.2.1
  rw [object?_eq_some]
  refine ⟨?_, rfl⟩
  simp only [cleared, Array.getElem?_mapIdx, (object?_eq_some.mp hd).1, Option.map_some]
  rw [if_pos hv]

lemma alike_cleared (h : Heap) (extra : List Handle) :
    (h.waste extra).Alike h (h.cleared extra) := by
  refine ⟨⟨rfl, by simp [cleared], fun v hv => getElem?_cleared_of_spares hv,
    fun v hv => ⟨hv.2.1, isLive_of_object? (object?_cleared_of_has hv)⟩⟩, fun v d hv hd c hc => ?_,
      fun v hv hw => ?_,
    fun i v hv => ?_, ?_, ?_⟩
  · exact (Reachable.child (reachable_of_spares_waste hv hd) hd hc).spares_waste
  · exact Nat.not_lt.mpr hv hw.1.2
  · exact (Reachable.of_slot hv).spares_waste
  · exact (Reachable.anchor .base).spares_waste
  · exact (Reachable.anchor .current).spares_waste

end Heap

/-! ## Custody -/

namespace Custody

/-- The objects in custody are there, and nothing but garbage refers to them, the slot and these
objects apart. -/
def Keeps (C : Custody) (W : Waste) (h : Heap) : Prop := ∃ k, W.Alike h k ∧ C.Guards k

/-- It is enough that nothing that can be reached refers to the objects in custody. -/
lemma keeps_waste (hheld : h.roots[C.slot]? = some C.first)
    (hkept : ∀ v d, C.objects v = some d → h.object? v = some d)
    (hparts : ∀ v d, h.Reachable extra v → C.Spares v → h.object? v = some d →
      ∀ c ∈ d.children, C.Spares c)
    (hothers : ∀ (i : Nat) (v : Handle), i ≠ C.slot → h.roots[i]? = some v → C.Spares v)
    (hcurrent : C.Spares h.currentEnv) : C.Keeps (h.waste extra) h := by
  refine ⟨h.cleared extra, h.alike_cleared extra, hheld, fun v d hv => ?_, fun v d hv hd c hc => ?_,
    hothers, hcurrent⟩
  · -- the slot leads to it, so it is no garbage
    have hreach : ∀ u, Spans C.objects C.first u → h.Reachable extra u := by
      intro u hu
      induction hu with
      | first => exact .of_slot hheld
      | next _ hd hc ih => exact .child ih (hkept _ _ hd) hc
    rw [Heap.object?, Heap.getElem?_cleared_of_spares (hreach v (C.spans v d hv)).spares_waste]
    exact hkept v d hv
  · by_cases hw : (h.waste extra).Has v
    · rw [Heap.object?_cleared_of_has hw] at hd
      obtain rfl := Option.some.inj hd
      exact absurd hc List.not_mem_nil
    · rw [Heap.object?, Heap.getElem?_cleared_of_spares hw] at hd
      exact hparts v d (Heap.reachable_of_spares_waste hw hd) hv hd c hc

namespace Keeps

lemma spares_of_reachable (hk : C.Keeps W h) (he : ∀ v ∈ extra, W.Spares v)
    (hv : h.Reachable extra v) :
    W.Spares v := by
  obtain ⟨k, ha, -⟩ := hk
  exact ha.spares_of_reachable he hv

/-- The objects in custody are no garbage. -/
lemma kept (hk : C.Keeps W h) (hv : C.objects v = some d) :
    h.Reachable [] v ∧ h.object? v = some d := by
  obtain ⟨k, ha, hg⟩ := hk
  have hroots : k.roots = h.roots := by rw [ha.same]
  have hsame : ∀ {u e}, h.Reachable [] u → k.object? u = some e → h.object? u = some e := by
    intro u e hu he
    rwa [Heap.object?, ha.other u (ha.spares_of_reachable (by simp) hu)] at he
  have hreach : ∀ u, Spans C.objects C.first u → h.Reachable [] u := by
    intro u hu
    induction hu with
    | first => exact .of_slot (hroots ▸ hg.held)
    | next _ hd hc ih => exact .child ih (hsame ih (hg.kept _ _ hd)) hc
  have hv' := hreach v (C.spans v d hv)
  exact ⟨hv', hsame hv' (hg.kept v d hv)⟩

/-- Another object is held in a new slot. -/
lemma push (hk : C.Keeps W h) (hc : C.Spares v) (hv : W.Spares v) :
    C.Keeps W { h with roots := h.roots.push v } := by
  obtain ⟨k, ha, hg⟩ := hk
  have hroots : k.roots = h.roots := by rw [ha.same]
  exact ⟨_, ha.push hv, hroots ▸ hg.push hc⟩

/-- An action that is discreet, and blind to garbage, leaves the objects in custody as they are and
shows none. -/
lemma run [Sparing ε] {x : HeapM ε Handle} (hk : C.Keeps W h) (hx : Discreet C x) (hb : Blind W x)
    {l : Heap} (hrun : x h = .ok v l) :
    ∃ W', C.Keeps W' l ∧ C.Spares v ∧ W'.Spares v ∧ ∀ u, W.Spares u → W'.Spares u := by
  obtain ⟨k, ha, hg⟩ := hk
  have hsame := hb h k ha
  have hends := hx k hg
  rw [hrun] at hsame
  generalize x k = o at hsame hends
  cases hsame with
  | equal => exact ⟨.none, ⟨l, Waste.alike_none l, hends.1⟩, hends.2, id, fun _ _ => id⟩
  | ok hw hv => exact ⟨W, ⟨_, hw, hends.1⟩, hends.2, hv, fun _ => id⟩

end Keeps

end Custody

end ArenaScheme
