/-
# Permanent objects in step

Permanent cells are appended in the same order in both heaps, so the permanent objects of two runs
correspond by their distance from the end of the collectible region.  Making one never depends on
the sizes of a heap.
-/
import ArenaScheme.Heap.Symbols
import ArenaScheme.Proofs.Twin.Objects

namespace ArenaScheme

namespace Twin

open Heap HeapM

variable {ε : Type} [Fault ε] {W : Regime} {σ τ : Twin} {r : Role} {a b v v' : Handle}
  {d d' : Datum}

lemma grown_addPermanent {h : Heap} (hw : h.WellFormed) (hf : d.isFree = false)
    (hc : ∀ w ∈ d.children, h.isLive w = true) :
    Grown h d ⟨h.cells.size⟩ (h.addPermanent d).2 := by
  refine ⟨hw.addPermanent hf hc, fun w => ?_, ?_, rfl, rfl, rfl, rfl, rfl⟩
  · rw [object?_addPermanent h hf]
    by_cases hi : w.index = h.cells.size
    · rw [if_pos hi, if_pos (congrArg Handle.mk hi)]
    · rw [if_neg hi, if_neg]
      rintro rfl
      exact hi rfl
  · rw [object?, Array.getElem?_eq_none (Nat.le_refl _)]
    rfl

/-- The heap with a symbol for a name that has none. -/
def withSymbol (h : Heap) (name : String) : Heap :=
  { (h.addPermanent (.symbol name)).2 with symbols := h.symbols.insert name ⟨h.cells.size⟩ }

lemma intern_of_none {h : Heap} {name : String} (hn : h.symbols[name]? = none) :
    h.intern name = (⟨h.cells.size⟩, withSymbol h name) := by
  rw [Heap.intern, hn]
  rfl

/-- Making corresponding permanent objects. -/
lemma Valid.growPermanent (hv : σ.Valid W) {h g : Heap}
    (hl : Grown σ.left d ⟨σ.left.cells.size⟩ h) (hr : Grown σ.right d' ⟨σ.right.cells.size⟩ g)
    (hf : Fits W σ r d d') (hs : h.cells.size = σ.left.cells.size + 1)
    (hs' : g.cells.size = σ.right.cells.size + 1)
    (hsym : ∀ name : String, Option.Rel ((σ.grow h g r ⟨σ.left.cells.size⟩
      ⟨σ.right.cells.size⟩).rel (W.roleOf name)) h.symbols[name]? g.symbols[name]?)
    (hsame : W.same → h = g) :
    (σ.grow h g r ⟨σ.left.cells.size⟩ ⟨σ.right.cells.size⟩).Valid W ∧
      Keeps σ (σ.grow h g r ⟨σ.left.cells.size⟩ ⟨σ.right.cells.size⟩) := by
  have hend : h.regionEnd = σ.left.regionEnd := by rw [regionEnd, hl.capacity, regionEnd]
  have hend' : g.regionEnd = σ.right.regionEnd := by rw [regionEnd, hr.capacity, regionEnd]
  have hperm := hv.permanents
  refine ⟨hv.grow hl hr hf (by omega) (fun k hk => ?_) hsym fun hw => ?_,
    keeps_grow hv hl hr (by omega)⟩
  · rw [hend, hend']
    rw [hend, hs] at hk
    by_cases hlt : σ.left.regionEnd + k < σ.left.cells.size
    · obtain ⟨s, hs⟩ := hv.permanent k hlt
      exact ⟨s, .inl hs⟩
    · -- the new cells are as far from the end of the region as each other
      refine ⟨r, .inr ⟨rfl, ?_, ?_⟩⟩
      · rw [Handle.mk.injEq]
        omega
      · rw [Handle.mk.injEq]
        omega
  · rw [(hv.same hw).1]
    exact ⟨hsame hw, rfl⟩

/-- Looking for or making the symbols of a name. -/
lemma Runs.intern (hv : σ.Valid W) (name : String) :
    Runs W Keeps (HeapM.intern name : HeapM ε Handle) (HeapM.intern name) σ fun v v' τ =>
      τ.rel (W.roleOf name) v v' ∧ τ.left.symbols[name]? = some v := by
  have hsym := hv.symbols name
  have happly : ∀ h : Heap, (HeapM.intern name : HeapM ε Handle) h =
      .ok (h.intern name).1 (h.intern name).2 := fun h => rfl
  cases hl : σ.left.symbols[name]? with
  | some v =>
    rw [hl] at hsym
    cases hr : σ.right.symbols[name]? with
    | none =>
      rw [hr] at hsym
      cases hsym
    | some v' =>
      rw [hr] at hsym
      obtain ⟨hs⟩ := hsym
      exact .ok (τ := σ) ((happly _).trans (by rw [intern_of_some hl]))
        ((happly _).trans (by rw [intern_of_some hr])) hv (Keeps.refl σ) ⟨hs, hl⟩
  | none =>
    rw [hl] at hsym
    have hr : σ.right.symbols[name]? = none := by
      cases hr : σ.right.symbols[name]? with
      | none => rfl
      | some v' =>
        rw [hr] at hsym
        cases hsym
    have hwl := (hv.left.intern name).1
    have hwr := (hv.right.intern name).1
    rw [intern_of_none hl] at hwl
    rw [intern_of_none hr] at hwr
    have hgl := grown_addPermanent hv.left (d := .symbol name) rfl (by simp [Datum.children])
    have hgr := grown_addPermanent hv.right (d := .symbol name) rfl (by simp [Datum.children])
    have hf : Fits W σ (W.roleOf name) (.symbol name) (.symbol name) := by
      unfold Regime.roleOf
      split
      · next hn =>
        refine .atom rfl rfl ?_ (by simp)
        rintro s ⟨⟩
        exact hn
      · exact .secret rfl rfl
    have htable : ∀ other : String, Option.Rel ((σ.grow (withSymbol σ.left name)
        (withSymbol σ.right name) (W.roleOf name) ⟨σ.left.cells.size⟩
        ⟨σ.right.cells.size⟩).rel (W.roleOf other))
        (withSymbol σ.left name).symbols[other]? (withSymbol σ.right name).symbols[other]? := by
      intro other
      simp only [withSymbol]
      by_cases ho : name = other
      · subst ho
        simp only [Std.TreeMap.getElem?_insert_self]
        exact .some (.inr ⟨rfl, rfl, rfl⟩)
      · rw [Std.TreeMap.getElem?_insert, Std.TreeMap.getElem?_insert, if_neg (by simpa using ho),
          if_neg (by simpa using ho)]
        exact optionRel_mono (fun _ _ h => .inl h) (hv.symbols other)
    obtain ⟨hvt, hk⟩ := hv.growPermanent (r := W.roleOf name) (h := withSymbol σ.left name)
      (g := withSymbol σ.right name) ⟨hwl, hgl.object?, hgl.absent, rfl, rfl, rfl, rfl, rfl⟩
      ⟨hwr, hgr.object?, hgr.absent, rfl, rfl, rfl, rfl, rfl⟩ hf
      (by simp [withSymbol, addPermanent]) (by simp [withSymbol, addPermanent]) htable
      fun hw => by rw [(hv.same hw).1]
    refine .ok (τ := σ.grow _ _ _ _ _) ((happly σ.left).trans (by rw [intern_of_none hl]; rfl))
      ((happly σ.right).trans (by rw [intern_of_none hr]; rfl)) hvt hk ⟨.inr ⟨rfl, rfl, rfl⟩, ?_⟩
    change (σ.left.symbols.insert name ⟨σ.left.cells.size⟩)[name]? = _
    simp

/-- The symbol of a name is permanent. -/
lemma Valid.symbol_lasting (hv : σ.Valid W) {name : String} (hn : W.names name)
    (hr : σ.rel (W.roleOf name) v v') (hs : σ.left.symbols[name]? = some v) : σ.Lasting v v' := by
  obtain ⟨hc, hd⟩ := hv.left.table name v hs
  rw [Regime.roleOf_of_names hn] at hr
  exact ⟨hr, lt_size_of_object? hd, hc⟩

/-- Making corresponding foreign procedures. -/
lemma Runs.makeForeign (hv : σ.Valid W) (name : String) (code : Native)
    (hr : r = .hidden ∨ r = .shown ∧ W.natives code) :
    Runs W Keeps (HeapM.makeForeign name code : HeapM ε Handle) (HeapM.makeForeign name code) σ
      fun v v' τ => τ.rel r v v' := by
  have hf : Fits W σ r (.foreign name code) (.foreign name code) := by
    rcases hr with rfl | ⟨rfl, hc⟩
    · exact .secret rfl rfl
    · refine .atom rfl rfl (by simp) ?_
      rintro _ _ ⟨⟩
      exact hc
  obtain ⟨hvt, hk⟩ := hv.growPermanent (r := r)
    (grown_addPermanent hv.left (d := .foreign name code) rfl (by simp [Datum.children]))
    (grown_addPermanent hv.right (d := .foreign name code) rfl (by simp [Datum.children])) hf
    (by simp [addPermanent]) (by simp [addPermanent])
    (fun other => optionRel_mono (fun _ _ h => .inl h) (hv.symbols other))
    fun hw => by rw [(hv.same hw).1]
  exact .ok (a := ⟨σ.left.cells.size⟩) (b := ⟨σ.right.cells.size⟩) (τ := σ.grow _ _ r _ _) rfl rfl
    hvt hk (.inr ⟨rfl, rfl, rfl⟩)

end Twin

end ArenaScheme
