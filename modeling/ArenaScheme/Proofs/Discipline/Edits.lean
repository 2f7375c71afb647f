/-
# Elementary changes

Whatever an evaluation does to a heap, well formed or not, it does by a few elementary changes: a
collection, taking a free cell into use, replacing the parts of a pair or of a frame, appending a
permanent cell, interning a name, and changing the root stack or the current frame.  Only interning
makes symbols.  Procedures of the host may do more; what they do counts as one change.

What all elementary changes preserve is preserved by every evaluation.  So is the sentinel for
exhausted memory, since no change but a collection overwrites an error object, and collections do
not touch the sentinels.
-/
import Mathlib.Logic.Relation
import ArenaScheme.Eval.Evaluator
import ArenaScheme.Proofs.History

namespace ArenaScheme

/-- The heap that an action leaves, if it leaves one, is as stated. -/
inductive Outcome.Leaving {ε α : Type} (P : Heap → Prop) : Outcome ε α → Prop
  | ok {a : α} {k : Heap} (hk : P k) : Leaving P (.ok a k)
  | error {e : ε} {k : Heap} (hk : P k) : Leaving P (.error e k)
  | halt {c : Halt} : Leaving P (.halt c)

lemma Outcome.Leaving.mono {ε α : Type} {P P' : Heap → Prop} {o : Outcome ε α} (ho : o.Leaving P)
    (hP : ∀ k, P k → P' k) : o.Leaving P' := by
  cases ho with
  | ok hk => exact .ok (hP _ hk)
  | error hk => exact .error (hP _ hk)
  | halt => exact .halt

/-- The value that an action returns, if it returns one. -/
def Outcome.value? {ε α : Type} : Outcome ε α → Option α
  | .ok a _ => some a
  | _ => none

lemma Outcome.value?_eq_some {ε α : Type} {o : Outcome ε α} {a : α} :
    o.value? = some a ↔ ∃ k, o = .ok a k := by
  cases o <;> simp [value?]

/-- The error that an action fails with, if it fails. -/
def Outcome.error? {ε α : Type} : Outcome ε α → Option ε
  | .error e _ => some e
  | _ => none

/-- The reason for which an action halts, if it halts. -/
def Outcome.halt? {ε α : Type} : Outcome ε α → Option Halt
  | .halt c => some c
  | _ => none

lemma Outcome.halt?_eq_some {ε α : Type} {o : Outcome ε α} {c : Halt} :
    o.halt? = some c ↔ o = .halt c := by
  cases o <;> simp [halt?]

/-- Whether an object may be put into any cell: it is neither a free cell, which belongs to the free
list, nor a symbol, which belongs to the table of symbols. -/
def Datum.isOrdinary (d : Datum) : Bool := d.type != .free && d.type != .symbol

/-- What the sentinel for exhausted memory holds. -/
def Datum.exhausted : Datum := .error .outOfMemory "out of memory"

namespace Heap

/-! ## Collections and claims of any heap -/

lemma SameFrame.reclaim (h : Heap) (i : Nat) : SameFrame h (h.reclaim i) :=
  (SameFrame.setHeadPrevious h h.free (some i)).trans
    ⟨(SameFrame.setCell _ i _).size, rfl, rfl, rfl, rfl, rfl, rfl, rfl⟩

lemma SameFrame.claim {h k : Heap} {i : Nat} {d : Datum} (hc : h.claim i d = .ok k) :
    SameFrame h k := by
  unfold Heap.claim at hc
  split at hc
  · obtain rfl := Except.ok.inj hc
    exact (SameFrame.setHeadPrevious h _ none).trans
      ⟨(SameFrame.setCell _ i d).size, rfl, rfl, rfl, rfl, rfl, rfl, rfl⟩
  · simp at hc
  · simp at hc

lemma SameFrame.sweep (marks : Array Bool) (n freed : Nat) (h : Heap) :
    SameFrame h (sweep marks n freed h).2 := by
  induction n generalizing freed h with
  | zero => exact .refl h
  | succ n ih =>
    rw [Heap.sweep]
    split
    · exact ih ..
    · exact (SameFrame.reclaim h _).trans (ih ..)
    · exact (SameFrame.reclaim h _).trans (ih ..)

lemma SameFrame.collectKeeping {h k : Heap} {extra : List Handle} {c : Collection}
    (hc : h.collectKeeping extra = .ok (c, k)) : SameFrame h k := by
  dsimp only [Heap.collectKeeping] at hc
  split at hc
  · simp at hc
  · obtain ⟨rfl, rfl⟩ := Prod.mk.inj (Except.ok.inj hc)
    have := SameFrame.sweep (h.marking extra).marks h.capacity 0
      { h with free := none, freeCount := 0 }
    exact ⟨this.size, this.capacity, this.roots, this.rootSlots, this.symbols, this.baseEnv,
      this.currentEnv, this.audited⟩

/-- Only a free cell is ever taken into use. -/
lemma object?_of_claim {h k : Heap} {i : Nat} {d e : Datum} {v : Handle}
    (hc : h.claim i d = .ok k) (he : h.object? v = some e) : k.object? v = some e := by
  unfold claim at hc
  split at hc
  · next p n hi =>
    obtain rfl := Except.ok.inj hc
    have hne : i ≠ v.index := by
      rintro rfl
      rw [object?_eq_none_of_free hi] at he
      simp at he
    have hset : ((h.setHeadPrevious n none).setCell i d).object? v = some e := by
      rw [object?, cells_setCell, Array.getElem?_setIfInBounds_ne hne, ← object?,
        object?_setHeadPrevious, he]
    exact hset
  · simp at hc
  · simp at hc

/-- What a claim has put into the cell. -/
lemma cells_of_claim {h k : Heap} {i : Nat} {d : Datum} (hc : h.claim i d = .ok k) :
    k.cells[i]? = some d := by
  unfold claim at hc
  split at hc
  · next p n hi =>
    obtain rfl := Except.ok.inj hc
    have hs : i < h.cells.size := (Array.getElem?_eq_some_iff.mp hi).1
    have hs' : i < (h.setHeadPrevious n none).cells.size :=
      (SameFrame.setHeadPrevious h n none).size ▸ hs
    exact Array.getElem?_setIfInBounds_self_of_lt hs'
  · simp at hc
  · simp at hc

lemma object?_reclaim_ne {h : Heap} {i : Nat} {v : Handle} (hv : i ≠ v.index) :
    (h.reclaim i).object? v = h.object? v := by
  change ((h.setHeadPrevious h.free (some i)).setCell i _).object? v = _
  rw [object?, cells_setCell, Array.getElem?_setIfInBounds_ne hv, ← object?,
    object?_setHeadPrevious]

/-- Sweeping leaves the cells alone that are not collectible. -/
lemma object?_sweep_outside (marks : Array Bool) (n freed : Nat) (h : Heap) {v : Handle}
    (hv : v.index < regionStart ∨ regionStart + n ≤ v.index) :
    (sweep marks n freed h).2.object? v = h.object? v := by
  induction n generalizing freed h with
  | zero => rfl
  | succ n ih =>
    have hne : regionStart + n ≠ v.index := by omega
    have hv' : v.index < regionStart ∨ regionStart + n ≤ v.index := by omega
    rw [sweep]
    split
    · exact ih _ _ hv'
    · exact (ih _ _ hv').trans (object?_reclaim_ne hne)
    · exact (ih _ _ hv').trans (object?_reclaim_ne hne)

lemma object?_collectKeeping_outside {h k : Heap} {extra : List Handle} {c : Collection}
    (hc : h.collectKeeping extra = .ok (c, k)) {v : Handle}
    (hv : v.index < regionStart ∨ h.regionEnd ≤ v.index) : k.object? v = h.object? v := by
  dsimp only [collectKeeping] at hc
  split at hc
  · simp at hc
  · obtain ⟨rfl, rfl⟩ := Prod.mk.inj (Except.ok.inj hc)
    exact object?_sweep_outside _ _ _ { h with free := none, freeCount := 0 } hv

/-! ## Interning and permanent cells -/

lemma intern_of_some {h : Heap} {name : String} {v : Handle} (hs : h.symbols[name]? = some v) :
    h.intern name = (v, h) := by
  rw [intern, hs]

lemma intern_of_none {h : Heap} {name : String} (hn : h.symbols[name]? = none) :
    h.intern name = (⟨h.cells.size⟩, { h with
      cells := h.cells.push (.symbol name)
      symbols := h.symbols.insert name ⟨h.cells.size⟩ }) := by
  rw [intern, hn]
  rfl

/-- A permanent cell that is appended makes no difference to the cells that are there. -/
lemma object?_push {h k : Heap} {d : Datum} {v : Handle} (hv : v.index < h.cells.size)
    (hk : k.cells = h.cells.push d) : k.object? v = h.object? v := by
  rw [object?, hk, Array.getElem?_push, if_neg (Nat.ne_of_lt hv), ← object?]

/-! ## Changes -/

/-- One elementary change of a heap. -/
inductive Edit (host : Array HostProcedure) : Heap → Heap → Prop
  | collect {h k : Heap} {extra : List Handle} {c : Collection}
      (hc : h.collectKeeping extra = .ok (c, k)) : Edit host h k
  | claim {h k : Heap} {i : Nat} {d : Datum} (hd : d.isOrdinary = true) (hc : h.claim i d = .ok k) :
      Edit host h k
  | pair {h : Heap} {v a b : Handle} (hp : h.cells[v.index]? = some (.pair a b)) (a' b' : Handle) :
      Edit host h (h.setCell v.index (.pair a' b'))
  | frame {h : Heap} {v n w : Handle} {p : Option Handle}
      (hf : h.cells[v.index]? = some (.frame p n w)) (n' w' : Handle) :
      Edit host h (h.setCell v.index (.frame p n' w'))
  | append (h : Heap) {d : Datum} (hd : d.isOrdinary = true) : Edit host h (h.addPermanent d).2
  | intern {h : Heap} {name : String} (hn : h.symbols[name]? = none) :
      Edit host h (h.intern name).2
  | roots (h : Heap) (roots : Array Handle) : Edit host h { h with roots }
  | currentEnv (h : Heap) (currentEnv : Handle) : Edit host h { h with currentEnv }
  | host {h k : Heap} {p : HostProcedure} {args : Handle} (hp : p ∈ host)
      (hr : (∃ v, p args h = .ok v k) ∨ ∃ e, p args h = .error e k) : Edit host h k

/-- Any number of elementary changes. -/
abbrev Edits (host : Array HostProcedure) : Heap → Heap → Prop := Relation.ReflTransGen (Edit host)

/-- A property of heaps that every elementary change preserves is preserved by any number of
them. -/
lemma Edits.preserves {host : Array HostProcedure} {P : Heap → Prop}
    (hP : ∀ h k, Edit host h k → P h → P k) {h k : Heap} (he : Edits host h k) (hh : P h) :
    P k := by
  induction he with
  | refl => exact hh
  | tail _ h1 ih => exact hP _ _ h1 ih

/-- All procedures of the host preserve a property of heaps. -/
def HostPreserves (host : Array HostProcedure) (P : Heap → Prop) : Prop :=
  ∀ p ∈ host, ∀ args h, P h → (p args h).Leaving P

lemma HostPreserves.edit {host : Array HostProcedure} {P : Heap → Prop} (hP : HostPreserves host P)
    {h k : Heap} {p : HostProcedure} {args : Handle} (hp : p ∈ host)
    (hr : (∃ v, p args h = .ok v k) ∨ ∃ e, p args h = .error e k) (hh : P h) : P k := by
  have ho := hP p hp args h hh
  rcases hr with ⟨v, hr⟩ | ⟨e, hr⟩
  · rw [hr] at ho
    cases ho with
    | ok hk => exact hk
  · rw [hr] at ho
    cases ho with
    | error hk => exact hk

/-- Whether a heap is audited never changes. -/
lemma Edits.audited {host : Array HostProcedure} {b : Bool}
    (hP : HostPreserves host (·.audited = b)) {h k : Heap} (he : Edits host h k)
    (hh : h.audited = b) : k.audited = b := by
  refine he.preserves (P := (·.audited = b)) (fun h k h1 hh => ?_) hh
  cases h1 with
  | collect hc => exact (SameFrame.collectKeeping hc).audited.trans hh
  | claim hd hc => exact (SameFrame.claim hc).audited.trans hh
  | intern hn => rw [intern_of_none hn]; exact hh
  | host hp hr => exact hP.edit hp hr hh
  | _ => exact hh

lemma object?_setCell_of_ne {h : Heap} {v w : Handle} {d : Datum} (hne : v ≠ w) :
    (h.setCell v.index d).object? w = h.object? w := by
  rw [object?, cells_setCell,
    Array.getElem?_setIfInBounds_ne fun he => hne (congrArg Handle.mk he), ← object?]

/-- No elementary change overwrites a sentinel.  Procedures of the host may do so, unless they
preserve some property that tells them not to. -/
lemma Edit.sentinel {host : Array HostProcedure} {P : Heap → Prop} (hP : HostPreserves host P)
    {h k : Heap} (he : Edit host h k) (hh : P h) {v : Handle} {d : Datum}
    (hv : v.index < regionStart)
    (ho : h.object? v = some d) (hc : d.children = []) : k.object? v = some d ∨ P k := by
  have hne : ∀ {w : Handle} {e : Datum}, h.cells[w.index]? = some e → e.children ≠ [] → w ≠ v := by
    rintro w e hw hn rfl
    exact hn (Option.some.inj (hw.symm.trans (object?_eq_some.mp ho).1) ▸ hc)
  cases he with
  | collect hr => exact .inl ((object?_collectKeeping_outside hr (.inl hv)).trans ho)
  | claim hd hr => exact .inl (object?_of_claim hr ho)
  | pair hp => exact .inl ((object?_setCell_of_ne (hne hp (by simp [Datum.children]))).trans ho)
  | frame hf => exact .inl ((object?_setCell_of_ne (hne hf (by simp [Datum.children]))).trans ho)
  | append hd => exact .inl ((object?_push (lt_size_of_object? ho) rfl).trans ho)
  | intern hn =>
    exact .inl ((object?_push (lt_size_of_object? ho) (by rw [intern_of_none hn])).trans ho)
  | host hp hr => exact .inr (hP.edit hp hr hh)
  | _ => exact .inl ho

/-- The sentinel for exhausted memory keeps what it holds. -/
lemma Edits.exhausted {host : Array HostProcedure}
    (hP : HostPreserves host (·.object? .outOfMemory = some .exhausted)) {h k : Heap}
    (he : Edits host h k) (hh : h.object? .outOfMemory = some .exhausted) :
    k.object? .outOfMemory = some .exhausted :=
  he.preserves (P := (·.object? .outOfMemory = some .exhausted))
    (fun _ _ h1 hh => (h1.sentinel hP hh (by decide) hh rfl).elim id id) hh

/-- And so do all sentinels. -/
lemma Edits.hasSentinels {host : Array HostProcedure} (hP : HostPreserves host HasSentinels)
    {h k : Heap} (he : Edits host h k) (hh : h.HasSentinels) : k.HasSentinels := by
  refine he.preserves (fun h k h1 hh v hv => ?_) hh
  have hatom : ∀ d ∈ sentinels, d.children = [] := by decide
  obtain ⟨d, hd⟩ : ∃ d, sentinels[v.index]? = some d :=
    ⟨_, List.getElem?_eq_getElem (show v.index < sentinels.length from hv)⟩
  rcases h1.sentinel hP hh hv ((hh v hv).trans hd) (hatom d (List.mem_of_getElem? hd)) with hk | hk
  · exact hk.trans hd.symm
  · exact hk v hv

end Heap

end ArenaScheme
