/-
# How far a twin may move

What is known of the objects of a twin has to outlast the actions that run on it.  An action that
only makes objects *keeps* all that could be reached before.  An action that evaluates expressions
may let go of objects that could be reached before.  What *lasts* is what the older root slots hold,
the expressions that are being evaluated, and the drafts in those slots.  If the root stack is as
deep afterwards as it was before, the twin *evolves*.

Each of these relations holds of nothing having happened, and is transitive, so that it carries over
from single actions to sequences of them.
-/
import ArenaScheme.Proofs.Twin.Change

namespace ArenaScheme

/-- The parts of what the root slots in `A` hold: what their heads and tails lead to. -/
inductive Heap.Part (h : Heap) (A : Nat → Prop) : Handle → Prop
  | slot {i : Nat} {v : Handle} (hi : A i) (hv : h.roots[i]? = some v) : Part h A v
  | car {u x c : Handle} (hu : Part h A u) (hp : h.pairAt u = some (x, c)) : Part h A x
  | cdr {u x c : Handle} (hu : Part h A u) (hp : h.pairAt u = some (x, c)) : Part h A c

namespace Heap

/-- The type of the object in a cell. -/
def typeAt (h : Heap) (v : Handle) : Option DatumType := (h.object? v).map Datum.type

variable {h k : Heap} {A B : Nat → Prop} {v u x c : Handle}

lemma Reachable.car {extra : List Handle} (hu : h.Reachable extra u)
    (hp : h.pairAt u = some (x, c)) : h.Reachable extra x :=
  .child hu (pairAt_eq_some.mp hp) (by simp [Datum.children])

lemma Reachable.cdr {extra : List Handle} (hu : h.Reachable extra u)
    (hp : h.pairAt u = some (x, c)) : h.Reachable extra c :=
  .child hu (pairAt_eq_some.mp hp) (by simp [Datum.children])

lemma Part.reachable (hv : h.Part A v) : h.Reachable [] v := by
  induction hv with
  | slot _ hv => exact .of_slot hv
  | car _ hp ih => exact ih.car hp
  | cdr _ hp ih => exact ih.cdr hp

/-- Parts remain parts as long as the slots and the pairs among the parts stay as they are. -/
lemma Part.congr (hA : ∀ i, A i → B i) (hr : ∀ i w, A i → h.roots[i]? = some w →
    k.roots[i]? = some w) (hp : ∀ w, h.Part A w → k.pairAt w = h.pairAt w) (hv : h.Part A v) :
    k.Part B v := by
  induction hv with
  | slot hi hv => exact .slot (hA _ hi) (hr _ _ hi hv)
  | car hu hq ih => exact .car ih ((hp _ hu).trans hq)
  | cdr hu hq ih => exact .cdr ih ((hp _ hu).trans hq)

end Heap

namespace Twin

open Heap

variable {W : Regime} {σ τ υ : Twin} {r : Role} {a b a' b' : Handle} {d d' e e' : Datum}
  {m n : Nat} {A B : Nat → Prop}

/-! ## Keeping all that can be reached -/

/-- All that could be reached is there as before. -/
structure Keeps (σ τ : Twin) : Prop where
  roots : τ.left.roots = σ.left.roots
  roots' : τ.right.roots = σ.right.roots
  current : τ.left.currentEnv = σ.left.currentEnv
  base : τ.left.baseEnv = σ.left.baseEnv
  capacity : τ.left.capacity = σ.left.capacity
  size : σ.left.cells.size ≤ τ.left.cells.size
  rel : ∀ {r a b}, σ.left.Reachable [] a → σ.rel r a b → τ.rel r a b
  object : ∀ {a}, σ.left.Reachable [] a → τ.left.object? a = σ.left.object? a

lemma Keeps.refl (σ : Twin) : Keeps σ σ :=
  ⟨rfl, rfl, rfl, rfl, rfl, Nat.le_refl _, fun _ h => h, fun _ => rfl⟩

lemma Keeps.anchored (hk : Keeps σ τ) (ha : σ.left.Anchored [] a) : τ.left.Anchored [] a := by
  cases ha with
  | sentinel hi => exact .sentinel hi
  | permanent hr hs =>
    refine .permanent ?_ (Nat.lt_of_lt_of_le hs hk.size)
    rwa [regionEnd, hk.capacity]
  | root hm => exact .root (hk.roots ▸ hm)
  | base => exact hk.base ▸ .base
  | current => exact hk.current ▸ .current
  | extra hm => simp at hm

lemma Keeps.reachable (hk : Keeps σ τ) (ha : σ.left.Reachable [] a) : τ.left.Reachable [] a := by
  induction ha with
  | anchor ha => exact .anchor (hk.anchored ha)
  | child hu hd hm ih => exact .child ih ((hk.object hu).trans hd) hm

lemma Keeps.trans (h : Keeps σ τ) (k : Keeps τ υ) : Keeps σ υ where
  roots := k.roots.trans h.roots
  roots' := k.roots'.trans h.roots'
  current := k.current.trans h.current
  base := k.base.trans h.base
  capacity := k.capacity.trans h.capacity
  size := h.size.trans k.size
  rel ha hr := k.rel (h.reachable ha) (h.rel ha hr)
  object ha := (k.object (h.reachable ha)).trans (h.object ha)

lemma Keeps.pairAt (hk : Keeps σ τ) (ha : σ.left.Reachable [] a) :
    τ.left.pairAt a = σ.left.pairAt a := by
  rw [Heap.pairAt, hk.object ha, Heap.pairAt]

/-- A way in which a twin may move, at least as far as one that keeps everything. -/
class Motion (R : Twin → Twin → Prop) : Prop where
  keeps : ∀ {σ τ}, Keeps σ τ → R σ τ
  trans : ∀ {σ τ υ}, R σ τ → R τ υ → R σ υ

lemma Motion.refl (R : Twin → Twin → Prop) [Motion R] (σ : Twin) : R σ σ :=
  Motion.keeps (Keeps.refl σ)

instance : Motion Keeps := ⟨id, Keeps.trans⟩

/-! ## Lasting -/

/-- What stays in any case: the permanent cells, what the slots below `m` hold together with their
drafts, and the parts of what the slots in `A` hold, which are expressions under evaluation. -/
inductive Pinned (σ : Twin) (m : Nat) (A : Nat → Prop) : Handle → Prop
  | permanent {v : Handle} (hs : v.index < σ.left.cells.size)
      (hc : ¬ σ.left.Collectible v.index) : Pinned σ m A v
  | slot {i : Nat} {v : Handle} (hi : i < m) (hv : σ.left.roots[i]? = some v) : Pinned σ m A v
  | part {v : Handle} (hv : σ.left.Part A v) : Pinned σ m A v
  | car {k : Nat} {u u' x c : Handle} (hk : k < m) (hu : Pinned σ m A u)
      (hr : σ.rel (.draft k) u u') (hp : σ.left.pairAt u = some (x, c)) : Pinned σ m A x
  | cdr {k : Nat} {u u' x c : Handle} (hk : k < m) (hu : Pinned σ m A u)
      (hr : σ.rel (.draft k) u u') (hp : σ.left.pairAt u = some (x, c)) : Pinned σ m A c

lemma Pinned.reachable (ha : σ.Pinned m A a) : σ.left.Reachable [] a := by
  induction ha with
  | permanent hs hc => exact .of_not_collectible hs hc
  | slot _ hv => exact .of_slot hv
  | part hv => exact hv.reachable
  | car _ _ _ hp ih => exact ih.car hp
  | cdr _ _ _ hp ih => exact ih.cdr hp

/-- The slots below `m` and those in `A` are unchanged; what they hold is there as before, and so
are the parts of the expressions in `A` and the drafts in slots below `m`. -/
structure Lasts (m : Nat) (A : Nat → Prop) (σ τ : Twin) : Prop where
  roots : ∀ i, i < m ∨ A i → τ.left.roots[i]? = σ.left.roots[i]?
  roots' : ∀ i, i < m ∨ A i → τ.right.roots[i]? = σ.right.roots[i]?
  capacity : τ.left.capacity = σ.left.capacity
  size : σ.left.cells.size ≤ τ.left.cells.size
  rel : ∀ {r a b}, σ.Pinned m A a → (∀ k, r = .draft k → k < m) → σ.rel r a b → τ.rel r a b
  type : ∀ {a}, σ.Pinned m A a → τ.left.typeAt a = σ.left.typeAt a
  part : ∀ {a}, σ.left.Part A a → τ.left.pairAt a = σ.left.pairAt a
  draft : ∀ {k a b}, k < m → σ.Pinned m A a → σ.rel (.draft k) a b →
    τ.left.pairAt a = σ.left.pairAt a

lemma Lasts.part_of (hl : Lasts m A σ τ) (ha : σ.left.Part A a) : τ.left.Part A a :=
  ha.congr (fun _ h => h) (fun _ _ hi hv => (hl.roots _ (.inr hi)).trans hv) fun _ => hl.part

/-- No part is added either. -/
lemma Lasts.part_iff (hl : Lasts m A σ τ) : τ.left.Part A a ↔ σ.left.Part A a := by
  refine ⟨fun ha => ?_, hl.part_of⟩
  induction ha with
  | slot hi hv => exact .slot hi ((hl.roots _ (.inr hi)).symm.trans hv)
  | car _ hp ih => exact ih.car ((hl.part ih).symm.trans hp)
  | cdr _ hp ih => exact ih.cdr ((hl.part ih).symm.trans hp)

lemma Lasts.collectible (hl : Lasts m A σ τ) {i : Nat} :
    τ.left.Collectible i ↔ σ.left.Collectible i := by
  rw [Heap.Collectible, regionEnd, hl.capacity, Heap.Collectible, regionEnd]

lemma Lasts.pinned (hl : Lasts m A σ τ) (ha : σ.Pinned m A a) : τ.Pinned m A a := by
  have hlt : ∀ {k : Nat}, k < m → ∀ j, Role.draft k = .draft j → j < m := by
    rintro k hk j ⟨⟩
    exact hk
  induction ha with
  | permanent hs hc => exact .permanent (Nat.lt_of_lt_of_le hs hl.size) (mt hl.collectible.mp hc)
  | slot hi hv => exact .slot hi ((hl.roots _ (.inl hi)).trans hv)
  | part hv => exact .part (hl.part_of hv)
  | car hk hu hr hp ih => exact .car hk ih (hl.rel hu (hlt hk) hr) ((hl.draft hk hu hr).trans hp)
  | cdr hk hu hr hp ih => exact .cdr hk ih (hl.rel hu (hlt hk) hr) ((hl.draft hk hu hr).trans hp)

lemma Keeps.lasts (hk : Keeps σ τ) (m : Nat) (A : Nat → Prop) : Lasts m A σ τ where
  roots i _ := by rw [hk.roots]
  roots' i _ := by rw [hk.roots']
  capacity := hk.capacity
  size := hk.size
  rel ha _ := hk.rel ha.reachable
  type ha := by rw [typeAt, hk.object ha.reachable, typeAt]
  part ha := hk.pairAt ha.reachable
  draft _ ha _ := hk.pairAt ha.reachable

lemma Lasts.trans (h : Lasts m A σ τ) (k : Lasts m A τ υ) : Lasts m A σ υ where
  roots i hi := (k.roots i hi).trans (h.roots i hi)
  roots' i hi := (k.roots' i hi).trans (h.roots' i hi)
  capacity := k.capacity.trans h.capacity
  size := h.size.trans k.size
  rel ha hd hr := k.rel (h.pinned ha) hd (h.rel ha hd hr)
  type ha := (k.type (h.pinned ha)).trans (h.type ha)
  part ha := (k.part (h.part_of ha)).trans (h.part ha)
  draft {j _ _} hj ha hr :=
    (k.draft hj (h.pinned ha) (h.rel ha (by rintro _ ⟨⟩; exact hj) hr)).trans
    (h.draft hj ha hr)

instance : Motion (Lasts m A) := ⟨fun hk => hk.lasts m A, Lasts.trans⟩

lemma Pinned.mono (hm : m ≤ n) (hB : ∀ i, A i → B i) (ha : σ.Pinned m A a) : σ.Pinned n B a := by
  induction ha with
  | permanent hs hc => exact .permanent hs hc
  | slot hi hv => exact .slot (Nat.lt_of_lt_of_le hi hm) hv
  | part hv => exact .part (hv.congr hB (fun _ _ _ h => h) fun _ _ => rfl)
  | car hk _ hr hp ih => exact .car (Nat.lt_of_lt_of_le hk hm) ih hr hp
  | cdr hk _ hr hp ih => exact .cdr (Nat.lt_of_lt_of_le hk hm) ih hr hp

lemma Lasts.mono (hl : Lasts n B σ τ) (hm : m ≤ n) (hB : ∀ i, A i → B i) : Lasts m A σ τ where
  roots i hi := hl.roots i (hi.imp (Nat.lt_of_lt_of_le · hm) (hB i))
  roots' i hi := hl.roots' i (hi.imp (Nat.lt_of_lt_of_le · hm) (hB i))
  capacity := hl.capacity
  size := hl.size
  rel ha hd := hl.rel (ha.mono hm hB) fun k hk => Nat.lt_of_lt_of_le (hd k hk) hm
  type ha := hl.type (ha.mono hm hB)
  part ha := hl.part (ha.congr hB (fun _ _ _ h => h) fun _ _ => rfl)
  draft hk ha := hl.draft (Nat.lt_of_lt_of_le hk hm) (ha.mono hm hB)

/-- The twin has moved, but its root stack is as deep as before. -/
structure Evolves (m : Nat) (A : Nat → Prop) (σ τ : Twin) : Prop extends Lasts m A σ τ where
  depth : τ.left.roots.size = σ.left.roots.size

instance : Motion (Evolves m A) :=
  ⟨fun hk => ⟨hk.lasts m A, by rw [hk.roots]⟩, fun h k => ⟨h.1.trans k.1, k.depth.trans h.depth⟩⟩

lemma Evolves.mono (he : Evolves n B σ τ) (hm : m ≤ n) (hB : ∀ i, A i → B i) : Evolves m A σ τ :=
  ⟨he.1.mono hm hB, he.depth⟩

/-! ## Elementary changes as motions -/

/-- Changes that leave the objects of the left heap alone. -/
lemma Lasts.of_cells (hr : ∀ i, i < m ∨ A i → τ.left.roots[i]? = σ.left.roots[i]?)
    (hr' : ∀ i, i < m ∨ A i → τ.right.roots[i]? = σ.right.roots[i]?)
    (hc : τ.left.capacity = σ.left.capacity) (ho : τ.left.cells = σ.left.cells)
    (hrel : ∀ {r a b}, (∀ k, r = .draft k → k < m) → σ.rel r a b → τ.rel r a b) :
    Lasts m A σ τ := by
  have hobj : ∀ a, τ.left.object? a = σ.left.object? a := fun a => by rw [object?, ho, object?]
  have hpair : ∀ a, τ.left.pairAt a = σ.left.pairAt a := fun a => by
    rw [Heap.pairAt, hobj, Heap.pairAt]
  exact ⟨hr, hr', hc, Nat.le_of_eq (by rw [ho]), fun _ => hrel,
    fun {a} _ => by rw [typeAt, hobj, typeAt], fun _ => hpair _, fun _ _ _ => hpair _⟩

lemma getElem?_push_of_lt {xs : Array Handle} {i : Nat} (hi : i < xs.size) (v : Handle) :
    (xs.push v)[i]? = xs[i]? := by
  rw [Array.getElem?_push, if_neg (Nat.ne_of_lt hi)]

lemma getElem?_pop_of_lt {xs : Array Handle} {i : Nat} (hi : i + 1 < xs.size) :
    xs.pop[i]? = xs[i]? := by
  rw [Array.getElem?_pop, if_pos (by omega)]

lemma lasts_push (hd : σ.right.roots.size = σ.left.roots.size) (hm : m ≤ σ.left.roots.size)
    (hA : ∀ i, A i → i < σ.left.roots.size) (v v' : Handle) : Lasts m A σ (σ.push v v') := by
  have hlt : ∀ i, i < m ∨ A i → i < σ.left.roots.size := fun i hi =>
    hi.elim (Nat.lt_of_lt_of_le · hm) (hA i)
  exact .of_cells (fun i hi => getElem?_push_of_lt (hlt i hi) v)
    (fun i hi => getElem?_push_of_lt (hd ▸ hlt i hi) v') rfl rfl fun _ h => h

lemma lasts_pop (hd : σ.right.roots.size = σ.left.roots.size) (hm : m + 1 ≤ σ.left.roots.size)
    (hA : ∀ i, A i → i + 1 < σ.left.roots.size) : Lasts m A σ σ.pop := by
  have hlt : ∀ i, i < m ∨ A i → i + 1 < σ.left.roots.size := fun i hi =>
    hi.elim (fun h => by omega) (hA i)
  exact .of_cells (fun i hi => getElem?_pop_of_lt (hlt i hi))
    (fun i hi => getElem?_pop_of_lt (hd ▸ hlt i hi)) rfl rfl fun _ h => h

/-- What has happened while an object was held in a slot of its own. -/
lemma Evolves.of_push (hv : σ.Valid W) (hvt : τ.Valid W) (hm : m ≤ σ.left.roots.size)
    (hA : ∀ i, A i → i < σ.left.roots.size) {v v' : Handle} (he : Evolves m A (σ.push v v') τ) :
    Evolves m A σ τ.pop := by
  have hs : τ.left.roots.size = σ.left.roots.size + 1 := he.depth.trans (Array.size_push _)
  refine ⟨((lasts_push hv.depth hm hA v v').trans he.1).trans
    (lasts_pop hvt.depth (by omega) fun i hi => by have := hA i hi; omega), ?_⟩
  change τ.left.roots.pop.size = _
  rw [Array.size_pop, hs, Nat.add_sub_cancel]

lemma Keeps.of_push {v v' : Handle} (hk : Keeps (σ.push v v') τ) : Keeps σ τ.pop := by
  have hanch : ∀ {a}, σ.left.Anchored [] a → (σ.push v v').left.Anchored [] a := by
    intro a ha
    cases ha with
    | sentinel hi => exact .sentinel hi
    | permanent hr hs => exact .permanent hr hs
    | root hm => exact .root (by
        change _ ∈ (σ.left.roots.push v).toList
        rw [Array.toList_push]
        exact List.mem_append_left _ hm)
    | base => exact .base
    | current => exact .current
    | extra hm => simp at hm
  have hreach : ∀ {a}, σ.left.Reachable [] a → (σ.push v v').left.Reachable [] a := by
    intro a ha
    induction ha with
    | anchor ha => exact .anchor (hanch ha)
    | child _ hd hm ih => exact .child ih hd hm
  refine ⟨?_, ?_, hk.current, hk.base, hk.capacity, hk.size, fun ha => hk.rel (hreach ha),
    fun ha => hk.object (hreach ha)⟩
  · change τ.left.roots.pop = _
    rw [hk.roots]
    exact Array.pop_push
  · change τ.right.roots.pop = _
    rw [hk.roots']
    exact Array.pop_push

lemma evolves_put (hm : m ≤ n) (hA : ¬ A n) (v v' : Handle) : Evolves m A σ (σ.put n v v') := by
  have hne : ∀ i, i < m ∨ A i → n ≠ i := by
    rintro i (hi | hi) rfl
    · omega
    · exact hA hi
  refine ⟨.of_cells (fun i hi => ?_) (fun i hi => ?_) rfl rfl fun _ h => h,
    Array.size_setIfInBounds⟩
  · exact Array.getElem?_setIfInBounds_ne (hne i hi)
  · exact Array.getElem?_setIfInBounds_ne (hne i hi)

lemma evolves_switch (env env' : Handle) : Evolves m A σ (σ.switch env env') :=
  ⟨.of_cells (fun _ _ => rfl) (fun _ _ => rfl) rfl rfl fun _ h => h, rfl⟩

lemma evolves_settle (hm : m ≤ n) (r : Role) : Evolves m A σ (σ.settle n r) := by
  refine ⟨.of_cells (fun _ _ => rfl) (fun _ _ => rfl) rfl rfl fun hd h => settle_of_ne ?_ h, rfl⟩
  rintro rfl
  have := hd n rfl
  omega

lemma Replaces.type_eq (hr : Replaces W σ r d d' e e') : e.type = d.type := by
  cases hr <;> rfl

/-- Overwriting what is neither part of an expression under evaluation nor of an older draft. -/
lemma evolves_write (ha : σ.left.object? a = some d) (hab : σ.rel r a b)
    (hfree : e.isFree = false) (hrep : Replaces W σ r d d' e e') (hv : σ.Valid W)
    (hpart : σ.left.Part A a → e.pair? = d.pair?) (hdraft : ∀ k, r = .draft k → m ≤ k) :
    Evolves m A σ (σ.write a b e e') := by
  have hol := object?_write_left (b := b) (f := e') ha hfree
  have hne : ∀ {u}, u ≠ a → (σ.write a b e e').left.pairAt u = σ.left.pairAt u := fun hu => by
    rw [Heap.pairAt, hol, if_neg hu, Heap.pairAt]
  refine ⟨⟨fun _ _ => rfl, fun _ _ => rfl, rfl, ?_, fun _ _ h => h, fun {u} _ => ?_,
    fun {u} hu => ?_, fun {k u w} hk _ hr => ?_⟩, rfl⟩
  · exact Nat.le_of_eq (SameFrame.setCell σ.left a.index e).size.symm
  · rw [typeAt, hol, typeAt]
    split
    · next hu => rw [hu, ha, Option.map_some, Option.map_some, hrep.type_eq]
    · rfl
  · by_cases hua : u = a
    · subst hua
      rw [Heap.pairAt, hol, if_pos rfl, Heap.pairAt, ha]
      exact hpart hu
    · exact hne hua
  · refine hne ?_
    rintro rfl
    obtain ⟨rfl, -⟩ := hv.functional hab hr
    have := hdraft k rfl
    omega

/-! ## What is held on to -/

/-- Corresponding objects that can be reached. -/
def Holds (σ : Twin) (r : Role) (a b : Handle) : Prop := σ.rel r a b ∧ σ.left.Reachable [] a

/-- Corresponding parts of expressions under evaluation. -/
def Sees (σ : Twin) (A : Nat → Prop) (a b : Handle) : Prop := σ.rel .shown a b ∧ σ.left.Part A a

/-- Corresponding permanent objects. -/
def Lasting (σ : Twin) (a b : Handle) : Prop :=
  σ.rel .shown a b ∧ a.index < σ.left.cells.size ∧ ¬ σ.left.Collectible a.index

lemma Keeps.holds (hk : Keeps σ τ) (ha : σ.Holds r a b) : τ.Holds r a b :=
  ⟨hk.rel ha.2 ha.1, hk.reachable ha.2⟩

lemma Lasts.sees (hl : Lasts m A σ τ) (ha : σ.Sees A a b) : τ.Sees A a b :=
  ⟨hl.rel (.part ha.2) (by simp) ha.1, hl.part_of ha.2⟩

lemma Lasts.lasting (hl : Lasts m A σ τ) (ha : σ.Lasting a b) : τ.Lasting a b :=
  ⟨hl.rel (.permanent ha.2.1 ha.2.2) (by simp) ha.1, Nat.lt_of_lt_of_le ha.2.1 hl.size,
    mt hl.collectible.mp ha.2.2⟩

lemma Sees.holds (ha : σ.Sees A a b) : σ.Holds .shown a b := ⟨ha.1, ha.2.reachable⟩

lemma Sees.pair (hv : σ.Valid W) (ha : σ.Sees A a b) {x c x' c' : Handle}
    (hp : σ.left.pairAt a = some (x, c)) (hp' : σ.right.pairAt b = some (x', c')) :
    σ.Sees A x x' ∧ σ.Sees A c c' :=
  have h := hv.shown_pair ha.1 hp hp'
  ⟨⟨h.1, .car ha.2 hp⟩, ⟨h.2, .cdr ha.2 hp⟩⟩

/-- A slot is occupied by corresponding objects of a role. -/
def At (σ : Twin) (n : Nat) (r : Role) : Prop :=
  ∃ a b, σ.left.roots[n]? = some a ∧ σ.right.roots[n]? = some b ∧ σ.rel r a b

/-- The slots in `A` are occupied by shown objects. -/
def Active (σ : Twin) (A : Nat → Prop) : Prop := ∀ i, A i → σ.At i .shown

/-- The slots in `A` and one more. -/
def also (A : Nat → Prop) (n : Nat) : Nat → Prop := fun i => A i ∨ i = n

lemma Active.lt (hA : σ.Active A) {i : Nat} (hi : A i) : i < σ.left.roots.size := by
  obtain ⟨a, -, ha, -, -⟩ := hA i hi
  exact (Array.getElem?_eq_some_iff.mp ha).1

lemma Lasts.active (hl : Lasts m A σ τ) (hA : σ.Active A) : τ.Active A := by
  intro i hi
  obtain ⟨a, b, ha, hb, hr⟩ := hA i hi
  exact ⟨a, b, (hl.roots i (.inr hi)).trans ha, (hl.roots' i (.inr hi)).trans hb,
    hl.rel (.part (.slot hi ha)) (by simp) hr⟩

/-- Parts of shown objects are shown. -/
lemma Active.shown (hv : σ.Valid W) (hA : σ.Active A) (ha : σ.left.Part A a) :
    ∃ b, σ.rel .shown a b := by
  induction ha with
  | slot hi hu =>
    obtain ⟨a, b, ha, -, hr⟩ := hA _ hi
    obtain rfl := Option.some.inj (ha.symm.trans hu)
    exact ⟨b, hr⟩
  | car _ hp ih =>
    obtain ⟨b, hb⟩ := ih
    obtain ⟨x', c', hp', -⟩ := hv.pairAt_right hb hp
    exact ⟨x', (hv.shown_pair hb hp hp').1⟩
  | cdr _ hp ih =>
    obtain ⟨b, hb⟩ := ih
    obtain ⟨x', c', hp', -⟩ := hv.pairAt_right hb hp
    exact ⟨c', (hv.shown_pair hb hp hp').2⟩

lemma Active.not_part (hv : σ.Valid W) (hA : σ.Active A) (hab : σ.rel r a b) (hr : r ≠ .shown) :
    ¬ σ.left.Part A a := fun ha => by
  obtain ⟨b', hb'⟩ := hA.shown hv ha
  exact hr (hv.functional hab hb').1

lemma Sees.push (hA : σ.Active A) (ha : σ.Sees A a b) (v v' : Handle) : (σ.push v v').Sees A a b :=
  ⟨ha.1, ha.2.congr (fun _ h => h) (fun _ _ hi hv => (getElem?_push_of_lt (hA.lt hi) v).trans hv)
    fun _ _ => rfl⟩

lemma at_push (hv : σ.Valid W) {v v' : Handle} (hr : σ.rel r v v') :
    (σ.push v v').At σ.left.roots.size r :=
  ⟨v, v', Array.getElem?_push_size, hv.depth ▸ Array.getElem?_push_size, hr⟩

lemma at_put (hv : σ.Valid W) (hn : n < σ.left.roots.size) {v v' : Handle} (hr : σ.rel r v v') :
    (σ.put n v v').At n r :=
  ⟨v, v', Array.getElem?_setIfInBounds_self_of_lt hn,
    Array.getElem?_setIfInBounds_self_of_lt (hv.depth ▸ hn), hr⟩

lemma At.lt (ha : σ.At n r) : n < σ.left.roots.size := by
  obtain ⟨a, -, ha, -, -⟩ := ha
  exact (Array.getElem?_eq_some_iff.mp ha).1

lemma Keeps.at (hk : Keeps σ τ) (ha : σ.At n r) : τ.At n r := by
  obtain ⟨a, b, h1, h2, hr⟩ := ha
  exact ⟨a, b, by rw [hk.roots, h1], by rw [hk.roots', h2], hk.rel (.of_slot h1) hr⟩

lemma Active.also (hA : σ.Active A) (hn : σ.At n .shown) : σ.Active (also A n) := by
  rintro i (hi | rfl)
  · exact hA i hi
  · exact hn

lemma Sees.also (ha : σ.Sees A a b) (n : Nat) : σ.Sees (also A n) a b :=
  ⟨ha.1, ha.2.congr (fun _ => .inl) (fun _ _ _ h => h) fun _ _ => rfl⟩

end Twin

end ArenaScheme
