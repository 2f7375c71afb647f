/-
# Safe actions

An action is safe on a heap if it keeps the invariant, gives away open objects only, be it as its
value or as its error, and leaves the drafts of others alone.  The rules below follow the
combinators that actions are put together with.

Everything is said under the condition that no collection has been run by the end of the action; and
if there has been one before the action, then there has been one by its end.  So the rules speak of
actions on any heap.  An action that halts is safe too, but the fault that stands for a stop on
purpose has to be accounted for: `R` is what is known when it occurs.
-/
import ArenaScheme.Proofs.Seclusion.Changes

namespace ArenaScheme

open Heap

/-- The invariant holds unless there has been a collection. -/
def Veil.Seals (V : Veil) (h : Heap) : Prop := h.Unswept → h.Sealed V

/-- An object is open unless there has been a collection. -/
def Veil.Shows (V : Veil) (h : Heap) (v : Handle) : Prop := h.Unswept → h.Open V.cells v

/-- A root slot may be read. -/
def Veil.Bares (V : Veil) (h : Heap) (root : Root) : Prop := h.Unswept → root.slot ∉ V.slots

/-- The same veil, and a root slot that is kept to itself. -/
def Veil.hide (V : Veil) (slot : Nat) : Veil := ⟨V.cells, insert slot V.slots⟩

/-- The same veil, and the pairs of an unfinished list. -/
def Veil.draft (V : Veil) (l : List Handle) : Veil := ⟨V.cells ∪ {c | c ∈ l}, V.slots⟩

/-- One veil covers another one. -/
instance : LE Veil := ⟨fun V W => V.cells ⊆ W.cells ∧ V.slots ⊆ W.slots⟩

lemma Veil.le_draft (V : Veil) (l : List Handle) : V ≤ V.draft l :=
  ⟨Set.subset_union_left, subset_rfl⟩

lemma Veil.le_hide (V : Veil) (n : Nat) : V ≤ V.hide n := ⟨subset_rfl, Set.subset_insert _ _⟩

/-- The heap `k` under `W` has come from `h` under `V`, and what is under the veil `U` is as it
was. -/
structure Advance (U V : Veil) (h : Heap) (W : Veil) (k : Heap) : Prop where
  unswept : k.Unswept → h.Unswept
  seals : W.Seals k
  opens : k.Unswept → ∀ v, h.Open V.cells v → k.Open W.cells v
  frames : k.Unswept → ∀ f, h.IsFrame f → k.IsFrame f
  fixed : k.Unswept → ∀ c ∈ U.cells, k.object? c = h.object? c
  held : k.Unswept → ∀ i ∈ U.slots, k.roots[i]? = h.roots[i]?

/-- The heap `k` has come from `h` under the same veil, and what is under it is as it was. -/
abbrev Veil.Keeps (V : Veil) (h k : Heap) : Prop := Advance V V h V k

variable {C : Set Handle} {U V W X : Veil} {h k l : Heap} {a b c f v : Handle} {d : Datum}

namespace Advance

lemma refl (hs : V.Seals h) : Advance U V h V h :=
  ⟨id, hs, fun _ _ => id, fun _ _ => id, fun _ _ _ => rfl, fun _ _ _ => rfl⟩

lemma trans (hk : Advance U V h W k) (hl : Advance U W k X l) : Advance U V h X l where
  unswept hu := hk.unswept (hl.unswept hu)
  seals := hl.seals
  opens hu v hv := hl.opens hu v (hk.opens (hl.unswept hu) v hv)
  frames hu f hf := hl.frames hu f (hk.frames (hl.unswept hu) f hf)
  fixed hu c hc := (hl.fixed hu c hc).trans (hk.fixed (hl.unswept hu) c hc)
  held hu i hi := (hl.held hu i hi).trans (hk.held (hl.unswept hu) i hi)

lemma mono {U' : Veil} (hk : Advance U V h W k) (hU : U' ≤ U) : Advance U' V h W k :=
  { hk with
    fixed := fun hu c hc => hk.fixed hu c (hU.1 hc)
    held := fun hu i hi => hk.held hu i (hU.2 hi) }

lemma shows (hk : Advance U V h W k) (hv : V.Shows h v) : W.Shows k v := fun hu =>
  hk.opens hu v (hv (hk.unswept hu))

lemma bares {root : Root} (hk : Advance U V h V k) (hr : V.Bares h root) : V.Bares k root :=
  fun hu => hr (hk.unswept hu)

/-- A heap with a collection behind it. -/
lemma of_swept (hk : ¬ k.Unswept) : Advance U V h W k :=
  ⟨fun hu => absurd hu hk, fun hu => absurd hu hk, fun hu => absurd hu hk, fun hu => absurd hu hk,
    fun hu => absurd hu hk, fun hu => absurd hu hk⟩

lemma of_decent (hs : V.Seals h) (hc : k.collections = h.collections)
    (hd : h.Sealed V → Decent V W h v d k) (hv : h.Sealed V → v ∉ U.cells) : Advance U V h W k := by
  have hu : k.Unswept → h.Unswept := fun hk => hc.symm.trans hk
  refine ⟨hu, fun hk => (hd (hs (hu hk))).preserves (hs (hu hk)), fun hk u ho =>
    (hd (hs (hu hk))).open_of_open ho, fun hk f hf => (hd (hs (hu hk))).frame hf,
    fun hk c hc => ?_, fun hk i _ => ?_⟩
  · have hne : c ≠ v := by
      rintro rfl
      exact hv (hs (hu hk)) hc
    exact (hd (hs (hu hk))).rewritten.other hne
  · rw [(hd (hs (hu hk))).rewritten.roots]

/-- Taking the veil off some of the drafts. -/
lemma unveil (hs : V.Seals h) (hc : W.cells ⊆ V.cells) (hslots : W.slots = V.slots) :
    Advance U V h W h where
  unswept := id
  seals hu := (hs hu).unveil hc hslots.symm.subset fun i hi => (hs hu).held i (hslots ▸ hi)
  opens _ _ hv := hv.mono hc
  frames _ _ hf := hf
  fixed _ _ _ := rfl
  held _ _ _ := rfl

end Advance

/-! ## What is open stays open -/

/-- What of a value may be given away to the program. -/
class Exhibit (α : Type) where
  shown : Veil → Heap → α → Prop
  mono : ∀ {U V W : Veil} {h k : Heap} {a : α}, Advance U V h W k → shown V h a →
    shown W k a

instance : Exhibit Handle := ⟨Veil.Shows, Advance.shows⟩

/-- Values without handles. -/
instance : Exhibit Unit := ⟨fun _ _ _ => True, fun _ => id⟩

instance : Exhibit Bool := ⟨fun _ _ _ => True, fun _ => id⟩

instance : Exhibit Num := ⟨fun _ _ _ => True, fun _ => id⟩

instance : Exhibit String := ⟨fun _ _ _ => True, fun _ => id⟩

instance : Exhibit Failure := ⟨fun _ _ _ => True, fun _ => id⟩

instance : Exhibit ReadFailure := ⟨fun _ _ _ => True, fun _ => id⟩

instance : Exhibit Collection := ⟨fun _ _ _ => True, fun _ => id⟩

variable {ε ε' α β : Type} [Exhibit ε] [Exhibit ε'] [Exhibit α] [Exhibit β]

instance : Exhibit (Option α) where
  shown V h o := ∀ a ∈ o, Exhibit.shown V h a
  mono hk ho a ha := Exhibit.mono hk (ho a ha)

instance : Exhibit (List α) where
  shown V h l := ∀ a ∈ l, Exhibit.shown V h a
  mono hk hl a ha := Exhibit.mono hk (hl a ha)

instance : Exhibit (α × β) where
  shown V h p := Exhibit.shown V h p.1 ∧ Exhibit.shown V h p.2
  mono hk hp := ⟨Exhibit.mono hk hp.1, Exhibit.mono hk hp.2⟩

/-- A step goes on with what it gives away. -/
instance : Exhibit Step where
  shown V h
    | .done v | .eval v | .body v => V.Shows h v
  mono {_ _ _ _ _ step} hk hs := by
    cases step <;> exact hk.shows hs

/-! ## Changes beside the cells -/

namespace Heap

lemma Spine.of_cells {s : List Handle} (hc : k.cells = h.cells) (hs : h.Spine s v) : k.Spine s v :=
  hs.congr fun _ _ a _ hp => ⟨a, by rw [object?, hc]; exact hp⟩

lemma Binds.of_cells (hc : k.cells = h.cells) (hb : h.Binds f c) : k.Binds f c := by
  obtain ⟨p, n, w, s, hf, hs, hm⟩ := hb
  exact ⟨p, n, w, s, by rw [object?, hc]; exact hf, hs.of_cells hc, hm⟩

lemma Hidden.of_cells (hc : k.cells = h.cells) (hv : h.Hidden C v) : k.Hidden C v := by
  induction hv with
  | draft hm => exact .draft hm
  | binding hb => exact .binding (hb.of_cells hc)
  | tail hp _ ih => exact .tail (by rw [object?, hc]; exact hp) ih

lemma Open.of_cells (hc : k.cells = h.cells) (hv : h.Open C v) : k.Open C v :=
  ⟨by rw [object?, hc]; exact hv.live, fun hh => hv.not_hidden (hh.of_cells hc.symm)⟩

lemma Chained.of_cells (hc : k.cells = h.cells) (hb : k.baseEnv = h.baseEnv) (hf : h.Chained f) :
    k.Chained f := by
  induction hf with
  | base hf =>
    rw [← hb]
    exact .base (by rw [object?, hc, hb]; exact hf)
  | child hf _ ih => exact .child (by rw [object?, hc]; exact hf) ih

/-- Other roots, another current frame and other symbols. -/
lemma Sealed.reframe (hs : h.Sealed V) (hc : k.cells = h.cells) (hb : k.baseEnv = h.baseEnv)
    (hcur : h.IsFrame k.currentEnv)
    (htable : ∀ (name : String) (v : Handle), k.symbols[name]? = some v →
      ∃ n, h.object? v = some (.symbol n))
    (hW : W.cells = V.cells)
    (hslots : ∀ i v, k.roots[i]? = some v → i ∉ W.slots → h.Open V.cells v)
    (hheld : ∀ i ∈ W.slots, i < k.roots.size) : k.Sealed W := by
  have ho : ∀ v, k.object? v = h.object? v := fun v => by rw [object?, hc, object?]
  have hbinds : ∀ {f c}, k.Binds f c → h.Binds f c := fun hb => hb.of_cells hc.symm
  refine ⟨fun v d hv c hm => ?_, fun v d hv c hm hh => ?_, fun f p n w hf => ?_, fun f g c hf hg =>
    hs.apart f g c (hbinds hf) (hbinds hg), fun f c hf => ?_, fun c hm => ?_, fun f hf => ?_,
    fun v e p b hv => ?_, fun v hv => (ho v).trans (hs.sentinel v hv), ?_, ?_, fun name v hv => ?_,
    fun i v hv hi => ?_, hheld⟩
  · rw [ho] at hv ⊢
    exact hs.attached v d hv c hm
  · rw [ho] at hv
    exact hs.parts v d hv c hm (hW ▸ hh.of_cells hc.symm)
  · rw [ho] at hf
    obtain ⟨s, hl⟩ := hs.listed f p n w hf
    exact ⟨s, hl.of_cells hc⟩
  · rw [hW]
    exact hs.undrafted f c (hbinds hf)
  · rw [ho]
    exact hs.drafts c (hW ▸ hm)
  · rw [IsFrame, ho] at hf
    exact (hs.chained f hf).of_cells hc hb
  · rw [ho] at hv
    rw [IsFrame, ho]
    exact hs.captured v e p b hv
  · rw [IsFrame, ho]
    exact hcur
  · rw [IsFrame, ho, hb]
    exact hs.base
  · rw [ho]
    exact htable name v hv
  · rw [hW]
    exact (hslots i v hv hi).of_cells hc

end Heap

namespace Advance

lemma reframe (hs : V.Seals h) (hcol : k.collections = h.collections) (hc : k.cells = h.cells)
    (hk : h.Unswept → h.Sealed V → k.Sealed W) (hW : W.cells = V.cells)
    (hU : h.Unswept → h.Sealed V → ∀ i ∈ U.slots, k.roots[i]? = h.roots[i]?) :
    Advance U V h W k := by
  have ho : ∀ v, k.object? v = h.object? v := fun v => by rw [object?, hc, object?]
  have hu : k.Unswept → h.Unswept := fun hu => hcol.symm.trans hu
  refine ⟨hu, fun hk' => hk (hu hk') (hs (hu hk')), fun _ v hv => ?_, fun _ f hf => ?_,
    fun _ c _ => ho c, fun hk' => hU (hu hk') (hs (hu hk'))⟩
  · rw [hW]
    exact hv.of_cells hc
  · rw [IsFrame, ho]
    exact hf

/-- Another current frame. -/
lemma switchEnv (hs : V.Seals h) {env : Handle} (he : h.Unswept → h.IsFrame env) :
    Advance U V h V { h with currentEnv := env } := by
  refine reframe hs rfl rfl (fun hu hsl => ?_) rfl fun _ _ _ _ => rfl
  exact hsl.reframe rfl rfl (he hu) hsl.table rfl hsl.slots hsl.held

/-- A new slot leaves the others alone. -/
lemma held_push (hs : h.Sealed V) (v : Handle) :
    ∀ i ∈ V.slots, (h.roots.push v)[i]? = h.roots[i]? :=
  fun i hi => by
    rw [Array.getElem?_push, if_neg (Nat.ne_of_lt (hs.held i hi))]

/-- A slot for an open object. -/
lemma push (hs : V.Seals h) (hv : V.Shows h v) :
    V.Keeps h { h with roots := h.roots.push v } := by
  refine reframe hs rfl rfl (fun hu hsl => ?_) rfl fun _ hsl => held_push hsl v
  refine hsl.reframe rfl rfl hsl.current hsl.table rfl (fun i u hi hn => ?_) fun i hi => ?_
  · simp only [Array.getElem?_push] at hi
    split at hi
    · obtain rfl := Option.some.inj hi
      exact hv hu
    · exact hsl.slots i u hi hn
  · simp only [Array.size_push]
    exact Nat.lt_succ_of_lt (hsl.held i hi)

/-- A slot for any object, kept to itself. -/
lemma push_hidden (hs : V.Seals h) (v : Handle) :
    Advance V V h (V.hide h.roots.size) { h with roots := h.roots.push v } := by
  refine reframe hs rfl rfl (fun hu hsl => ?_) rfl fun _ hsl => held_push hsl v
  refine hsl.reframe rfl rfl hsl.current hsl.table rfl (fun i u hi hn => ?_) fun i hi => ?_
  · simp only [Veil.hide, Set.mem_insert_iff, not_or] at hn
    simp only [Array.getElem?_push, if_neg hn.1] at hi
    exact hsl.slots i u hi hn.2
  · simp only [Array.size_push]
    rcases hi with rfl | hi
    · exact Nat.lt_succ_self _
    · exact Nat.lt_succ_of_lt (hsl.held i hi)

/-- Releasing a slot that was acquired under the veil `V`, and maybe kept to oneself. -/
lemma pop_back (hs : V.Seals h) (hk : W.Seals k) (hu : k.Unswept → h.Unswept)
    (hX : X.cells = W.cells) (hXs : X.slots = V.slots)
    (hslots : W.slots = V.slots ∨ W.slots = insert h.roots.size V.slots)
    (hU : U.slots ⊆ V.slots) (hsize : k.roots.size = h.roots.size + 1) :
    Advance U W k X { k with roots := k.roots.pop } := by
  have hlt : k.Unswept → ∀ i ∈ V.slots, i < k.roots.size - 1 := fun hk' i hi => by
    have := (hs (hu hk')).held i hi
    omega
  refine reframe hk rfl rfl (fun hk' hsl => ?_) hX fun hk' _ i hi => ?_
  · refine hsl.reframe rfl rfl hsl.current hsl.table hX (fun i u hi hn => ?_) fun i hi => ?_
    · rw [hXs] at hn
      simp only [Array.getElem?_pop] at hi
      split at hi
      · refine hsl.slots i u hi fun hm => ?_
        rcases hslots with he | he
        · exact hn (he ▸ hm)
        · rw [he] at hm
          exact hn (hm.resolve_left (by omega))
      · simp at hi
    · rw [hXs] at hi
      simp only [Array.size_pop]
      exact hlt hk' i hi
  · simp only [Array.getElem?_pop, if_pos (hlt hk' i (hU hi))]

end Advance

/-! ## Ends -/

/-- How an action ends: with a value and a heap as `P` says, with an error and a heap as `E` says,
or with a fault, which is no stop on purpose unless `R`. -/
def Outcome.Ends {ε α : Type} (R : Prop) (P : α → Heap → Prop) (E : ε → Heap → Prop) :
    Outcome ε α → Prop
  | .ok a k => P a k
  | .error e k => E e k
  | .halt c => c = .baseFrame → R

/-- Safe ends of an action that has been run on `h`. -/
abbrev Outcome.Safe (R : Prop) (V : Veil) (h : Heap) (o : Outcome ε α) : Prop :=
  o.Ends R (fun a k => V.Keeps h k ∧ Exhibit.shown V k a)
    fun e k => V.Keeps h k ∧ Exhibit.shown V k e

open HeapM

variable {R : Prop} {x : HeapM ε α}

section Ends

variable {ε α β : Type} {P : α → Heap → Prop} {E : ε → Heap → Prop} {Q : β → Heap → Prop}

lemma Outcome.Ends.mono {o : Outcome ε α} {P' : α → Heap → Prop} {E' : ε → Heap → Prop}
    (ho : o.Ends R P E) (hP : ∀ a k, P a k → P' a k) (hE : ∀ e k, E e k → E' e k) :
    o.Ends R P' E' := by
  cases o with
  | ok a k => exact hP a k ho
  | error e k => exact hE e k ho
  | halt _ => exact ho

lemma ends_bind {x : HeapM ε α} {f : α → HeapM ε β} (hx : (x h).Ends R P E)
    (hf : ∀ a k, P a k → (f a k).Ends R Q E) : ((x >>= f) h).Ends R Q E := by
  rw [bind_apply]
  revert hx
  cases x h with
  | ok a k => exact fun hP => hf a k hP
  | error _ _ => exact id
  | halt _ => exact id

lemma ends_halt {c : Halt} (hc : c ≠ .baseFrame) : ((halt c : HeapM ε α) h).Ends R P E :=
  fun he => absurd he hc

/-- What follows may rely on the value that has been read off the heap. -/
lemma ends_look {f : α → HeapM ε β} {g : Heap → Except Halt α}
    (hg : ∀ c, g h = .error c → c.Observed) (hf : ∀ a, g h = .ok a → (f a h).Ends R Q E) :
    ((inspect g >>= f) h).Ends R Q E := by
  rw [bind_apply, inspect]
  cases hgh : g h with
  | ok a => exact hf a hgh
  | error c =>
    rintro rfl
    exact absurd (hg _ hgh) id

lemma ends_ite {p : Prop} [Decidable p] {x y : HeapM ε α} (hx : p → (x h).Ends R P E)
    (hy : ¬ p → (y h).Ends R P E) : ((if p then x else y) h).Ends R P E := by
  by_cases hp : p
  · rw [if_pos hp]
    exact hx hp
  · rw [if_neg hp]
    exact hy hp

/-- Holding an object in a slot of its own. -/
lemma ends_rooted {body : Root → HeapM ε α} {P' : α → Heap → Prop} {E' : ε → Heap → Prop}
    (hb : (body ⟨h.roots.size⟩ { h with roots := h.roots.push v }).Ends R P E)
    (hP : ∀ a k, P a k → k.roots.size = h.roots.size + 1 → P' a { k with roots := k.roots.pop })
    (hE : ∀ e k, E e k → k.roots.size = h.roots.size + 1 → E' e { k with roots := k.roots.pop }) :
    (rooted v body h).Ends R P' E' := by
  have hrel : ∀ k : Heap, (k.roots.size = h.roots.size + 1 ∧
      (do let _ ← release ⟨h.roots.size⟩ : HeapM ε Unit) k =
        .ok () { k with roots := k.roots.pop }) ∨
      ∃ c, c ≠ .baseFrame ∧ (do let _ ← release ⟨h.roots.size⟩ : HeapM ε Unit) k = .halt c := by
    intro k
    simp only [bind_apply, release]
    cases k.roots.back? with
    | none => exact .inr ⟨_, by simp, rfl⟩
    | some w =>
      dsimp only
      by_cases hs : k.roots.size = h.roots.size + 1
      · rw [if_pos hs]
        exact .inl ⟨hs, rfl⟩
      · rw [if_neg hs]
        exact .inr ⟨_, by simp, rfl⟩
  rw [rooted, bind_apply, acquire]
  by_cases hlt : h.roots.size < h.rootSlots
  · rw [if_pos hlt]
    dsimp only [ensuring]
    revert hb
    cases body ⟨h.roots.size⟩ { h with roots := h.roots.push v } with
    | ok a k =>
      intro hk
      dsimp only
      rcases hrel k with ⟨hs, hr⟩ | ⟨c, hc, hr⟩ <;> rw [hr]
      · exact hP a k hk hs
      · exact fun he => absurd he hc
    | error e k =>
      intro hk
      dsimp only
      rcases hrel k with ⟨hs, hr⟩ | ⟨c, hc, hr⟩ <;> rw [hr]
      · exact hE e k hk hs
      · exact fun he => absurd he hc
    | halt c => exact id
  · rw [if_neg hlt]
    exact fun he => absurd he (by simp)

end Ends

/-! ## Combinators -/

namespace Safe

lemma pure (hs : V.Seals h) {a : α} (ha : Exhibit.shown V h a) :
    ((pure a : HeapM ε α) h).Safe R V h := ⟨.refl hs, ha⟩

lemma fail (hs : V.Seals h) {e : ε} (he : Exhibit.shown V h e) :
    ((fail e : HeapM ε α) h).Safe R V h := ⟨.refl hs, he⟩

/-- What has become of an earlier heap. -/
lemma from_earlier {o : Outcome ε α} (hk : V.Keeps h k) (ho : o.Safe R V k) : o.Safe R V h :=
  ho.mono (fun _ _ ha => ⟨hk.trans ha.1, ha.2⟩) fun _ _ he => ⟨hk.trans he.1, he.2⟩

lemma bind {f : α → HeapM ε β} (hx : (x h).Safe R V h)
    (hf : ∀ a k, V.Keeps h k → Exhibit.shown V k a → (f a k).Safe R V k) :
    ((x >>= f) h).Safe R V h :=
  ends_bind hx fun a k ha => from_earlier ha.1 (hf a k ha.1 ha.2)

/-- A failure that counts as a value. -/
lemma recover {f : ε → α} (hf : ∀ e k, Exhibit.shown V k e → Exhibit.shown V k (f e))
    (hx : (x h).Safe R V h) : ((recover x f : HeapM ε' α) h).Safe R V h := by
  rw [HeapM.recover]
  revert hx
  cases x h with
  | ok _ _ => exact id
  | error e k => exact fun he => ⟨he.1, hf e k he.2⟩
  | halt _ => exact id

lemma mapError {f : ε → ε'} (hf : ∀ e k, Exhibit.shown V k e → Exhibit.shown V k (f e))
    (hx : (x h).Safe R V h) : ((mapError x f : HeapM ε' α) h).Safe R V h := by
  rw [HeapM.mapError]
  revert hx
  cases x h with
  | ok _ _ => exact id
  | error e k => exact fun he => ⟨he.1, hf e k he.2⟩
  | halt _ => exact id

variable {γ : Type} {s : List γ}

lemma forM {f : γ → HeapM ε Unit} (hs : V.Seals h)
    (hf : ∀ a ∈ s, ∀ k, V.Keeps h k → (f a k).Safe R V k) : ((s.forM f) h).Safe R V h := by
  induction s generalizing h with
  | nil => exact pure hs trivial
  | cons a s ih =>
    rw [List.forM_eq_forM, List.forM_cons, ← List.forM_eq_forM]
    refine bind (hf a List.mem_cons_self h (.refl hs)) fun _ k hk _ =>
      ih hk.seals fun b hb l hl => ?_
    exact hf b (List.mem_cons_of_mem a hb) l (hk.trans hl)

lemma mapM {f : γ → HeapM ε β} (hs : V.Seals h)
    (hf : ∀ a ∈ s, ∀ k, V.Keeps h k → (f a k).Safe R V k) : ((s.mapM f) h).Safe R V h := by
  induction s generalizing h with
  | nil => exact pure hs (by simp [Exhibit.shown])
  | cons a s ih =>
    rw [List.mapM_cons]
    refine bind (hf a List.mem_cons_self h (.refl hs)) fun b k hk hb => ?_
    refine bind (ih hk.seals fun c hc l hl => hf c (List.mem_cons_of_mem a hc) l (hk.trans hl))
      fun bs l hl hbs => pure hl.seals fun c hc => ?_
    rcases List.mem_cons.mp hc with rfl | hc
    · exact Exhibit.mono hl hb
    · exact hbs c hc

lemma foldlM {f : β → γ → HeapM ε β} {b : β} (hs : V.Seals h) (hb : Exhibit.shown V h b)
    (hf : ∀ b, ∀ a ∈ s, ∀ k, V.Keeps h k → Exhibit.shown V k b → (f b a k).Safe R V k) :
    ((s.foldlM f b) h).Safe R V h := by
  induction s generalizing h b with
  | nil => exact pure hs hb
  | cons a s ih =>
    refine bind (hf b a List.mem_cons_self h (.refl hs) hb) fun b k hk hb => ih hk.seals hb ?_
    exact fun b c hc l hl => hf b c (List.mem_cons_of_mem a hc) l (hk.trans hl)

lemma allM {f : γ → HeapM ε Bool} (hs : V.Seals h)
    (hf : ∀ a ∈ s, ∀ k, V.Keeps h k → (f a k).Safe R V k) : ((s.allM f) h).Safe R V h := by
  induction s generalizing h with
  | nil => exact pure hs trivial
  | cons a s ih =>
    refine bind (hf a List.mem_cons_self h (.refl hs)) fun b k hk _ => ?_
    cases b with
    | true => exact ih hk.seals fun c hc l hl => hf c (List.mem_cons_of_mem a hc) l (hk.trans hl)
    | false => exact pure hk.seals trivial

/-! ## Slots -/

lemma contents (hs : V.Seals h) {root : Root} (hr : V.Bares h root) :
    ((contents root : HeapM ε Handle) h).Safe R V h := by
  rw [HeapM.contents]
  cases hv : h.roots[root.slot]? with
  | some v => exact ⟨.refl hs, fun hu => (hs hu).slots _ v hv (hr hu)⟩
  | none => exact fun he => absurd he (by simp)

lemma store (hs : V.Seals h) {root : Root} (hr : V.Bares h root) (hv : V.Shows h v) :
    ((store root v : HeapM ε Unit) h).Safe R V h := by
  rw [HeapM.store]
  by_cases hlt : root.slot < h.roots.size
  · rw [if_pos hlt]
    refine ⟨.reframe hs rfl rfl (fun hu hsl => ?_) rfl fun hu _ i hi => ?_, trivial⟩
    · refine hsl.reframe rfl rfl hsl.current hsl.table rfl (fun i u hi hn => ?_) fun i hi => ?_
      · simp only [Array.getElem?_setIfInBounds] at hi
        split at hi
        · obtain rfl := Option.some.inj hi
          exact hv hu
        · exact hsl.slots i u hi hn
      · simp only [Array.size_setIfInBounds]
        exact hsl.held i hi
    · have hne : root.slot ≠ i := fun he => hr hu (by rw [he]; exact hi)
      exact Array.getElem?_setIfInBounds_ne hne
  · rw [if_neg hlt]
    exact fun he => absurd he (by simp)

/-- Holding an open object in a slot of its own, which may be read. -/
lemma rooted {body : Root → HeapM ε α} (hs : V.Seals h) (hv : V.Shows h v)
    (hb : ∀ root k, V.Keeps h k → V.Bares k root → (body root k).Safe R V k) :
    ((rooted v body) h).Safe R V h := by
  have hpush : V.Keeps h { h with roots := h.roots.push v } := .push hs hv
  have hpop : ∀ k, V.Keeps h k → k.roots.size = h.roots.size + 1 →
      V.Keeps k { k with roots := k.roots.pop } :=
    fun k hk hsize => .pop_back hs hk.seals hk.unswept rfl rfl (.inl rfl) subset_rfl hsize
  have hfree : V.Bares { h with roots := h.roots.push v } ⟨h.roots.size⟩ :=
    fun hu hm => Nat.lt_irrefl _ ((hs hu).held _ hm)
  refine ends_rooted (from_earlier hpush (hb _ _ hpush hfree)) (fun a k ha hsize => ?_)
    fun e k he hsize => ?_
  · have hp := hpop k ha.1 hsize
    exact ⟨ha.1.trans hp, Exhibit.mono hp ha.2⟩
  · have hp := hpop k he.1 hsize
    exact ⟨he.1.trans hp, Exhibit.mono hp he.2⟩

/-- Holding any object in a slot of its own, which is not read. -/
lemma holding {y : HeapM ε α} (hs : V.Seals h) (v : Handle)
    (hy : ∀ n k, Advance V V h (V.hide n) k → k.cells = h.cells →
      (y k).Safe R (V.hide n) k) :
    ((HeapM.rooted v fun _ => y) h).Safe R V h := by
  have hpush : Advance V V h (V.hide h.roots.size) { h with roots := h.roots.push v } :=
    .push_hidden hs v
  have hpop : ∀ k, (V.hide h.roots.size).Seals k → (k.Unswept → h.Unswept) →
      k.roots.size = h.roots.size + 1 →
      Advance V (V.hide h.roots.size) k V { k with roots := k.roots.pop } :=
    fun k hk hu hsize => .pop_back hs hk hu rfl rfl (.inr rfl) subset_rfl hsize
  refine ends_rooted (hy _ _ hpush rfl) (fun a k ha hsize => ?_) fun e k he hsize => ?_
  · have hk : Advance V V h _ k := hpush.trans (ha.1.mono (V.le_hide _))
    have hp := hpop k hk.seals hk.unswept hsize
    exact ⟨hk.trans hp, Exhibit.mono hp ha.2⟩
  · have hk : Advance V V h _ k := hpush.trans (he.1.mono (V.le_hide _))
    have hp := hpop k hk.seals hk.unswept hsize
    exact ⟨hk.trans hp, Exhibit.mono hp he.2⟩

/-! ## The current frame -/

lemma currentEnv (hs : V.Seals h) : ((currentEnv : HeapM ε Handle) h).Safe R V h :=
  ⟨.refl hs, fun hu => (hs hu).open_frame (hs hu).current⟩

lemma setCurrentEnv (hs : V.Seals h) {env : Handle} (he : h.Unswept → h.IsFrame env) :
    ((setCurrentEnv env : HeapM ε Unit) h).Safe R V h := by
  rw [setCurrentEnv_apply]
  split
  · rcases h.read_cases env with ⟨d, hd, hr⟩ | ⟨c, hc, hr⟩ <;> rw [hr]
    · dsimp only
      split
      · exact ⟨.switchEnv hs he, trivial⟩
      · exact fun hc => absurd hc (by simp)
    · rintro rfl
      exact absurd hc id
  · exact ⟨.switchEnv hs he, trivial⟩

/-- An action after which names are looked up where they were before. -/
lemma keepingEnv {x : EvalM α} (hs : V.Seals h) (hx : ∀ k, V.Keeps h k → (x k).Safe R V k) :
    ((keepingEnv x) h).Safe R V h := by
  refine rooted hs (fun hu => (hs hu).open_frame (hs hu).current) fun _ k hk _ => ?_
  have hback : ∀ l, V.Keeps k l →
      ((HeapM.setCurrentEnv h.currentEnv : EvalM Unit) l).Safe R V l := fun l hl =>
    setCurrentEnv hl.seals fun hu => (hk.trans hl).frames hu _
      (hs ((hk.trans hl).unswept hu)).current
  have hxk := hx k hk
  rw [ensuring]
  revert hxk
  cases x k with
  | ok a l =>
    intro ha
    have hb := hback l ha.1
    dsimp only
    revert hb
    cases (HeapM.setCurrentEnv h.currentEnv : EvalM Unit) l with
    | ok _ m => exact fun hm => ⟨ha.1.trans hm.1, Exhibit.mono hm.1 ha.2⟩
    | error e m => exact fun hm => ⟨ha.1.trans hm.1, hm.2⟩
    | halt c => exact id
  | error e l =>
    intro he
    have hb := hback l he.1
    dsimp only
    revert hb
    cases (HeapM.setCurrentEnv h.currentEnv : EvalM Unit) l with
    | ok _ m => exact fun hm => ⟨he.1.trans hm.1, Exhibit.mono hm.1 he.2⟩
    | error e m => exact fun hm => ⟨he.1.trans hm.1, hm.2⟩
    | halt c => exact id
  | halt c => exact id

end Safe

end ArenaScheme
