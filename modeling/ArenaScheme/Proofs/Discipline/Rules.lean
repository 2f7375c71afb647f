/-
# Orderly actions

An action is orderly if, on any heap whatever, it leaves the root stack as deep as it was and with
the same contents, apart from slots that it has been given to write to; if it looks names up where
they were looked up before, unless it is allowed to leave another frame behind; and if the error it
fails with is the handle of an error object.  It may halt at any time, but never because it broke
the rules of the root stack itself.

This holds of actions on all heaps, however their cells are linked, so it is proved with no
invariant but the one that it states.  The rules below follow the combinators that actions are put
together with.
-/
import ArenaScheme.Proofs.Discipline.Edits

namespace ArenaScheme

/-- The rules of the root stack or of the current frame have been broken. -/
def Halt.Disorder : Halt → Prop
  | .rootOrder .. | .currentNotFrame => True
  | _ => False

lemma Halt.Observed.not_disorder {c : Halt} (hc : c.Observed) : ¬ c.Disorder := by
  cases c <;> simp_all [Observed, Disorder]

/-- Which errors of a type an action may fail with. -/
class Blame (ε : Type) where
  reported : ε → Heap → Prop
  congr : ∀ {e : ε} {h k : Heap}, k.cells = h.cells → reported e h → reported e k

/-- The handle of the error object shared by all failures for want of memory, or of another one. -/
instance : Blame Handle where
  reported e h := e = .outOfMemory ∨ ∃ kind message, h.object? e = some (.error kind message)
  congr hc h := by
    rw [Heap.object?, hc]
    exact h

instance : Blame Failure where
  reported _ _ := True
  congr _ h := h

instance : Blame ReadFailure where
  reported _ _ := True
  congr _ h := h

namespace HeapM

/-! ## Slots that are there -/

variable {ε : Type}

lemma release_apply {h : Heap} {n : Nat} (hn : h.roots.size = n + 1) :
    ∃ v, h.roots[n]? = some v ∧
      (release ⟨n⟩ : HeapM ε Handle) h = .ok v { h with roots := h.roots.pop } := by
  have hlt : n < h.roots.size := by omega
  have hb : h.roots.back? = some h.roots[n] := by
    rw [Array.back?_eq_getElem?, hn, Nat.add_sub_cancel, Array.getElem?_eq_getElem hlt]
  exact ⟨h.roots[n], Array.getElem?_eq_getElem hlt, by rw [release, hb]; exact if_pos hn⟩

lemma contents_apply {h : Heap} {n : Nat} {v : Handle} (hv : h.roots[n]? = some v) :
    (contents ⟨n⟩ : HeapM ε Handle) h = .ok v h := by
  rw [contents, hv]

lemma store_apply {h : Heap} {n : Nat} (hn : n < h.roots.size) (v : Handle) :
    (store ⟨n⟩ v : HeapM ε Unit) h = .ok () { h with roots := h.roots.setIfInBounds n v } :=
  if_pos hn

lemma acquire_apply {h : Heap} (hn : h.roots.size < h.rootSlots) (v : Handle) :
    (acquire v : HeapM ε Root) h = .ok ⟨h.roots.size⟩ { h with roots := h.roots.push v } :=
  if_pos hn

/-- The slot of an action that returns is released. -/
lemma rooted_of_ok {α : Type} {h k : Heap} {v : Handle} {f : Root → HeapM ε α} {a : α}
    (hn : h.roots.size < h.rootSlots)
    (hf : f ⟨h.roots.size⟩ { h with roots := h.roots.push v } = .ok a k)
    (hk : k.roots.size = h.roots.size + 1) :
    rooted v f h = .ok a { k with roots := k.roots.pop } := by
  obtain ⟨w, -, hw⟩ := release_apply (ε := ε) hk
  have hrel : (do let _ ← release ⟨h.roots.size⟩ : HeapM ε Unit) k =
      .ok () { k with roots := k.roots.pop } := bind_of_ok hw
  rw [rooted, bind_of_ok (acquire_apply hn v), ensuring, hf]
  dsimp only
  rw [hrel]

/-- So is the slot of an action that fails. -/
lemma rooted_of_error {α : Type} {h k : Heap} {v : Handle} {f : Root → HeapM ε α} {e : ε}
    (hn : h.roots.size < h.rootSlots)
    (hf : f ⟨h.roots.size⟩ { h with roots := h.roots.push v } = .error e k)
    (hk : k.roots.size = h.roots.size + 1) :
    rooted v f h = .error e { k with roots := k.roots.pop } := by
  obtain ⟨w, -, hw⟩ := release_apply (ε := ε) hk
  have hrel : (do let _ ← release ⟨h.roots.size⟩ : HeapM ε Unit) k =
      .ok () { k with roots := k.roots.pop } := bind_of_ok hw
  rw [rooted, bind_of_ok (acquire_apply hn v), ensuring, hf]
  dsimp only
  rw [hrel]

/-- What is done with a slot depends on the heap in which it is occupied, if there is room for
it. -/
lemma rooted_congr {α : Type} {h : Heap} {v : Handle} {f g : Root → HeapM ε α}
    (hf : h.roots.size < h.rootSlots → f ⟨h.roots.size⟩ { h with roots := h.roots.push v } =
      g ⟨h.roots.size⟩ { h with roots := h.roots.push v }) : rooted v f h = rooted v g h := by
  by_cases hlt : h.roots.size < h.rootSlots
  · have hacq := acquire_apply (ε := ε) hlt v
    rw [rooted, rooted, bind_of_ok hacq, bind_of_ok hacq, ensuring, ensuring, hf hlt]
  · have hacq : (acquire v : HeapM ε Root) h = .halt (.rootOverflow h.rootSlots) := if_neg hlt
    rw [rooted, rooted, bind_of_halt hacq, bind_of_halt hacq]

/-- What comes back from two actions in turn comes back from both. -/
lemma bind_eq_ok {α β : Type} {x : HeapM ε α} {f : α → HeapM ε β} {h k : Heap} {b : β} :
    (x >>= f) h = .ok b k ↔ ∃ a l, x h = .ok a l ∧ f a l = .ok b k := by
  rw [bind_apply]
  cases x h <;> simp

lemma mapError_eq_ok {ε' α : Type} {x : HeapM ε α} {f : ε → ε'} {a : α} {h k : Heap} :
    mapError x f h = .ok a k ↔ x h = .ok a k := by
  rw [mapError]
  cases x h <;> simp

end HeapM

lemma observe_bind {ε α β : Type} (f : Heap → α) (F : α → HeapM ε β) (h : Heap) :
    (HeapM.observe f >>= F) h = F (f h) h := rfl

open Heap

/-- What an action may have done to a heap `h` when it leaves the heap `k`: the root slots in `W`
may have other contents, and if `s` holds, there may be another current frame. -/
structure Restores (host : Array HostProcedure) (W : Nat → Prop) (s : Prop)
    (h k : Heap) : Prop where
  edits : Edits host h k
  depth : k.roots.size = h.roots.size
  slots : ∀ i, ¬ W i → k.roots[i]? = h.roots[i]?
  env : ¬ s → k.currentEnv = h.currentEnv

/-- How an action that has been run on `h` may halt.  If that is a matter of the root stack, then it
was the host that halted; and only a heap that is audited has anything against a current frame. -/
def Stops (host : Array HostProcedure) (h : Heap) (c : Halt) : Prop :=
  c.Disorder → (∃ p ∈ host, ∃ args k, p args k = .halt c) ∨
    c = .currentNotFrame ∧ ∃ k, Edits host h k ∧ k.audited = true

/-- Orderly ends of an action that has been run on `h`. -/
def Outcome.Orderly {ε α : Type} [Blame ε] (host : Array HostProcedure) (W : Nat → Prop) (s : Prop)
    (h : Heap) : Outcome ε α → Prop
  | .ok _ k => Restores host W s h k
  | .error e k => Restores host W s h k ∧ Blame.reported e k
  | .halt c => Stops host h c

/-- An action that comes to an orderly end on every heap. -/
def Orderly {ε α : Type} [Blame ε] (host : Array HostProcedure) (W : Nat → Prop) (s : Prop)
    (x : HeapM ε α) : Prop := ∀ h, (x h).Orderly host W s h

open HeapM

variable {ε ε' α β : Type} [Blame ε] [Blame ε'] {host : Array HostProcedure} {W V : Nat → Prop}
  {s t : Prop} {h k l : Heap} {x : HeapM ε α}

/-! ## What is left -/

namespace Restores

lemma refl (h : Heap) : Restores host W s h h := ⟨.refl, rfl, fun _ _ => rfl, fun _ => rfl⟩

lemma trans (a : Restores host W s h k) (b : Restores host W s k l) : Restores host W s h l :=
  ⟨a.edits.trans b.edits, b.depth.trans a.depth, fun i hi => (b.slots i hi).trans (a.slots i hi),
    fun hs => (b.env hs).trans (a.env hs)⟩

lemma mono (a : Restores host W s h k) (hW : ∀ i, W i → V i) (hs : s → t) :
    Restores host V t h k :=
  ⟨a.edits, a.depth, fun i hi => a.slots i fun hw => hi (hW i hw),
    fun ht => a.env fun h => ht (hs h)⟩

/-- An action that was given nothing to write to has left the root stack alone. -/
lemma roots (a : Restores host (fun _ => False) s h k) : k.roots = h.roots :=
  Array.ext_getElem? fun i => a.slots i id

/-- Changes of the cells only. -/
lemma of_sameFrame (he : Edits host h k) (hf : SameFrame h k) : Restores host W s h k :=
  ⟨he, congrArg Array.size hf.roots, fun i _ => by rw [hf.roots], fun _ => hf.currentEnv⟩

end Restores

omit [Blame ε] in
/-- Releasing a slot that was acquired on `h`. -/
lemma Restores.released {v : Handle} (hp : Edits host h { h with roots := h.roots.push v })
    (hr : Restores host (fun i => W i ∨ i = h.roots.size) s { h with roots := h.roots.push v } k) :
    Restores host W s h { k with roots := k.roots.pop } ∧
      (do let _ ← release ⟨h.roots.size⟩ : HeapM ε Unit) k =
        .ok () { k with roots := k.roots.pop } := by
  have hs : k.roots.size = h.roots.size + 1 := hr.depth.trans (Array.size_push v)
  obtain ⟨w, -, hw⟩ := release_apply (ε := ε) hs
  refine ⟨⟨(hp.trans hr.edits).tail (.roots k _), ?_, fun i hi => ?_, hr.env⟩, bind_of_ok hw⟩
  · rw [Array.size_pop, hs, Nat.add_sub_cancel]
  · rw [Array.getElem?_pop]
    by_cases hlt : i < h.roots.size
    · have hne : ¬ (W i ∨ i = h.roots.size) := fun hw => hw.elim hi (Nat.ne_of_lt hlt)
      rw [if_pos (by omega), hr.slots i hne, Array.getElem?_push, if_neg (Nat.ne_of_lt hlt)]
    · rw [if_neg (by omega), Array.getElem?_eq_none (Nat.not_lt.mp hlt)]

/-- Returning to the frame that was the current one. -/
lemma Restores.returned (hr : Restores host W True h k) :
    Restores host W False h { k with currentEnv := h.currentEnv } :=
  ⟨hr.edits.tail (.currentEnv k _), hr.depth, hr.slots, fun _ => rfl⟩

lemma Stops.of_edits {c : Halt} (he : Edits host h k) (hc : Stops host k c) : Stops host h c :=
  fun hd => (hc hd).imp_right fun ⟨hn, l, hl, ha⟩ => ⟨hn, l, he.trans hl, ha⟩

lemma Stops.of_not {c : Halt} (hc : ¬ c.Disorder) : Stops host h c := fun hd => absurd hd hc

lemma Outcome.Orderly.leaving {o : Outcome ε α} (ho : o.Orderly host W s h) :
    o.Leaving (Restores host W s h) := by
  cases o with
  | ok _ _ => exact .ok ho
  | error _ _ => exact .error ho.1
  | halt _ => exact .halt

lemma Outcome.Orderly.mono {o : Outcome ε α} (ho : o.Orderly host W s h) (hW : ∀ i, W i → V i)
    (hs : s → t) : o.Orderly host V t h := by
  cases o with
  | ok _ _ => exact Restores.mono ho hW hs
  | error _ _ => exact ⟨ho.1.mono hW hs, ho.2⟩
  | halt _ => exact ho

lemma Outcome.Orderly.trans {o : Outcome ε α} (a : Restores host W s h k)
    (ho : o.Orderly host W s k) : o.Orderly host W s h := by
  cases o with
  | ok _ _ => exact a.trans ho
  | error _ _ => exact ⟨a.trans ho.1, ho.2⟩
  | halt _ => exact Stops.of_edits a.edits ho

omit [Blame ε] in
/-- Switching to a frame halts on an audited heap if it is none. -/
lemma setCurrentEnv_cases (host : Array HostProcedure) (env : Handle) (h : Heap) :
    (setCurrentEnv env : HeapM ε Unit) h = .ok () { h with currentEnv := env } ∨
      ∃ c, (setCurrentEnv env : HeapM ε Unit) h = .halt c ∧ Stops host h c := by
  simp only [HeapM.setCurrentEnv, bind_apply, HeapM.observe]
  by_cases ha : h.audited = true
  · rw [if_pos ha]
    simp only [hasType, typeOf, datum, bind_apply, HeapM.inspect]
    rcases h.read_cases env with ⟨d, -, hr⟩ | ⟨c, hc, hr⟩ <;> rw [hr]
    · simp only [pure_apply]
      cases d.type == .environment with
      | true => exact .inl rfl
      | false => exact .inr ⟨_, rfl, fun _ => .inr ⟨rfl, h, .refl, ha⟩⟩
    · exact .inr ⟨c, rfl, .of_not hc.not_disorder⟩
  · rw [if_neg ha]
    exact .inl rfl

/-! ## Combinators -/

namespace Orderly

lemma mono (hx : Orderly host W s x) (hW : ∀ i, W i → V i) (hs : s → t) : Orderly host V t x :=
  fun h => (hx h).mono hW hs

lemma pure (a : α) : Orderly host W s (pure a : HeapM ε α) := fun h => .refl h

lemma halt {c : Halt} (hc : ¬ c.Disorder) : Orderly host W s (halt c : HeapM ε α) := fun _ =>
  .of_not hc

lemma bind {f : α → HeapM ε β} (hx : Orderly host W s x) (hf : ∀ a, Orderly host W s (f a)) :
    Orderly host W s (x >>= f) := by
  intro h
  have := hx h
  rw [bind_apply]
  revert this
  cases x h with
  | ok a k => exact fun hr => (hf a k).trans hr
  | error _ _ => exact id
  | halt _ => exact id

/-- What follows may rely on the value that has been read off the heap. -/
lemma look {f : α → HeapM ε β} {g : Heap → Except Halt α} (hg : ∀ h c, g h = .error c → c.Observed)
    (hf : ∀ h a, g h = .ok a → (f a h).Orderly host W s h) :
    Orderly host W s (inspect g >>= f) := by
  intro h
  rw [bind_apply, inspect]
  cases hgh : g h with
  | ok a => exact hf h a hgh
  | error c => exact Stops.of_not (hg h c hgh).not_disorder

lemma inspect {g : Heap → Except Halt α} (hg : ∀ h c, g h = .error c → c.Observed) :
    Orderly host W s (inspect g : HeapM ε α) := by
  intro h
  rw [HeapM.inspect]
  cases hgh : g h with
  | ok a => exact .refl h
  | error c => exact Stops.of_not (hg h c hgh).not_disorder

lemma observe (g : Heap → α) : Orderly host W s (observe g : HeapM ε α) := fun h => .refl h

lemma ite {p : Prop} [Decidable p] {y : HeapM ε α} (hx : p → Orderly host W s x)
    (hy : ¬ p → Orderly host W s y) : Orderly host W s (if p then x else y) := by
  by_cases hp : p
  · rw [if_pos hp]
    exact hx hp
  · rw [if_neg hp]
    exact hy hp

lemma forM {γ : Type} {f : γ → HeapM ε PUnit} (hf : ∀ a, Orderly host W s (f a)) (l : List γ) :
    Orderly host W s (l.forM f) := by
  induction l with
  | nil => exact .pure _
  | cons a l ih =>
    rw [List.forM_eq_forM, List.forM_cons, ← List.forM_eq_forM]
    exact .bind (hf a) fun _ => ih

lemma foldlM {γ : Type} {f : β → γ → HeapM ε β} (hf : ∀ b a, Orderly host W s (f b a))
    (l : List γ) (b : β) : Orderly host W s (l.foldlM f b) := by
  induction l generalizing b with
  | nil => exact .pure b
  | cons a l ih => exact .bind (hf b a) fun b => ih b

lemma foldrM {γ : Type} {f : γ → β → HeapM ε β} (hf : ∀ a b, Orderly host W s (f a b)) (l : List γ)
    (b : β) : Orderly host W s (l.foldrM f b) := by
  induction l with
  | nil => exact .pure b
  | cons a l ih =>
    rw [List.foldrM_cons]
    exact .bind ih fun b => hf a b

lemma mapM {γ : Type} {f : γ → HeapM ε β} (hf : ∀ a, Orderly host W s (f a)) (l : List γ) :
    Orderly host W s (l.mapM f) := by
  induction l with
  | nil => exact .pure []
  | cons a l ih =>
    rw [List.mapM_cons]
    exact .bind (hf a) fun b => .bind ih fun bs => .pure (b :: bs)

lemma allM {γ : Type} {f : γ → HeapM ε Bool} (hf : ∀ a, Orderly host W s (f a)) (l : List γ) :
    Orderly host W s (l.allM f) := by
  induction l with
  | nil => exact .pure true
  | cons a l ih => exact .bind (hf a) fun b => by cases b <;> [exact .pure false; exact ih]

/-- A failure that counts as a value. -/
lemma recover {f : ε → α} (hx : Orderly host W s x) :
    Orderly host W s (recover x f : HeapM ε' α) := by
  intro h
  have := hx h
  rw [HeapM.recover]
  revert this
  cases x h with
  | ok _ _ => exact id
  | error _ _ => exact And.left
  | halt _ => exact id

/-! ## Slots -/

lemma contents (root : Root) : Orderly host W s (contents root : HeapM ε Handle) := by
  intro h
  rw [HeapM.contents]
  cases h.roots[root.slot]? with
  | some v => exact .refl h
  | none => exact Stops.of_not (by simp [Halt.Disorder])

/-- Writing to a slot that has been given. -/
lemma store {root : Root} (hr : W root.slot) (v : Handle) :
    Orderly host W s (store root v : HeapM ε Unit) := by
  intro h
  rw [HeapM.store]
  by_cases hlt : root.slot < h.roots.size
  · rw [if_pos hlt]
    refine ⟨.single (.roots h _), Array.size_setIfInBounds, fun i hi => ?_, fun _ => rfl⟩
    exact Array.getElem?_setIfInBounds_ne fun he : root.slot = i => hi (he ▸ hr)
  · rw [if_neg hlt]
    exact Stops.of_not (by simp [Halt.Disorder])

/-- Holding an object in a slot of its own, on one heap. -/
lemma rooted_at {v : Handle} {body : Root → HeapM ε α}
    (hb : (body ⟨h.roots.size⟩ { h with roots := h.roots.push v }).Orderly host
      (fun i => W i ∨ i = h.roots.size) s { h with roots := h.roots.push v }) :
    (HeapM.rooted v body h).Orderly host W s h := by
  rw [HeapM.rooted, bind_apply, acquire]
  by_cases hlt : h.roots.size < h.rootSlots
  · rw [if_pos hlt]
    have hpush : Edits host h { h with roots := h.roots.push v } := .single (.roots h _)
    dsimp only [ensuring]
    revert hb
    cases body ⟨h.roots.size⟩ { h with roots := h.roots.push v } with
    | ok a k =>
      intro hr
      obtain ⟨hk, hrel⟩ := hr.released (ε := ε) hpush
      dsimp only
      rw [hrel]
      exact hk
    | error e k =>
      rintro ⟨hr, he⟩
      obtain ⟨hk, hrel⟩ := hr.released (ε := ε) hpush
      dsimp only
      rw [hrel]
      exact ⟨hk, Blame.congr (h := k) rfl he⟩
    | halt c => exact fun hc => Stops.of_edits hpush hc
  · rw [if_neg hlt]
    exact Stops.of_not (by simp [Halt.Disorder])

/-- Holding an object in a slot of its own, which the action may write to. -/
lemma rooted {v : Handle} {body : Root → HeapM ε α}
    (hb : ∀ root, Orderly host (fun i => W i ∨ i = root.slot) s (body root)) :
    Orderly host W s (rooted v body) := fun _ => rooted_at (hb _ _)

lemma rootedAll (vs : List Handle) (hx : Orderly host (fun _ => False) s x) :
    Orderly host W s (rootedAll vs x) := by
  induction vs generalizing W with
  | nil => exact hx.mono (fun _ => False.elim) id
  | cons v vs ih => exact .rooted fun _ => ih

/-! ## The current frame -/

lemma switchEnv (env : Handle) : Orderly host W True (switchEnv env : HeapM ε Unit) := fun h =>
  ⟨.single (.currentEnv h env), rfl, fun _ _ => rfl, fun hs => absurd trivial hs⟩

lemma setCurrentEnv (env : Handle) : Orderly host W True (setCurrentEnv env : HeapM ε Unit) := by
  intro h
  rcases setCurrentEnv_cases (ε := ε) host env h with hr | ⟨c, hr, hc⟩ <;> rw [hr]
  · exact ⟨.single (.currentEnv h env), rfl, fun _ _ => rfl, fun hs => absurd trivial hs⟩
  · exact hc

/-- Returning to the frame that was the current one. -/
lemma ensuring_setCurrentEnv (hx : Orderly host W True x) (h : Heap) :
    (ensuring x (HeapM.setCurrentEnv h.currentEnv) h).Orderly host W False h := by
  have := hx h
  rw [ensuring]
  revert this
  cases x h with
  | ok a k =>
    intro hr
    dsimp only
    rcases setCurrentEnv_cases (ε := ε) host h.currentEnv k with hk | ⟨c, hk, hc⟩ <;>
      rw [hk]
    · exact hr.returned
    · exact hc.of_edits hr.edits
  | error e k =>
    rintro ⟨hr, he⟩
    dsimp only
    rcases setCurrentEnv_cases (ε := ε) host h.currentEnv k with hk | ⟨c, hk, hc⟩ <;>
      rw [hk]
    · exact ⟨hr.returned, Blame.congr (h := k) rfl he⟩
    · exact hc.of_edits hr.edits
  | halt c => exact id

/-- An action may leave another current frame behind if the caller returns to its own. -/
lemma keepingEnv {x : EvalM α} (hx : Orderly host W True x) : Orderly host W s (keepingEnv x) :=
  fun h => rooted_at ((ensuring_setCurrentEnv (hx.mono (fun _ => .inl) id)
    { h with roots := h.roots.push h.currentEnv }).mono (fun _ => id) False.elim)

end Orderly

end ArenaScheme
