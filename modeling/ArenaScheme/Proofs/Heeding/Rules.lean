/-
# Actions that heed something

There are things that an action has to heed, whatever it does: some objects may not be shown to it,
and some root slots are those of somebody else.  A *concern* is such a thing, together with what is
asked of an action that works on what it may be shown.

What is asked may be all kinds of things, but it has to be true of the elementary actions, and of an
action that is put together with the combinators it has to follow from its being true of the parts.
Then it is true of all that is made in this way, the evaluator included.
-/
import Mathlib.Tactic.Lemma
import ArenaScheme.Eval.Evaluator

namespace ArenaScheme

/-! ## Handles in values -/

/-- Values with handles in them, all of which may be such that `S` holds. -/
class Sparing (α : Type) where
  spared : (Handle → Prop) → α → Prop

instance : Sparing Handle := ⟨fun S v => S v⟩

instance : Sparing Datum := ⟨fun S d => ∀ c ∈ d.children, S c⟩

/-- Values without handles. -/
instance : Sparing Unit := ⟨fun _ _ => True⟩

instance : Sparing Bool := ⟨fun _ _ => True⟩

instance : Sparing Nat := ⟨fun _ _ => True⟩

instance : Sparing Num := ⟨fun _ _ => True⟩

instance : Sparing String := ⟨fun _ _ => True⟩

instance : Sparing DatumType := ⟨fun _ _ => True⟩

instance : Sparing Collection := ⟨fun _ _ => True⟩

section

variable {α β : Type} [Sparing α] [Sparing β]

instance : Sparing (Option α) := ⟨fun S o => ∀ a ∈ o, Sparing.spared S a⟩

instance : Sparing (List α) := ⟨fun S l => ∀ a ∈ l, Sparing.spared S a⟩

instance : Sparing (α × β) := ⟨fun S p => Sparing.spared S p.1 ∧ Sparing.spared S p.2⟩

end

instance : Sparing Walk := ⟨fun S w => Sparing.spared S w.visited ∧ Sparing.spared S w.ending⟩

instance : Sparing Step where
  spared S
    | .done v | .eval v | .body v => S v

instance : Sparing Turn where
  spared S
    | .done v => S v
    | .again _ => True

export Sparing (spared)

/-! ## Concerns -/

/-- Things that actions heed. -/
class Concern (ι : Type) where
  /-- The handle may be shown. -/
  Spares : ι → Handle → Prop
  /-- The root slot is that of somebody else. -/
  Bars : ι → Nat → Prop
  /-- What is asked of an action. -/
  Heeds (C : ι) {ε α : Type} [Sparing ε] [Sparing α] (x : HeapM ε α) : Prop
  spares_sentinel (C : ι) {v : Handle} (hv : v.index < Heap.regionStart) : Spares C v
  pure {C : ι} {ε α : Type} [Sparing ε] [Sparing α] {a : α} (ha : spared (Spares C) a) :
    Heeds C (pure a : HeapM ε α)
  fail {C : ι} {ε α : Type} [Sparing ε] [Sparing α] {e : ε} (he : spared (Spares C) e) :
    Heeds C (HeapM.fail e : HeapM ε α)
  halt {C : ι} {ε α : Type} [Sparing ε] [Sparing α] {c : Halt} : Heeds C (HeapM.halt c : HeapM ε α)
  bind {C : ι} {ε α β : Type} [Sparing ε] [Sparing α] [Sparing β] {x : HeapM ε α}
  {f : α → HeapM ε β}
    (hx : Heeds C x) (hf : ∀ a, spared (Spares C) a → Heeds C (f a)) : Heeds C (x >>= f)
  recover {C : ι} {ε ε' α : Type} [Sparing ε] [Sparing ε'] [Sparing α] {x : HeapM ε α} {f : ε → α}
    (hx : Heeds C x) (hf : ∀ e, spared (Spares C) e → spared (Spares C) (f e)) :
    Heeds C (HeapM.recover x f : HeapM ε' α)
  ensuring {C : ι} {ε α : Type} [Sparing ε] [Sparing α] {x : HeapM ε α} {y : HeapM ε Unit}
    (hx : Heeds C x) (hy : Heeds C y) : Heeds C (HeapM.ensuring x y)
  contents {C : ι} {ε : Type} [Sparing ε] {root : Root} (hr : ¬ Bars C root.slot) :
    Heeds C (HeapM.contents root : HeapM ε Handle)
  store {C : ι} {ε : Type} [Sparing ε] {root : Root} {v : Handle} (hr : ¬ Bars C root.slot)
    (hv : Spares C v) :
    Heeds C (HeapM.store root v : HeapM ε Unit)
  rooted {C : ι} {ε α : Type} [Sparing ε] [Sparing α] {v : Handle} {body : Root → HeapM ε α}
    (hv : Spares C v)
    (hb : ∀ root : Root, ¬ Bars C root.slot → Heeds C (body root)) : Heeds C (HeapM.rooted v body)
  currentEnv {C : ι} {ε : Type} [Sparing ε] : Heeds C (HeapM.currentEnv : HeapM ε Handle)
  switchEnv {C : ι} {ε : Type} [Sparing ε] {v : Handle} (hv : Spares C v) :
    Heeds C (HeapM.switchEnv v : HeapM ε Unit)
  audited {C : ι} {ε : Type} [Sparing ε] : Heeds C (HeapM.observe (·.audited) : HeapM ε Bool)
  alloc {C : ι} {d : Datum} (hf : d.isFree = false) (hd : spared (Spares C) d) :
  Heeds C (HeapM.alloc d)
  datum {C : ι} {ε : Type} [Sparing ε] {v : Handle} (hv : Spares C v) :
    Heeds C (HeapM.datum v : HeapM ε Datum)
  walkSpine {C : ι} {ε : Type} [Sparing ε] {v : Handle} (hv : Spares C v) :
    Heeds C (HeapM.walkSpine v : HeapM ε Walk)
  nearestSlot {C : ι} {ε : Type} [Sparing ε] {env : Handle} (symbol : Handle) (he : Spares C env) :
    Heeds C (HeapM.inspect (·.nearestSlot env symbol) : HeapM ε (Option Handle))
  localSlot {C : ι} {ε : Type} [Sparing ε] {env : Handle} (symbol : Handle) (he : Spares C env) :
    Heeds C (HeapM.inspect (·.localSlot env symbol) : HeapM ε (Option Handle))
  /-- Changing an object after a look at it. -/
  expect_overwrite {C : ι} {ε β : Type} [Sparing ε] {wanted : DatumType} {part : Datum → Option β}
    {f : β → Datum}
    {v : Handle} (hv : Spares C v) (hn : ∀ a, (f a).isFree = false)
    (hp : ∀ d a, part d = some a →
      d.isFree = false ∧ (spared (Spares C) d → spared (Spares C) (f a))) :
    Heeds C (do HeapM.overwrite v (f (← HeapM.expect wanted part v)) : HeapM ε Unit)
  collect {C : ι} {ε : Type} [Sparing ε] : Heeds C (HeapM.collect : HeapM ε Collection)

namespace Concern

variable {ι : Type} [Concern ι] {C : ι} {ε α β γ : Type} [Sparing ε] [Sparing α] [Sparing β]
  {l : List γ} {v : Handle}

lemma spares_emptyList (C : ι) : Spares C .emptyList := spares_sentinel C (by decide)

/-! ## Combinators -/

lemma ite {p : Prop} [Decidable p] {x y : HeapM ε α} (hx : Heeds C x) (hy : Heeds C y) :
    Heeds C (if p then x else y) := by
  split
  · exact hx
  · exact hy

lemma forM {f : γ → HeapM ε Unit} (hf : ∀ a ∈ l, Heeds C (f a)) : Heeds C (l.forM f) := by
  induction l with
  | nil => exact pure trivial
  | cons a l ih =>
    rw [List.forM_eq_forM, List.forM_cons, ← List.forM_eq_forM]
    exact bind (hf a List.mem_cons_self) fun _ _ => ih fun b hb => hf b (List.mem_cons_of_mem a hb)

lemma mapM {f : γ → HeapM ε β} (hf : ∀ a ∈ l, Heeds C (f a)) : Heeds C (l.mapM f) := by
  induction l with
  | nil => exact pure fun _ hb => absurd hb List.not_mem_nil
  | cons a l ih =>
    rw [List.mapM_cons]
    refine bind (hf a List.mem_cons_self) fun b hb => ?_
    refine bind (ih fun c hc => hf c (List.mem_cons_of_mem a hc)) fun bs hbs => pure ?_
    exact List.forall_mem_cons.mpr ⟨hb, hbs⟩

lemma foldlM {f : β → γ → HeapM ε β} {b : β} (hb : spared (Spares C) b)
    (hf : ∀ b, spared (Spares C) b → ∀ a ∈ l, Heeds C (f b a)) : Heeds C (l.foldlM f b) := by
  induction l generalizing b with
  | nil => exact pure hb
  | cons a l ih =>
    refine bind (hf b hb a List.mem_cons_self) fun c hc => ?_
    exact ih hc fun b hb a' ha' => hf b hb a' (List.mem_cons_of_mem a ha')

lemma foldrM {f : γ → β → HeapM ε β} {b : β} (hb : spared (Spares C) b)
    (hf : ∀ a ∈ l, ∀ b, spared (Spares C) b → Heeds C (f a b)) : Heeds C (l.foldrM f b) := by
  induction l with
  | nil => exact pure hb
  | cons a l ih =>
    rw [List.foldrM_cons]
    refine bind (ih fun a' ha' => hf a' (List.mem_cons_of_mem a ha')) fun c hc => ?_
    exact hf a List.mem_cons_self c hc

lemma allM {f : γ → HeapM ε Bool} (hf : ∀ a ∈ l, Heeds C (f a)) : Heeds C (l.allM f) := by
  induction l with
  | nil => exact pure trivial
  | cons a l ih =>
    refine bind (hf a List.mem_cons_self) fun b _ => ?_
    cases b with
    | true => exact ih fun c hc => hf c (List.mem_cons_of_mem a hc)
    | false => exact pure trivial

/-! ## Slots and frames -/

lemma rootedAll {vs : List Handle} {x : HeapM ε α} (hvs : ∀ v ∈ vs, Spares C v) (hx : Heeds C x) :
    Heeds C (HeapM.rootedAll vs x) := by
  induction vs with
  | nil => exact hx
  | cons v vs ih =>
    obtain ⟨hv, hvs⟩ := List.forall_mem_cons.mp hvs
    exact rooted hv fun _ _ => ih hvs

lemma typeOf (hv : Spares C v) : Heeds C (HeapM.typeOf v : HeapM ε DatumType) :=
  bind (datum hv) fun _ _ => pure trivial

lemma hasType (t : DatumType) (hv : Spares C v) : Heeds C (HeapM.hasType t v : HeapM ε Bool) :=
  bind (typeOf hv) fun _ _ => pure trivial

lemma setCurrentEnv (hv : Spares C v) : Heeds C (HeapM.setCurrentEnv v : HeapM ε Unit) := by
  have hswitch : Heeds C (HeapM.switchEnv v : HeapM ε Unit) := switchEnv hv
  refine bind audited fun audited _ => ite ?_ hswitch
  exact bind (hasType .environment hv) fun _ _ => ite (bind halt fun _ _ => hswitch) hswitch

lemma keepingEnv {x : EvalM α} (hx : Heeds C x) : Heeds C (HeapM.keepingEnv x) :=
  bind currentEnv fun _ he => rooted he fun _ _ => ensuring hx (setCurrentEnv he)

end Concern

end ArenaScheme
