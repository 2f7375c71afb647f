/-
# Heedful work on objects

Making objects of what may be shown, looking at them and changing them is heedful, and so is all
that is built from this: lists and environments.
-/
import ArenaScheme.Proofs.Heeding.Rules

namespace ArenaScheme

open HeapM

namespace Concern

variable {ι : Type} [Concern ι] {C : ι} {ε α : Type} [Sparing ε] [Sparing α] {v w : Handle}
  {d : Datum}

/-! ## Allocation -/

lemma alloc_atom (hf : d.isFree = false) (hd : d.children = []) : Heeds C (HeapM.alloc d) :=
  alloc hf fun c hc => absurd hc (by simp [hd])

lemma cons (hv : Spares C v) (hw : Spares C w) : Heeds C (cons v w) := by
  refine alloc rfl fun c hc => ?_
  rcases (by simpa [Datum.children] using hc : c = v ∨ c = w) with rfl | rfl
  · exact hv
  · exact hw

lemma raise (kind : ErrorKind) (message : String) : Heeds C (raise kind message : EvalM α) := by
  refine bind ?_ fun _ he => fail he
  refine ite (pure (spares_sentinel C (by decide)))
    (recover (ε := Handle) (alloc_atom rfl rfl) fun _ => id)

/-! ## Inspection -/

lemma asPair (hv : Spares C v) : Heeds C (asPair v : HeapM ε (Option (Handle × Handle))) := by
  refine bind (datum hv) fun d hd => pure fun p hp => ?_
  cases d <;> simp [Datum.pair?] at hp
  subst hp
  exact ⟨hd _ (by simp [Datum.children]), hd _ (by simp [Datum.children])⟩

lemma expect {wanted : DatumType} {part : Datum → Option α}
    (hp : ∀ d a, part d = some a → spared (Spares C) d → spared (Spares C) a)
    (hv : Spares C v) : Heeds C (expect wanted part v : HeapM ε α) := by
  refine bind (datum hv) fun d hd => ?_
  split
  · next ha => exact pure (hp _ _ ha hd)
  · exact halt

lemma pairParts (hv : Spares C v) : Heeds C (pairParts v : HeapM ε (Handle × Handle)) := by
  refine expect (fun d p hp hd => ?_) hv
  cases d <;> simp [Datum.pair?] at hp
  subst hp
  exact ⟨hd _ (by simp [Datum.children]), hd _ (by simp [Datum.children])⟩

lemma car (hv : Spares C v) : Heeds C (car v : HeapM ε Handle) :=
  bind (pairParts hv) fun _ hp => pure hp.1

lemma cdr (hv : Spares C v) : Heeds C (cdr v : HeapM ε Handle) :=
  bind (pairParts hv) fun _ hp => pure hp.2

lemma symbolName (hv : Spares C v) : Heeds C (symbolName v : HeapM ε String) :=
  expect (fun _ _ _ _ => trivial) hv

lemma frameParts (hv : Spares C v) :
    Heeds C (frameParts v : HeapM ε (Option Handle × Handle × Handle)) := by
  refine expect (fun d f hf hd => ?_) hv
  cases d <;> simp [Datum.frame?] at hf
  subst hf
  exact ⟨fun p hp => hd p (by simp_all [Datum.children]), hd _ (by simp [Datum.children]),
    hd _ (by simp [Datum.children])⟩

lemma items? (hv : Spares C v) : Heeds C (items? v : HeapM ε (Option (List Handle))) := by
  refine bind (walkSpine hv) fun w hw => pure fun vs hvs => ?_
  unfold Walk.items? at hvs
  split at hvs
  · exact Option.mem_some.mp hvs ▸ hw.1
  · cases hvs

lemma length? (hv : Spares C v) : Heeds C (length? v : HeapM ε (Option Nat)) :=
  bind (items? hv) fun _ _ => pure fun _ _ => trivial

/-! ## Mutation -/

lemma setCar (hv : Spares C v) (hw : Spares C w) : Heeds C (setCar v w : HeapM ε Unit) := by
  refine expect_overwrite (f := fun p : Handle × Handle => .pair w p.2) hv
    (fun _ => rfl) fun d p hp => ?_
  cases d <;> simp [Datum.pair?] at hp
  subst hp
  exact ⟨rfl, fun hd => List.forall_mem_cons.mpr
    ⟨hw, List.forall_mem_singleton.mpr (hd _ (by simp [Datum.children]))⟩⟩

lemma setCdr (hv : Spares C v) (hw : Spares C w) : Heeds C (setCdr v w : HeapM ε Unit) := by
  refine expect_overwrite (f := fun p : Handle × Handle => .pair p.1 w) hv
    (fun _ => rfl) fun d p hp => ?_
  cases d <;> simp [Datum.pair?] at hp
  subst hp
  exact ⟨rfl, fun hd => List.forall_mem_cons.mpr
    ⟨hd _ (by simp [Datum.children]), List.forall_mem_singleton.mpr hw⟩⟩

lemma setBindings {names values : Handle} (hv : Spares C v) (hn : Spares C names)
    (hw : Spares C values) :
    Heeds C (setBindings v names values : HeapM ε Unit) := by
  refine expect_overwrite (f := fun f : Option Handle × Handle × Handle => .frame f.1 names values)
    hv
    (fun _ => rfl) fun d f hf => ?_
  cases d <;> simp [Datum.frame?] at hf
  subst hf
  refine ⟨rfl, fun hd c hc => ?_⟩
  simp only [Datum.children, List.mem_append, List.mem_cons, List.not_mem_nil, or_false] at hc
  rcases hc with hc | rfl | rfl
  · exact hd c (by simp [Datum.children, hc])
  · exact hn
  · exact hw

/-! ## Lists -/

lemma list {vs : List Handle} (hvs : ∀ v ∈ vs, Spares C v) : Heeds C (list vs) :=
  rootedAll hvs (foldrM (spares_emptyList C) fun v hv _ hw => cons (hvs v hv) hw)

lemma append {front back : Handle} (hf : Spares C front) (hb : Spares C back) :
    Heeds C (append front back) := by
  refine ite (pure hb) (bind (items? hf) fun vs hvs => ?_)
  cases vs with
  | none => exact raise _ _
  | some vs =>
    refine rooted hf fun _ _ => rooted hb fun result hr =>
      bind (forM fun v hv => ?_) fun _ _ => contents hr
    refine bind (contents hr) fun _ hw =>
      bind (cons (hvs vs rfl v (List.mem_reverse.mp hv)) hw) fun _ hc => ?_
    exact store hr hc

/-! ## Environments -/

variable {env symbol names values : Handle}

/-- The new frame becomes the current one. -/
lemma pushFrame (hn : Spares C names) (hv : Spares C values) :
    Heeds C (pushFrame names values) := by
  refine bind currentEnv fun env he => bind (alloc rfl fun c hc => ?_) fun _ hf =>
    bind (switchEnv hf) fun _ _ => pure hf
  rcases (by simpa [Datum.children] using hc : c = env ∨ c = names ∨ c = values) with
    rfl | rfl | rfl
  · exact he
  · exact hn
  · exact hv

lemma find? (he : Spares C env) : Heeds C (find? env symbol : HeapM ε (Option Handle)) := by
  refine bind (nearestSlot symbol he) fun slot hs => ?_
  cases slot with
  | some slot =>
    exact bind (car (hs slot rfl)) fun v hv => pure fun w hw => Option.mem_some.mp hw ▸ hv
  | none => exact pure fun _ hc => by cases hc

lemma unbound (hs : Spares C symbol) : Heeds C (unbound symbol : EvalM α) :=
  bind (symbolName hs) fun _ _ => raise _ _

lemma lookup (he : Spares C env) (hs : Spares C symbol) : Heeds C (lookup env symbol) := by
  refine bind (find? he) fun v hv => ?_
  cases v with
  | some v => exact pure (hv v rfl)
  | none => exact unbound hs

lemma define (he : Spares C env) (hs : Spares C symbol) (hv : Spares C v) :
    Heeds C (define env symbol v) := by
  refine bind (localSlot symbol he) fun slot hslot => ?_
  cases slot with
  | some slot => exact bind (setCar (hslot slot rfl) hv) fun _ _ => pure hv
  | none =>
    refine rooted he fun _ _ => rooted hv fun _ _ => bind (frameParts he) fun f hf => ?_
    refine bind (cons hs hf.2.1) fun _ hn => rooted hn fun _ _ =>
      bind (cons hv hf.2.2) fun _ hw => ?_
    exact bind (setBindings he hn hw) fun _ _ => pure hv

lemma assign (he : Spares C env) (hs : Spares C symbol) (hv : Spares C v) :
    Heeds C (assign env symbol v) := by
  refine bind (nearestSlot symbol he) fun slot hslot => ?_
  cases slot with
  | some slot => exact bind (setCar (hslot slot rfl) hv) fun _ _ => pure hv
  | none => exact unbound hs

end Concern

end ArenaScheme
