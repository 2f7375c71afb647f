/-
# Orderly work on objects

Making objects, looking at them and changing them is orderly, and so is all that is built from this:
lists, environments and the expansion of `let`.
-/
import ArenaScheme.Proofs.Discipline.Rules

namespace ArenaScheme

open Heap

/-! ## Faults in the arena -/

/-- A cause that collections and allocations may have: there is something wrong with the arena. -/
def Halt.OfArena : Halt → Prop
  | .corruptFreeList .. | .danglingReference .. | .outOfRange .. => True
  | _ => False

lemma Halt.OfArena.not_disorder {c : Halt} (hc : c.OfArena) : ¬ c.Disorder := by
  cases c <;> simp_all [OfArena, Disorder]

namespace Marking

/-- Any fault that has been met is one of the arena. -/
def Calm (m : Marking) : Prop := ∀ c, m.fault = some c → c.OfArena

lemma ofArena_fault {h : Heap} {v : Handle} {c : Halt} (hc : h.fault? v = some c) : c.OfArena := by
  unfold Heap.fault? at hc
  split at hc
  · exact Option.some.inj hc ▸ trivial
  · split at hc
    · exact Option.some.inj hc ▸ trivial
    · simp at hc

lemma Calm.visit {m : Marking} (hm : m.Calm) (h : Heap) (v : Handle) : (m.visit h v).Calm := by
  have hor : ∀ c, m.fault.or (h.fault? v) = some c → c.OfArena := by
    intro c hc
    rcases Option.or_eq_some_iff.mp hc with hc | ⟨-, hc⟩
    · exact hm c hc
    · exact ofArena_fault hc
  unfold Marking.visit
  split
  · exact hm
  · exact hor
  · exact hor

lemma Calm.visitAll {m : Marking} (hm : m.Calm) (h : Heap) (vs : List Handle) :
    (m.visitAll h vs).Calm := by
  induction vs generalizing m with
  | nil => exact hm
  | cons v vs ih => exact ih (hm.visit h v)

lemma Calm.drain {m : Marking} (hm : m.Calm) (h : Heap) : (m.drain h).Calm := by
  fun_induction Marking.drain h m with
  | case1 m hw => exact hm
  | case2 m i work hw hlt ih => exact ih (Calm.visitAll (m := { m with work }) hm h _)

end Marking

lemma Heap.ofArena_collectKeeping {h : Heap} {extra : List Handle} {c : Halt}
    (hc : h.collectKeeping extra = .error c) : c.OfArena := by
  dsimp only [collectKeeping] at hc
  split at hc
  · next cause hf =>
    obtain rfl := Except.error.inj hc
    have hs : (Marking.start h).Calm := fun c hc => by simp [Marking.start] at hc
    exact (hs.visitAll h (h.rootHandles extra)).drain h cause hf
  · simp at hc

variable {ε α : Type} [Blame ε] {host : Array HostProcedure} {W : Nat → Prop} {s : Prop}

/-! ## Allocation -/

/-- The heap that an allocation prepares. -/
lemma Heap.prepare_edits (host : Array HostProcedure) {h k : Heap} {extra : List Handle}
    (hp : h.prepare extra = .ok k) :
    Edits host h k ∧ SameFrame h k := by
  unfold prepare at hp
  split at hp
  · cases hc : h.collectKeeping extra with
    | ok p =>
      rw [hc] at hp
      obtain rfl := Except.ok.inj hp
      exact ⟨.single (.collect hc), SameFrame.collectKeeping hc⟩
    | error c => simp [hc, Except.map] at hp
  · obtain rfl := Except.ok.inj hp
    exact ⟨.refl, .refl h⟩

lemma Heap.ofArena_prepare {h : Heap} {extra : List Handle} {c : Halt}
    (hp : h.prepare extra = .error c) : c.OfArena := by
  unfold prepare at hp
  split at hp
  · cases hc : h.collectKeeping extra with
    | ok p => simp [hc, Except.map] at hp
    | error c' =>
      rw [hc] at hp
      exact Except.error.inj hp ▸ ofArena_collectKeeping hc
  · simp at hp

lemma Heap.ofArena_claim {h : Heap} {i : Nat} {d : Datum} {c : Halt}
    (hc : h.claim i d = .error c) : c.OfArena := by
  unfold claim at hc
  split at hc
  · simp at hc
  · exact Except.error.inj hc ▸ trivial
  · exact Except.error.inj hc ▸ trivial

namespace Orderly

open HeapM

/-- Allocation: what it returns is the cell of the new object, and what it fails with is the
sentinel for exhausted memory. -/
lemma alloc_cases (host : Array HostProcedure) {d : Datum} (hd : d.isOrdinary = true) (h : Heap) :
    (∃ i k, HeapM.alloc d h = .ok ⟨i⟩ k ∧ Edits host h k ∧ SameFrame h k ∧
        k.cells[i]? = some d) ∨
      (∃ k, HeapM.alloc d h = .error .outOfMemory k ∧ Edits host h k ∧ SameFrame h k) ∨
      ∃ c, HeapM.alloc d h = .halt c ∧ c.OfArena := by
  unfold HeapM.alloc
  cases hp : h.prepare d.children with
  | error c => exact .inr (.inr ⟨c, rfl, ofArena_prepare hp⟩)
  | ok k =>
    obtain ⟨he, hf⟩ := prepare_edits host hp
    dsimp only
    cases hfree : k.free with
    | none => exact .inr (.inl ⟨k, rfl, he, hf⟩)
    | some i =>
      dsimp only
      cases hc : k.claim i d with
      | ok l =>
        exact .inl ⟨i, l, rfl, he.tail (.claim hd hc), hf.trans (.claim hc), cells_of_claim hc⟩
      | error c => exact .inr (.inr ⟨c, rfl, ofArena_claim hc⟩)

lemma alloc {d : Datum} (hd : d.isOrdinary = true) : Orderly host W s (alloc d) := by
  intro h
  rcases alloc_cases host hd h with ⟨i, k, hr, he, hf, -⟩ | ⟨k, hr, he, hf⟩ | ⟨c, hr, hc⟩ <;>
    rw [hr]
  · exact .of_sameFrame he hf
  · exact ⟨.of_sameFrame he hf, .inl rfl⟩
  · exact Stops.of_not hc.not_disorder

lemma cons (a b : Handle) : Orderly host W s (cons a b) := alloc rfl

lemma intern (name : String) : Orderly host W s (intern name : HeapM ε Handle) := by
  intro h
  simp only [HeapM.intern, changeWith]
  cases hs : h.symbols[name]? with
  | some v =>
    rw [intern_of_some hs]
    exact .refl h
  | none =>
    have he : Edits host h (h.intern name).2 := .single (.intern hs)
    rw [intern_of_none hs] at he ⊢
    exact ⟨he, rfl, fun _ _ => rfl, fun _ => rfl⟩

lemma allocPermanent {d : Datum} (hd : d.isOrdinary = true) :
    Orderly host W s (allocPermanent d : HeapM ε Handle) :=
  fun h => ⟨.single (.append h hd), rfl, fun _ _ => rfl, fun _ => rfl⟩

omit [Blame ε] in
/-- Making an error object gives a handle that may be reported. -/
lemma makeError_cases (host : Array HostProcedure) (kind : ErrorKind) (message : String)
    (h : Heap) :
    (∃ v k, (HeapM.makeError kind message : HeapM ε Handle) h = .ok v k ∧ Edits host h k ∧
        SameFrame h k ∧ Blame.reported v k) ∨
      ∃ c, (HeapM.makeError kind message : HeapM ε Handle) h = .halt c ∧ c.OfArena := by
  unfold HeapM.makeError
  split
  · exact .inl ⟨_, h, rfl, .refl, .refl h, .inl rfl⟩
  · unfold HeapM.recover
    rcases alloc_cases host (d := .error kind message) rfl h with
      ⟨i, k, hr, he, hf, hd⟩ | ⟨k, hr, he, hf⟩ | ⟨c, hr, hc⟩ <;> rw [hr]
    · exact .inl ⟨_, k, rfl, he, hf, .inr ⟨kind, message, object?_eq_some.mpr ⟨hd, rfl⟩⟩⟩
    · exact .inl ⟨_, k, rfl, he, hf, .inl rfl⟩
    · exact .inr ⟨c, rfl, hc⟩

lemma raise (kind : ErrorKind) (message : String) :
    Orderly host W s (raise kind message : EvalM α) := by
  intro h
  rw [HeapM.raise, bind_apply]
  rcases makeError_cases host kind message h with ⟨v, k, hr, he, hf, hb⟩ | ⟨c, hr, hc⟩ <;>
    rw [hr]
  · exact ⟨.of_sameFrame he hf, hb⟩
  · exact Stops.of_not hc.not_disorder

/-! ## Inspection -/

lemma datum (v : Handle) : Orderly host W s (datum v : HeapM ε Datum) :=
  .inspect fun _ _ => observed_read

lemma typeOf (v : Handle) : Orderly host W s (typeOf v : HeapM ε DatumType) :=
  .bind (datum v) fun _ => .pure _

lemma hasType (t : DatumType) (v : Handle) : Orderly host W s (hasType t v : HeapM ε Bool) :=
  .bind (typeOf v) fun _ => .pure _

lemma asPair (v : Handle) : Orderly host W s (asPair v : HeapM ε (Option (Handle × Handle))) :=
  .bind (datum v) fun _ => .pure _

lemma expect (wanted : DatumType) (part : Datum → Option α) (v : Handle) :
    Orderly host W s (expect wanted part v : HeapM ε α) := by
  refine .bind (datum v) fun d => ?_
  cases part d with
  | some a => exact .pure a
  | none => exact .halt id

lemma walkSpine (v : Handle) : Orderly host W s (walkSpine v : HeapM ε Walk) :=
  .inspect fun _ _ => observed_walkFrom _ _ _ _

lemma items? (v : Handle) : Orderly host W s (items? v : HeapM ε (Option (List Handle))) :=
  .bind (walkSpine v) fun _ => .pure _

lemma length? (v : Handle) : Orderly host W s (length? v : HeapM ε (Option Nat)) :=
  .bind (items? v) fun _ => .pure _

lemma currentEnv : Orderly host W s (currentEnv : HeapM ε Handle) := .observe _

/-! ## Mutation -/

/-- Changing an object after a look at it. -/
lemma expect_overwrite {wanted : DatumType} {part : Datum → Option α} {v : Handle}
    {new : α → Datum}
    (he : ∀ (h : Heap) d a, h.cells[v.index]? = some d → part d = some a →
      Edits host h (h.setCell v.index (new a))) :
    Orderly host W s (do overwrite v (new (← HeapM.expect wanted part v)) : HeapM ε Unit) := by
  rw [HeapM.expect, bind_assoc]
  refine .look (fun _ _ => observed_read) fun h d hd => ?_
  cases hp : part d with
  | some a =>
    rw [pure_bind]
    exact ⟨he h d a (cells_of_read hd) hp, rfl, fun _ _ => rfl, fun _ => rfl⟩
  | none => exact Stops.of_not id

lemma setCar (pair v : Handle) : Orderly host W s (setCar pair v : HeapM ε Unit) :=
  expect_overwrite fun h d p hd hp => by
    cases d <;> simp [Datum.pair?] at hp
    exact .single (.pair hd _ _)

lemma setCdr (pair v : Handle) : Orderly host W s (setCdr pair v : HeapM ε Unit) :=
  expect_overwrite fun h d p hd hp => by
    cases d <;> simp [Datum.pair?] at hp
    exact .single (.pair hd _ _)

lemma setBindings (frame names values : Handle) :
    Orderly host W s (setBindings frame names values : HeapM ε Unit) :=
  expect_overwrite fun h d p hd hp => by
    cases d <;> simp [Datum.frame?] at hp
    obtain rfl := hp
    exact .single (.frame hd _ _)

lemma collect : Orderly host W s (collect : HeapM ε Collection) := by
  intro h
  rw [HeapM.collect, attempt]
  cases hc : Heap.collect h with
  | ok p => exact .of_sameFrame (.single (.collect hc)) (.collectKeeping hc)
  | error c => exact Stops.of_not (ofArena_collectKeeping hc).not_disorder

/-! ## Lists -/

lemma list (vs : List Handle) : Orderly host W s (list vs) :=
  .rootedAll vs (.foldrM (fun _ _ => cons _ _) vs _)

lemma append (front back : Handle) : Orderly host W s (append front back) := by
  refine .ite (fun _ => .pure _) fun _ => .bind (items? front) fun vs => ?_
  cases vs with
  | none => exact raise _ _
  | some vs =>
    refine .rooted fun _ => .rooted fun result => .bind (.forM (fun v => ?_) _) fun _ => contents _
    exact .bind (contents result) fun _ => .bind (cons _ _) fun _ => store (.inr rfl) _

/-! ## Environments -/

lemma makeFrame (parent : Option Handle) (names values : Handle) :
    Orderly host W s (makeFrame parent names values) := alloc rfl

/-- The new frame becomes the current one. -/
lemma pushFrame (names values : Handle) : Orderly host W True (pushFrame names values) :=
  .bind currentEnv fun _ => .bind (makeFrame _ _ _) fun _ => .bind (switchEnv _) fun _ => .pure _

lemma find? (env symbol : Handle) :
    Orderly host W s (find? env symbol : HeapM ε (Option Handle)) := by
  refine .bind (.inspect fun _ _ => observed_slotFrom _ _) fun slot => ?_
  cases slot with
  | some slot => exact .bind (.bind (expect _ _ _) fun _ => .pure _) fun _ => .pure _
  | none => exact .pure _

lemma unbound (symbol : Handle) : Orderly host W s (unbound symbol : EvalM α) :=
  .bind (expect _ _ _) fun _ => raise _ _

lemma lookup (env symbol : Handle) : Orderly host W s (lookup env symbol) := by
  refine .bind (find? env symbol) fun v => ?_
  cases v with
  | some v => exact .pure v
  | none => exact unbound symbol

lemma define (env symbol v : Handle) : Orderly host W s (define env symbol v) := by
  refine .bind (.inspect fun _ _ => observed_localSlot) fun slot => ?_
  cases slot with
  | some slot => exact .bind (setCar _ _) fun _ => .pure _
  | none =>
    refine .rooted fun _ => .rooted fun _ => .bind (expect _ _ _) fun _ => ?_
    refine .bind (cons _ _) fun _ => .rooted fun _ => .bind (cons _ _) fun _ => ?_
    exact .bind (setBindings _ _ _) fun _ => .pure _

lemma assign (env symbol v : Handle) : Orderly host W s (assign env symbol v) := by
  refine .bind (.inspect fun _ _ => observed_slotFrom _ _) fun slot => ?_
  cases slot with
  | some slot => exact .bind (setCar _ _) fun _ => .pure _
  | none => exact unbound symbol

/-! ## Expanding `let` -/

lemma splitBinding (complaint : String) (binding : Handle) :
    Orderly host W s (Let.splitBinding complaint binding) := by
  refine .bind (items? binding) fun parts => ?_
  split
  · refine .bind (hasType _ _) fun symbol => ?_
    exact .ite (fun _ => .pure _) fun _ => raise _ _
  · exact raise _ _

lemma splitBindings (complaint : String) (bindings : Handle) :
    Orderly host W s (Let.splitBindings complaint bindings) := by
  refine .bind (items? bindings) fun entries => ?_
  cases entries with
  | none => exact raise _ _
  | some entries =>
    refine .bind (.mapM (splitBinding complaint) entries) fun parts =>
      .bind (list _) fun names => ?_
    exact .rooted fun _ => .bind (list _) fun _ => .pure _

lemma expandPlain (kw : Keywords) (bindings body : Handle) :
    Orderly host W s (Let.expandPlain kw bindings body) := by
  refine .bind (hasType _ _) fun pair => .ite (fun _ => raise _ _) fun _ => ?_
  refine .bind (splitBindings _ _) fun parts => .rooted fun _ => .rooted fun _ => ?_
  exact .bind (cons _ _) fun _ => .bind (cons _ _) fun _ => cons _ _

lemma expandNamed (kw : Keywords) (name rest : Handle) :
    Orderly host W s (Let.expandNamed kw name rest) := by
  refine .bind (asPair rest) fun parts => ?_
  cases parts with
  | none => exact raise _ _
  | some parts =>
    refine .bind (hasType _ _) fun pair => .ite (fun _ => raise _ _) fun _ => ?_
    refine .bind (splitBindings _ _) fun parts => .rooted fun _ => .rooted fun _ => ?_
    refine .bind (cons _ _) fun _ => .rooted fun _ => .bind (cons _ _) fun _ => ?_
    exact .bind (cons _ _) fun _ => .bind (list _) fun _ => .bind (list _) fun _ => list _

lemma expand (kw : Keywords) (operands : Handle) : Orderly host W s (Let.expand kw operands) := by
  refine .bind (asPair operands) fun parts => ?_
  cases parts with
  | none => exact raise _ _
  | some parts =>
    refine .bind (hasType _ _) fun symbol => ?_
    exact .ite (fun _ => expandNamed _ _ _) fun _ => expandPlain _ _ _

end Orderly

end ArenaScheme
