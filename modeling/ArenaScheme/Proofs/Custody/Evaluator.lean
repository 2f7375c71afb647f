/-
# The evaluator is discreet

Making objects of what may be shown, looking at them and changing them is discreet, and that is all
that an evaluation does.  So it leaves objects alone that are in the custody of a slot of somebody
else, and it does not come to know of them, whether it returns a value or fails.  The procedures of
the host have to be discreet as well: whatever they work on they must have come by honestly, from
their arguments.
-/
import ArenaScheme.Proofs.Custody.Rules
import ArenaScheme.Proofs.Heeding.Searches
import ArenaScheme.Proofs.Heeding.Evaluator

namespace ArenaScheme

open Heap

variable {C : Custody} {ε α β : Type} {h k : Heap} {u v w : Handle} {d : Datum}

/-- Searches that start from what may be shown come upon nothing else. -/
lemma Custody.Guards.encloses (hg : C.Guards h) : h.Encloses C.Spares := .of_objects hg.parts

namespace Discreet

open HeapM

variable [Sparing ε] [Sparing α]

/-! ## Allocation -/

lemma alloc (hf : d.isFree = false) (hd : spared C.Spares d) : Discreet C (alloc d) := by
  intro h hg
  rw [HeapM.alloc]
  cases hp : h.prepare d.children with
  | error c => exact fun _ => trivial
  | ok k =>
    have hk := hg.prepare hp
    dsimp only
    cases k.free with
    | none => exact ⟨hk, C.spares_sentinel (by decide)⟩
    | some i =>
      dsimp only
      cases hc : k.claim i d with
      | ok l =>
        -- the cell was free, so it held nothing in custody
        obtain ⟨hn, hr⟩ := Rewritten.claim hc hf
        have hi := hk.spares_of_none hn
        exact ⟨hk.rewritten hr hi hd, hi⟩
      | error c => exact fun _ => trivial

/-! ## Inspection and mutation -/

lemma datum (hv : C.Spares v) : Discreet C (datum v : HeapM ε Datum) :=
  inspect fun _ _ hg hr => hg.encloses _ _ hv hr

lemma walkSpine (hv : C.Spares v) : Discreet C (walkSpine v : HeapM ε Walk) :=
  inspect fun _ _ hg hw => hg.encloses.of_walkSpine hv hw

/-- Changing an object after a look at it. -/
lemma expect_overwrite {wanted : DatumType} {part : Datum → Option β} {f : β → Datum}
    (hv : C.Spares v) (hn : ∀ a, (f a).isFree = false)
    (hp : ∀ d a, part d = some a → d.isFree = false ∧ (spared C.Spares d → spared C.Spares (f a))) :
    Discreet C (do overwrite v (f (← HeapM.expect wanted part v)) : HeapM ε Unit) := by
  intro h hg
  rw [HeapM.expect, bind_assoc, bind_apply, HeapM.datum, HeapM.inspect]
  cases hr : h.read v with
  | error c => exact fun _ => trivial
  | ok d =>
    dsimp only
    cases ha : part d with
    | none => exact fun _ => trivial
    | some a =>
      obtain ⟨hf, hs⟩ := hp d a ha
      have hd : h.object? v = some d := object?_eq_some.mpr ⟨cells_of_read hr, hf⟩
      exact ⟨hg.rewritten (.setCell hd (hn a)) hv (hs (hg.parts v d hv hd)), trivial⟩

lemma collect : Discreet C (collect : HeapM ε Collection) := by
  intro h hg
  rw [HeapM.collect, attempt]
  cases hc : Heap.collect h with
  | ok p => exact ⟨hg.collectKeeping hc, trivial⟩
  | error c => exact fun _ => trivial

end Discreet

/-! ## The evaluator -/

/-- Objects in custody are a concern of every action. -/
instance : Concern Custody where
  Spares := Custody.Spares
  Bars C i := i = C.slot
  Heeds C := Discreet C
  spares_sentinel C _ := C.spares_sentinel
  pure := Discreet.pure
  fail := Discreet.fail
  halt := Discreet.halt
  bind := Discreet.bind
  recover := Discreet.recover
  ensuring := Discreet.ensuring
  contents := Discreet.contents
  store := Discreet.store
  rooted := Discreet.rooted
  currentEnv := Discreet.currentEnv
  switchEnv := Discreet.switchEnv
  audited := fun _ hg => ⟨hg, trivial⟩
  alloc := Discreet.alloc
  datum := Discreet.datum
  walkSpine := Discreet.walkSpine
  nearestSlot _ he := Discreet.inspect fun _ _ hg hs => hg.encloses.of_slotFrom he hs
  localSlot _ he := Discreet.inspect fun _ _ hg hs => hg.encloses.of_localSlot he hs
  expect_overwrite := Discreet.expect_overwrite
  collect := Discreet.collect

/-- No procedure of the host does anything to objects in custody, whatever they are. -/
def HostDiscreet (host : Array HostProcedure) : Prop :=
  ∀ C : Custody, ∀ p ∈ host, ∀ args, C.Spares args → Discreet C (p args)

/-- A nested evaluation leaves alone what its caller keeps in custody. -/
lemma Discreet.nestedEval {ctx : Context} (hd : HostDiscreet ctx.host)
    (hk : Concern.SparesWords C ctx.keywords) (budget : Nat) {expr : Handle} (he : C.Spares expr) :
    Discreet C (Evaluator.nestedEval ctx budget expr) :=
  have hh : Concern.HostHeeds C ctx.host := hd C
  Concern.nestedEval hh hk budget expr he

end ArenaScheme
