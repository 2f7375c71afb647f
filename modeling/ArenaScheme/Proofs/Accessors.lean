/-
# What accessors come to

On a cell that holds an object of the right type, looking at the object and changing it cannot halt.
-/
import ArenaScheme.Proofs.Walks

namespace ArenaScheme

namespace HeapM

open Heap

variable {ε α : Type} {h : Heap} {v x c : Handle} {d : Datum}

/-! ## Objects -/

lemma datum_apply (hd : h.object? v = some d) : (datum v : HeapM ε Datum) h = .ok d h := by
  rw [datum, inspect, read_of_object? hd]

lemma typeOf_apply (hd : h.object? v = some d) :
    (typeOf v : HeapM ε DatumType) h = .ok d.type h := by
  rw [typeOf, bind_of_ok (datum_apply hd)]
  rfl

lemma hasType_apply (hd : h.object? v = some d) (t : DatumType) :
    (hasType t v : HeapM ε Bool) h = .ok (d.type == t) h := by
  rw [hasType, bind_of_ok (typeOf_apply hd)]
  rfl

lemma asPair_apply (hd : h.object? v = some d) :
    (asPair v : HeapM ε (Option (Handle × Handle))) h = .ok d.pair? h := by
  rw [asPair, bind_of_ok (datum_apply hd)]
  rfl

lemma asPair_of_isLive (hl : h.isLive v = true) :
    (asPair v : HeapM ε (Option (Handle × Handle))) h = .ok (h.pairAt v) h := by
  obtain ⟨d, hd⟩ := isLive_iff.mp hl
  rw [asPair_apply hd, pairAt, hd, Option.bind_some]

lemma expect_apply (hd : h.object? v = some d) (wanted : DatumType)
    {part : Datum → Option α} {x : α}
    (hp : part d = some x) : (expect wanted part v : HeapM ε α) h = .ok x h := by
  rw [expect, bind_of_ok (datum_apply hd), hp]
  rfl

/-! ## Pairs -/

lemma pairParts_apply (hp : h.pairAt v = some (x, c)) :
    (pairParts v : HeapM ε (Handle × Handle)) h = .ok (x, c) h :=
  expect_apply (pairAt_eq_some.mp hp) .pair rfl

lemma car_apply (hp : h.pairAt v = some (x, c)) : (car v : HeapM ε Handle) h = .ok x h := by
  rw [car, bind_of_ok (pairParts_apply hp)]
  rfl

lemma cdr_apply (hp : h.pairAt v = some (x, c)) : (cdr v : HeapM ε Handle) h = .ok c h := by
  rw [HeapM.cdr, bind_of_ok (pairParts_apply hp)]
  rfl

lemma setCar_apply (hp : h.pairAt v = some (x, c)) (w : Handle) :
    (setCar v w : HeapM ε Unit) h = .ok () (h.setCell v.index (.pair w c)) := by
  rw [setCar, bind_of_ok (pairParts_apply hp)]
  rfl

lemma setCdr_apply (hp : h.pairAt v = some (x, c)) (w : Handle) :
    (setCdr v w : HeapM ε Unit) h = .ok () (h.setCell v.index (.pair x w)) := by
  rw [setCdr, bind_of_ok (pairParts_apply hp)]
  rfl

/-! ## Frames -/

lemma frameParts_apply {p : Option Handle} {names values : Handle}
    (hd : h.object? v = some (.frame p names values)) :
    (frameParts v : HeapM ε _) h = .ok (p, names, values) h := expect_apply hd .environment rfl

lemma setBindings_apply {p : Option Handle} {names values : Handle}
    (hd : h.object? v = some (.frame p names values)) (names' values' : Handle) :
    (setBindings v names' values' : HeapM ε Unit) h =
      .ok () (h.setCell v.index (.frame p names' values')) := by
  rw [setBindings, bind_of_ok (frameParts_apply hd)]
  rfl

lemma setCurrentEnv_frame {p : Option Handle} {names values : Handle}
    (hd : h.object? v = some (.frame p names values)) :
    (setCurrentEnv v : HeapM ε Unit) h = .ok () { h with currentEnv := v } := by
  rw [setCurrentEnv, bind_apply, observe]
  dsimp only
  split
  · rw [bind_of_ok (hasType_apply hd .environment)]
    rfl
  · rfl

end HeapM

end ArenaScheme
