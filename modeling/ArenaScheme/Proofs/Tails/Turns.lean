/-
# The root stack from turn to turn

An evaluation holds its expression in one root slot, the next one after those that were occupied
when it began.  In each turn a step is made on what is in this slot, and the expression or the body
that the step says is to be evaluated instead is put there.  The step may occupy further slots, but
it gives them up again.

So at the start of each turn there is this one slot more, it holds what is to be evaluated, and all
other slots are as they were; and it does not matter how many turns there have been, or what they
were about.
-/
import ArenaScheme.Proofs.Discipline.Activations

namespace ArenaScheme

open Heap HeapM Evaluator

/-- Putting something else into the last slot. -/
lemma setIfInBounds_push {α : Type} (xs : Array α) (a b : α) :
    (xs.push a).setIfInBounds xs.size b = xs.push b := by
  refine Array.ext_getElem? fun i => ?_
  simp only [Array.getElem?_setIfInBounds, Array.getElem?_push, Array.size_push]
  split
  · next he => simp [← he]
  · next he => rw [if_neg (Ne.symm he), if_neg (Ne.symm he)]

/-- The slot after the next one. -/
lemma getElem?_push_push {α : Type} (xs : Array α) (a b : α) :
    ((xs.push a).push b)[xs.size + 1]? = some b := by
  have hsize : (xs.push a).size = xs.size + 1 := Array.size_push a
  rw [← hsize, Array.getElem?_push_size]

/-- The step that says to evaluate an expression, or a body. -/
def Focus.next : Focus → Handle → Step
  | .expr, v => .eval v
  | .body, v => .body v

namespace Activation

variable {ctx : Context} {n : Nat} {expr u v : Handle} {h k l : Heap} {a z : Activation}

/-- The first turn of the evaluation of an expression. -/
def enter (n : Nat) (expr : Handle) (h : Heap) : Activation where
  budget := n
  slot := ⟨h.roots.size⟩
  focus := .expr
  heap := { h with roots := h.roots.push expr }

/-- A later turn of the same evaluation. -/
inductive Leads (ctx : Context) (a : Activation) : Activation → Prop
  | refl : Leads ctx a a
  | again {y : Activation} {budget : Nat} {focus : Focus} {l : Heap} (hy : Leads ctx a y)
      (hb : y.budget = budget + 1) (ht : y.turn ctx (y.evaluator ctx) = .ok (.again focus) l) :
      Leads ctx a ⟨budget, y.slot, focus, l⟩

/-- What a turn is about: the expression that the evaluation began with, or what the step of the
turn before said was to be evaluated instead. -/
inductive Concerns (ctx : Context) (n : Nat) (expr : Handle) (h : Heap) : Activation → Handle → Prop
  | first : Concerns ctx n expr h (enter n expr h) expr
  | next {y : Activation} {u v : Handle} {budget : Nat} {focus : Focus} {k l : Heap}
      (hy : Concerns ctx n expr h y u) (hb : y.budget = budget + 1)
      (hs : step ctx (y.evaluator ctx) y.budget y.focus u y.heap = .ok (focus.next v) k)
      (ht : y.turn ctx (y.evaluator ctx) = .ok (.again focus) l) :
      Concerns ctx n expr h ⟨budget, y.slot, focus, l⟩ v

/-- Evaluating an expression is taking turns with it in a slot of its own. -/
lemma runWith_apply (hroom : h.roots.size < h.rootSlots) (n : Nat) (expr : Handle) :
    runWith (loop ctx (n + 1)) expr h =
      ensuring (fun _ => (enter n expr h).outcome ctx)
        (do let _ ← release ⟨h.roots.size⟩) { h with roots := h.roots.push expr } := by
  rw [runWith, rooted, bind_of_ok (acquire_apply hroom expr)]
  rfl

/-- What follows a turn is the outcome. -/
lemma Leads.outcome_eq (hz : Leads ctx a z) : a.outcome ctx = z.outcome ctx := by
  induction hz with
  | refl => rfl
  | again _ hb ht ih => exact ih.trans (outcome_of_again hb ht)

/-- A step gives up the slots that it occupies. -/
lemma roots_of_step (hb : HostBalanced ctx.host) {s : Step}
    (hs : step ctx (a.evaluator ctx) a.budget a.focus v a.heap = .ok s k) :
    k.roots = a.heap.roots := by
  have hn : Watching ctx.host .anything .unfinished (a.evaluator ctx) (a.evaluator ctx) :=
    .of_orderly (orderly_evaluator hb a)
  have horderly : Orderly ctx.host (fun _ => False) True
      (step ctx (a.evaluator ctx) a.budget a.focus v) := by
    cases a.focus with
    | expr => exact (Watched.ofExpr hb hn a.budget v).orderly
    | body => exact (Watched.ofBody hn a.budget v).orderly
  have hrestores := horderly a.heap
  rw [hs] at hrestores
  exact Restores.roots hrestores

/-- A turn that is not the last one puts into the slot what its step says. -/
lemma exists_step_of_turn (hv : a.heap.roots[a.slot.slot]? = some u) {focus : Focus}
    (ht : a.turn ctx (a.evaluator ctx) = .ok (.again focus) l) :
    ∃ v k, step ctx (a.evaluator ctx) a.budget a.focus u a.heap = .ok (focus.next v) k ∧
      l = { k with roots := k.roots.setIfInBounds a.slot.slot v } := by
  rw [Activation.turn, Evaluator.turn, bind_of_ok (contents_apply hv)] at ht
  obtain ⟨s, k, hs, hk⟩ := bind_eq_ok.mp ht
  have hstore : ∀ {w focus'}, (do store a.slot w; return Turn.again focus' : EvalM Turn) k =
      .ok (.again focus) l → focus' = focus ∧
      l = { k with roots := k.roots.setIfInBounds a.slot.slot w } := by
    intro w focus' hst
    obtain ⟨_, m, hm, hpure⟩ := bind_eq_ok.mp hst
    unfold store at hm
    split at hm
    · obtain ⟨-, rfl⟩ := Outcome.ok.inj hm
      obtain ⟨hf, rfl⟩ := Outcome.ok.inj hpure
      exact ⟨Turn.again.inj hf, rfl⟩
    · cases hm
  cases s with
  | done w => cases hk
  | eval w =>
    obtain ⟨rfl, rfl⟩ := hstore hk
    exact ⟨w, k, hs, rfl⟩
  | body w =>
    obtain ⟨rfl, rfl⟩ := hstore hk
    exact ⟨w, k, hs, rfl⟩

/-- At the start of each turn the root stack has one slot more than at the beginning, which holds
what the turn is about. -/
lemma Leads.roots_eq (hb : HostBalanced ctx.host) (hz : Leads ctx (enter n expr h) z) :
    z.slot = ⟨h.roots.size⟩ ∧ ∃ v, Concerns ctx n expr h z v ∧ z.heap.roots = h.roots.push v := by
  -- a step gives up its slots, and the turn overwrites only its own
  induction hz with
  | refl => exact ⟨rfl, expr, .first, rfl⟩
  | @again y budget focus l _ hbudget ht ih =>
    obtain ⟨hslot, u, hu, hroots⟩ := ih
    have hcontents : y.heap.roots[y.slot.slot]? = some u := by
      rw [hroots, hslot, Array.getElem?_push_size]
    obtain ⟨v, k, hs, rfl⟩ := exists_step_of_turn hcontents ht
    refine ⟨hslot, v, .next hu hbudget hs ht, ?_⟩
    dsimp only
    rw [roots_of_step hb hs, hroots, hslot]
    exact setIfInBounds_push _ _ _

end Activation

end ArenaScheme
