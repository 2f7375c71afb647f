/-
# What an evaluation has evaluated

An evaluation takes turns, and a turn may have parts of its expression evaluated, each by turns of
its own.  Here are the words for that.  An *activation* is an evaluation at the beginning of a turn.
It *asks* for an evaluation if its turn comes to have that expression evaluated on that heap; this
can be told from what becomes of the turn when the evaluator halts there.  If the turn gets there
although the evaluator serves no other sites than some, then it asks for nothing else before.  And
an activation *follows* from another one if the other one gets to it, be it in a later turn or in an
evaluation that it asks for.

A turn asks for evaluations in the frame that is current when it begins, and in no other.
-/
import Mathlib.Data.Set.Insert
import ArenaScheme.Proofs.Discipline.Evaluator

namespace ArenaScheme

open Heap HeapM

/-- There is room in the root stack for what an evaluation holds: the frame to return to and the
expression. -/
def Heap.Roomy (h : Heap) : Prop := h.roots.size + 1 < h.rootSlots

/-- An evaluation that takes place: its expression and the heap at its beginning. -/
structure Site where
  expr : Handle
  heap : Heap

namespace Evaluator

open Classical in
/-- Evaluate at the given sites; for any other evaluation there is no budget. -/
noncomputable def onlyAt (nested : Nested) (sites : Set Site) : Nested := fun expr h =>
  if ⟨expr, h⟩ ∈ sites then nested expr h else .halt .unfinished

open Classical in
/-- Halt instead of evaluating at one site. -/
noncomputable def stopAt (nested : Nested) (site : Site) (c : Halt) : Nested := fun expr h =>
  if ⟨expr, h⟩ = site then .halt c else nested expr h

end Evaluator

open Evaluator

/-- An evaluation at the beginning of a turn: the budget for what comes after the turn, the slot
that holds the expression, what is in it, and the heap. -/
structure Activation where
  budget : Nat
  slot : Root
  focus : Focus
  heap : Heap

namespace Activation

/-- The turn that an activation takes, given an evaluator. -/
def turn (ctx : Context) (a : Activation) (nested : Nested) : Outcome Handle Turn :=
  Evaluator.turn ctx nested a.budget a.slot a.focus a.heap

/-- The end that an activation comes to. -/
def outcome (ctx : Context) (a : Activation) : Outcome Handle Handle :=
  loop ctx (a.budget + 1) a.slot a.focus a.heap

/-- The evaluator that serves an activation. -/
def evaluator (ctx : Context) (a : Activation) : Nested := nestedEval ctx a.budget

/-- An activation asks for the evaluation at `site` after some of those at `sites`: served at these
only, its turn halts where it is stopped at `site`, whatever the cause. -/
def Asks (ctx : Context) (a : Activation) (sites : Set Site) (site : Site) : Prop :=
  ∀ c, a.turn ctx (stopAt (onlyAt (a.evaluator ctx) sites) site c) = .halt c

/-- The first activation of an evaluation in an environment. -/
def start (budget : Nat) (expr env : Handle) (h : Heap) : Activation where
  budget
  slot := ⟨h.roots.size + 1⟩
  focus := .expr
  heap := { h with roots := (h.roots.push h.currentEnv).push expr, currentEnv := env }

/-- The first activation of the evaluation at a site. -/
def startAt (budget : Nat) (site : Site) : Activation :=
  start budget site.expr site.heap.currentEnv site.heap

/-- An activation that another one gets to. -/
inductive Follows (ctx : Context) : Activation → Activation → Prop
  | refl (a : Activation) : Follows ctx a a
  /-- In a later turn. -/
  | again {a z : Activation} {budget : Nat} {focus : Focus} {h : Heap} (hb : a.budget = budget + 1)
      (ht : a.turn ctx (a.evaluator ctx) = .ok (.again focus) h)
      (hz : Follows ctx ⟨budget, a.slot, focus, h⟩ z) : Follows ctx a z
  /-- In an evaluation that it asks for. -/
  | inner {a z : Activation} {budget : Nat} {sites : Set Site} {site : Site}
      (hb : a.budget = budget + 1) (ha : a.Asks ctx sites site) (hr : site.heap.Roomy)
      (hz : Follows ctx (startAt budget site) z) : Follows ctx a z

end Activation

variable {ctx : Context} {host : Array HostProcedure} {W : Nat → Prop} {s : Prop} {w : Watch}
  {c : Halt} {nested : Nested} {sites : Set Site} {site : Site} {a z : Activation} {e : Handle}
  {l : Heap}

/-! ## Evaluators that serve some sites only -/

lemma Orderly.onlyAt (hn : ∀ expr, Orderly host W s (nested expr)) (sites : Set Site)
    (expr : Handle) : Orderly host W s (onlyAt nested sites expr) := by
  intro h
  by_cases hm : (⟨expr, h⟩ : Site) ∈ sites
  · rw [Evaluator.onlyAt, if_pos hm]
    exact hn expr h
  · rw [Evaluator.onlyAt, if_neg hm]
    exact Stops.of_not id

/-- An evaluator that stops at one site is watched for what is evaluated there. -/
lemma watching_stopAt (hn : ∀ expr, Orderly host (fun _ => False) False (nested expr))
    (he : nested site.expr site.heap = .error e l) :
    Watching host (.failure e l) c (stopAt nested site c) nested := by
  refine fun expr => ⟨hn expr, fun h _ => ?_⟩
  by_cases hs : (⟨expr, h⟩ : Site) = site
  · subst hs
    exact .inr ⟨if_pos rfl, l, he, .refl l⟩
  · exact .inl (if_neg hs)

lemma watching_onlyAt (hn : ∀ expr, Orderly host (fun _ => False) False (nested expr))
    (sites : Set Site) : Watching host .anything .unfinished (onlyAt nested sites) nested := by
  refine fun expr => ⟨hn expr, fun h _ => ?_⟩
  by_cases hm : (⟨expr, h⟩ : Site) ∈ sites
  · exact .inl (if_pos hm)
  · exact .inr ⟨if_neg hm, trivial⟩

/-- Stopping at a site makes it irrelevant whether it is served. -/
lemma stopAt_onlyAt_insert (nested : Nested) (sites : Set Site) (site : Site) (c : Halt) :
    stopAt (onlyAt nested (insert site sites)) site c = stopAt (onlyAt nested sites) site c := by
  funext expr h
  by_cases hs : (⟨expr, h⟩ : Site) = site
  · rw [stopAt, stopAt, if_pos hs, if_pos hs]
  · rw [stopAt, stopAt, if_neg hs, if_neg hs, onlyAt, onlyAt]
    by_cases hm : (⟨expr, h⟩ : Site) ∈ sites
    · rw [if_pos hm, if_pos (Set.mem_insert_of_mem site hm)]
    · rw [if_neg hm, if_neg fun h => hm (Set.mem_of_mem_insert_of_ne h hs)]

namespace Activation

lemma orderly_evaluator (hb : HostBalanced ctx.host) (a : Activation) (expr : Handle) :
    Orderly ctx.host (fun _ => False) False (a.evaluator ctx expr) := .nestedEval hb _ _

/-- Two evaluators that are related make related turns. -/
lemma watched_turn (hb : HostBalanced ctx.host) {nested nested' : Nested}
    (hn : Watching ctx.host w c nested nested') (a : Activation) (hw : w.Admits ctx.host a.heap) :
    a.turn ctx nested = a.turn ctx nested' ∨
      a.turn ctx nested = .halt c ∧ w.Excuses (a.turn ctx nested') :=
  (Watched.turn (W := fun _ => True) hb hn a.budget trivial a.focus).agrees a.heap hw

lemma orderly_turn (hb : HostBalanced ctx.host) (a : Activation) :
    (a.turn ctx (a.evaluator ctx)).Orderly ctx.host (fun _ => True) True a.heap := by
  have hn : Watching ctx.host .anything .unfinished (a.evaluator ctx) (a.evaluator ctx) :=
    .of_orderly (orderly_evaluator hb a)
  exact (Watched.turn (W := fun _ => True) hb hn a.budget trivial a.focus).orderly a.heap

lemma outcome_of_error {h : Heap} (ht : a.turn ctx (a.evaluator ctx) = .error e h) :
    a.outcome ctx = .error e h := by
  rw [outcome, loop_succ]
  exact bind_of_error ht

lemma outcome_of_again {budget : Nat} {focus : Focus} {h : Heap} (hb : a.budget = budget + 1)
    (ht : a.turn ctx (a.evaluator ctx) = .ok (.again focus) h) :
    a.outcome ctx = outcome ctx ⟨budget, a.slot, focus, h⟩ := by
  rw [outcome, loop_succ, outcome, ← hb]
  exact bind_of_ok ht

/-! ## Where evaluations take place -/

/-- A turn asks for evaluations with the frame that is current when it begins, and on heaps that
have come from the one that it begins with. -/
lemma Asks.origin (hb : HostBalanced ctx.host) (ha : a.Asks ctx sites site) :
    site.heap.currentEnv = a.heap.currentEnv ∧ Edits ctx.host a.heap site.heap := by
  by_contra hsite
  have hn := Orderly.onlyAt (orderly_evaluator hb a) sites
  -- stopping at the site makes no difference where evaluations may take place
  have hsame : ∀ c, a.turn ctx (onlyAt (a.evaluator ctx) sites) = .halt c := fun c => by
    have hw : Watching ctx.host (.origin a.heap.currentEnv a.heap) c
        (stopAt (onlyAt (a.evaluator ctx) sites) site c) (onlyAt (a.evaluator ctx) sites) :=
      fun expr => ⟨hn expr, fun h hh => .inl (if_neg fun hs : (⟨expr, h⟩ : Site) = site =>
        hsite (by rw [← hs]; exact hh))⟩
    have := (watched_turn hb hw a ⟨rfl, .refl⟩).resolve_right fun hc => hc.2
    exact this.symm.trans (ha c)
  have := (hsame .unfinished).symm.trans (hsame .baseFrame)
  simp at this

/-! ## Failures on their way -/

/-- A turn fails with the failure of an evaluation that it asks for, and asks for no other. -/
lemma Asks.fails (hb : HostBalanced ctx.host) (ha : a.Asks ctx sites site)
    (he : a.evaluator ctx site.expr site.heap = .error e l) :
    ∃ k, a.turn ctx (onlyAt (a.evaluator ctx) (insert site sites)) = .error e k ∧
      a.turn ctx (a.evaluator ctx) = .error e k ∧ l.Unwound k := by
  have hn := orderly_evaluator hb a
  have hserved : onlyAt (a.evaluator ctx) (insert site sites) site.expr site.heap = .error e l :=
    (if_pos (Set.mem_insert _ _)).trans he
  have hstop : ∀ c, a.turn ctx (stopAt (onlyAt (a.evaluator ctx) (insert site sites)) site c) =
      .halt c := fun c => by
    rw [stopAt_onlyAt_insert]
    exact ha c
  obtain ⟨k, hk, hu⟩ : ∃ k, a.turn ctx (onlyAt (a.evaluator ctx) (insert site sites)) = .error e k ∧
      l.Unwound k := by
    have hcmp := fun c => watched_turn hb
      (watching_stopAt (c := c) (Orderly.onlyAt hn (insert site sites)) hserved) a trivial
    rcases hcmp .unfinished with h1 | h1
    · rcases hcmp .baseFrame with h2 | h2
      · rw [hstop] at h1 h2
        have := h1.trans h2.symm
        simp at this
      · exact h2.2
    · exact h1.2
  refine ⟨k, hk, ?_, hu⟩
  rcases watched_turn hb (watching_onlyAt hn (insert site sites)) a trivial with h1 | h1
  · exact h1.symm.trans hk
  · rw [hk] at h1
    simp at h1

end Activation

end ArenaScheme
