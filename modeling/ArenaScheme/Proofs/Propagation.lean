/-
# Failures propagate

An evaluation that fails takes all the evaluations with it that have asked for it, however deeply it
is nested in them.  Each of them fails with the same error, and on the way up nothing happens but
that root slots are released and that the current frame is restored: no further expression is
evaluated, no cell is allocated or changed, and there is no collection.

Nothing roots the error object meanwhile, and nothing has to.  Errors are handles of error objects
in the heap in which they are raised, so the failure that a run reports has the kind and the message
that the error was raised with.

All this is about heaps that are not audited, as those of a program built without its assertions
are.  On an audited heap restoring the current frame is one more check: that the object to be
restored is still a frame.
-/
import ArenaScheme.Proofs.Balance

namespace ArenaScheme

open Heap HeapM Evaluator

/-- What is demanded of the procedures of the host. -/
structure HostLawful (host : Array HostProcedure) : Prop where
  balanced : HostBalanced host
  unaudited : HostPreserves host (·.audited = false)
  exhausted : HostPreserves host (·.object? .outOfMemory = some .exhausted)

lemma Heap.Unwound.audited {k l : Heap} (hu : l.Unwound k) : k.audited = l.audited := by
  rw [hu]

lemma Heap.Unwound.object? {k l : Heap} (hu : l.Unwound k) (v : Handle) :
    k.object? v = l.object? v := by
  rw [hu]
  rfl

variable {ctx : Context} {a z : Activation} {budget : Nat} {expr env e : Handle} {h k l : Heap}
  {sites : Set Site} {site : Site}

/-! ## Unwinding -/

lemma setCurrentEnv_of_not_audited (ha : h.audited = false) :
    (setCurrentEnv env : EvalM Unit) h = .ok () { h with currentEnv := env } := by
  have hn : ¬ h.audited = true := by simp [ha]
  simp only [setCurrentEnv, bind_apply, observe, if_neg hn]
  rfl

/-- An evaluation that returns to the frame that was current. -/
lemma keepingEnv_of_error {x : EvalM Handle} (hr : h.roots.size < h.rootSlots)
    (hx : x { h with roots := h.roots.push h.currentEnv } = .error e k)
    (hk : k.roots.size = h.roots.size + 1) (ha : k.audited = false) :
    ∃ k', keepingEnv x h = .error e k' ∧ k.Unwound k' := by
  have henv : (setCurrentEnv h.currentEnv : EvalM Unit) k =
      .ok () { k with currentEnv := h.currentEnv } := setCurrentEnv_of_not_audited ha
  refine ⟨_, rooted_of_error (k := { k with currentEnv := h.currentEnv }) hr ?_ hk, rfl⟩
  rw [ensuring, hx]
  dsimp only
  rw [henv]

namespace Activation

lemma orderly_outcome (hb : HostBalanced ctx.host) (a : Activation) :
    (a.outcome ctx).Orderly ctx.host (· = a.slot.slot) True a.heap :=
  Orderly.loop (W := (· = a.slot.slot)) hb (a.budget + 1) rfl a.focus a.heap

/-- Holding the expression of an evaluation that fails. -/
lemma runWith_of_error (hb : HostBalanced ctx.host) (hr : h.Roomy)
    (ho : (start budget expr env h).outcome ctx = .error e k) :
    runWith (loop ctx (budget + 1)) expr
        { h with roots := h.roots.push h.currentEnv, currentEnv := env } =
      .error e { k with roots := k.roots.pop } ∧ k.roots.size = h.roots.size + 2 := by
  have hord := orderly_outcome hb (start budget expr env h)
  rw [ho] at hord
  have hk : k.roots.size = h.roots.size + 2 := by
    have := hord.1.depth
    simpa [start] using this
  have hs : (h.roots.push h.currentEnv).size = h.roots.size + 1 := Array.size_push _
  refine ⟨rooted_of_error (h := { h with roots := h.roots.push h.currentEnv, currentEnv := env })
    (by rw [hs]; exact hr) ?_ (by rw [hs]; exact hk), hk⟩
  rw [hs]
  exact ho

/-- A nested evaluation fails as its first activation does. -/
lemma nestedEval_of_start (hb : HostBalanced ctx.host) (hr : site.heap.Roomy)
    (ho : (startAt budget site).outcome ctx = .error e k) (ha : k.audited = false) :
    ∃ k', nestedEval ctx (budget + 1) site.expr site.heap = .error e k' ∧ k.Unwound k' := by
  obtain ⟨hrun, hk⟩ := runWith_of_error hb hr ho
  obtain ⟨k', hk', hu⟩ := keepingEnv_of_error (Nat.lt_of_succ_lt hr) hrun
    (by rw [Array.size_pop, hk]; rfl) ha
  exact ⟨k', hk', hu⟩

lemma start_edits (host : Array HostProcedure) (budget : Nat) (expr env : Handle) (h : Heap) :
    Edits host h (start budget expr env h).heap :=
  (Relation.ReflTransGen.single (.roots h ((h.roots.push h.currentEnv).push expr))).tail
    (.currentEnv { h with roots := (h.roots.push h.currentEnv).push expr } env)

/-- What an activation gets to has come from its heap. -/
lemma Follows.edits (hb : HostBalanced ctx.host) (hz : Follows ctx a z) :
    Edits ctx.host a.heap z.heap := by
  induction hz with
  | refl a => exact .refl
  | @again a z budget focus h _ ht _ ih =>
    have hord := orderly_turn hb a
    rw [ht] at hord
    exact hord.edits.trans ih
  | inner _ ha _ _ ih => exact ((ha.origin hb).2.trans (start_edits _ _ _ _ _)).trans ih

/-- An activation fails with the failure of an activation that it gets to. -/
lemma Follows.fails (hh : HostLawful ctx.host) (hz : Follows ctx a z) (ha : a.heap.audited = false)
    (ho : z.outcome ctx = .error e l) : ∃ k, a.outcome ctx = .error e k ∧ l.Unwound k := by
  have hb := hh.balanced
  induction hz with
  | refl a => exact ⟨l, ho, .refl l⟩
  | @again a z budget focus h hbud ht hz ih =>
    rw [outcome_of_again hbud ht]
    have he : Follows ctx a ⟨budget, a.slot, focus, h⟩ := .again hbud ht (.refl _)
    exact ih (Edits.audited hh.unaudited (he.edits hb) ha) ho
  | @inner a z budget sites site hbud hq hr hz ih =>
    have haud : (startAt budget site).heap.audited = false :=
      Edits.audited hh.unaudited ((hq.origin hb).2.trans (start_edits _ _ _ _ _)) ha
    obtain ⟨k, hk, hu⟩ := ih haud ho
    have hord := orderly_outcome hb (startAt budget site)
    rw [hk] at hord
    have hka : k.audited = false := Edits.audited hh.unaudited hord.1.edits haud
    obtain ⟨k', hk', hu'⟩ := nestedEval_of_start hb hr hk hka
    obtain ⟨m, -, hm, hum⟩ := hq.fails hb (e := e) (l := k') (by rw [evaluator, hbud]; exact hk')
    exact ⟨m, outcome_of_error hm, (hu.trans hu').trans hum⟩

/-- The evaluation at a site that `a` asks for is the one at `site'` that `z` asks for, or it gets
to it. -/
def Encloses (ctx : Context) (a : Activation) (site : Site) (z : Activation) (site' : Site) :
    Prop :=
  (a = z ∧ site = site') ∨
    ∃ budget, a.budget = budget + 1 ∧ site.heap.Roomy ∧ Follows ctx (startAt budget site) z

end Activation

open Activation

/-! ## Runs -/

/-- The run of a text gets from one datum to another one if all the data before that have values. -/
inductive Passes (ctx : Context) (budget : Nat) (last : Root) :
    Nat → Scan → Heap → Nat → Scan → Heap → Prop
  | refl (data : Nat) (scan : Scan) (h : Heap) : Passes ctx budget last data scan h data scan h
  | next {data data' : Nat} {scan scan' : Scan} {reading : Reading} {v : Handle} {h i j k h' : Heap}
      (hread : HeapM.read scan h = .ok (some reading) i)
      (hv : (Evaluator.eval ctx budget reading.datum i : Outcome Failure Handle) = .ok v j)
      (ht : (hasType .error v j : Outcome Failure Bool) = .ok false j)
      (hs : (store last v j : Outcome Failure Unit) = .ok () k)
      (hp : Passes ctx budget last data reading.rest k data' scan' h') :
      Passes ctx budget last (data + 1) scan h data' scan' h'

lemma mapError_read_of_ok {scan : Scan} {reading : Option Reading}
    (hr : HeapM.read scan h = .ok reading k) :
    (mapError (HeapM.read scan) (·.failure) : HeapM Failure (Option Reading)) h =
      .ok reading k := by
  rw [mapError, hr]

end ArenaScheme
