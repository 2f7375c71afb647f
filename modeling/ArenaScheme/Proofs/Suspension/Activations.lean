/-
# Suspended expressions

An expression is suspended while one of its parts is being evaluated.  What the evaluator still has
to do with it then is known to it by handles of further parts, and nothing but the root slot of the
expression keeps the collector from taking those away.  So it matters that they stay parts of the
expression: that nobody changes the pairs that lead to them.

An activation may have been asked for by another one, whose expression is suspended meanwhile, and
that one by a third.  So the slots of suspended expressions become more from one activation to those
that it asks for.  An activation leaves these expressions *intact* if neither its own turn nor any
turn of an activation that it gets to changes a pair in an expression that is suspended by then.  It
may well change other pairs, and even those of its own expression, once it has evaluated what it
needs of it.
-/
import ArenaScheme.Proofs.Discipline.Requests
import ArenaScheme.Proofs.Twin.Evaluator

namespace ArenaScheme

open Heap HeapM Evaluator Activation
open Twin (also)

variable {ctx : Context} {A B : Nat → Prop} {a z : Activation} {h k : Heap} {v : Handle}
  {budget : Nat} {focus : Focus} {sites : Set Site} {site : Site}

/-- The heap `k` has the parts of what the slots in `A` hold in `h`, as they are there. -/
def Heap.Upholds (A : Nat → Prop) (h k : Heap) : Prop := ∀ v, h.Part A v → k.pairAt v = h.pairAt v

lemma Heap.Part.mono (hA : ∀ i, A i → B i) (hv : h.Part A v) : h.Part B v :=
  hv.congr hA (fun _ _ _ hw => hw) fun _ _ => rfl

lemma Heap.Upholds.mono (hr : h.Upholds B k) (hA : ∀ i, A i → B i) : h.Upholds A k :=
  fun v hv => hr v (hv.mono hA)

namespace Activation

/-- An activation that another one gets to.  The slots in `A` hold the expressions that are
suspended when the one takes its turn, the slots in `B` those that are suspended when the other one
does. -/
inductive GetsTo (ctx : Context) : (Nat → Prop) → Activation → (Nat → Prop) → Activation → Prop
  | refl (A : Nat → Prop) (a : Activation) : GetsTo ctx A a A a
  /-- In a later turn. -/
  | again {A B : Nat → Prop} {a z : Activation} {budget : Nat} {focus : Focus} {h : Heap}
      (hb : a.budget = budget + 1) (ht : a.turn ctx (a.evaluator ctx) = .ok (.again focus) h)
      (hz : GetsTo ctx A ⟨budget, a.slot, focus, h⟩ B z) : GetsTo ctx A a B z
  /-- In an evaluation that it asks for, while its own expression is suspended. -/
  | inner {A B : Nat → Prop} {a z : Activation} {budget : Nat} {sites : Set Site} {site : Site}
      (hb : a.budget = budget + 1) (ha : a.Asks ctx sites site) (hr : site.heap.Roomy)
      (hz : GetsTo ctx (also A a.slot.slot) (startAt budget site) B z) : GetsTo ctx A a B z

lemma Follows.getsTo (hz : Follows ctx a z) (A : Nat → Prop) : ∃ B, GetsTo ctx A a B z := by
  induction hz generalizing A with
  | refl => exact ⟨A, .refl A _⟩
  | again hb ht _ ih =>
    obtain ⟨B, hB⟩ := ih A
    exact ⟨B, .again hb ht hB⟩
  | inner hb ha hr _ ih =>
    obtain ⟨B, hB⟩ := ih _
    exact ⟨B, .inner hb ha hr hB⟩

/-- Fewer slots are regarded. -/
lemma GetsTo.mono {A' : Nat → Prop} (hz : GetsTo ctx A a B z) (hA : ∀ i, A i → A' i) :
    ∃ B', GetsTo ctx A' a B' z ∧ ∀ i, B i → B' i := by
  induction hz generalizing A' with
  | refl => exact ⟨A', .refl A' _, hA⟩
  | again hb ht _ ih =>
    obtain ⟨B', hz, hB⟩ := ih hA
    exact ⟨B', .again hb ht hz, hB⟩
  | @inner A B a z budget sites site hb ha hr _ ih =>
    have halso : ∀ i, also A a.slot.slot i → also A' a.slot.slot i := fun i hi => hi.imp_left (hA i)
    obtain ⟨B', hz, hB⟩ := ih halso
    exact ⟨B', .inner hb ha hr hz, hB⟩

/-- No turn, whether of this activation or of one that it gets to, changes an expression that is
suspended at the time. -/
def Intact (ctx : Context) (A : Nat → Prop) (a : Activation) : Prop :=
  ∀ B z, GetsTo ctx A a B z → (z.turn ctx (z.evaluator ctx)).Leaving (z.heap.Upholds B)

namespace Intact

variable (hi : a.Intact ctx A)

include hi

lemma turn : (a.turn ctx (a.evaluator ctx)).Leaving (a.heap.Upholds A) := hi A a (.refl A a)

lemma getsTo (hz : GetsTo ctx A a B z) : z.Intact ctx B := by
  induction hz with
  | refl => exact hi
  | again hb ht _ ih => exact ih fun B z hz => hi B z (.again hb ht hz)
  | inner hb ha hr _ ih => exact ih fun B z hz => hi B z (.inner hb ha hr hz)

lemma again (hb : a.budget = budget + 1)
    (ht : a.turn ctx (a.evaluator ctx) = .ok (.again focus) h) :
    Intact ctx A ⟨budget, a.slot, focus, h⟩ := hi.getsTo (.again hb ht (.refl _ _))

lemma inner (hb : a.budget = budget + 1) (ha : a.Asks ctx sites site) (hr : site.heap.Roomy) :
    Intact ctx (also A a.slot.slot) (startAt budget site) := hi.getsTo (.inner hb ha hr (.refl _ _))

lemma mono {A' : Nat → Prop} (hA : ∀ i, A' i → A i) : a.Intact ctx A' := fun B z hz => by
  obtain ⟨B', hz', hB⟩ := hz.mono hA
  exact (hi B' z hz').mono fun k hk => hk.mono hB

end Intact

/-- It is enough if the turn leaves them intact, and what follows it does, and so does every
evaluation that it asks for. -/
lemma intact_of_turn (ht : (a.turn ctx (a.evaluator ctx)).Leaving (a.heap.Upholds A))
    (hagain : ∀ budget focus h, a.budget = budget + 1 →
      a.turn ctx (a.evaluator ctx) = .ok (.again focus) h → Intact ctx A ⟨budget, a.slot, focus, h⟩)
    (hinner : ∀ budget sites site, a.budget = budget + 1 → a.Asks ctx sites site → site.heap.Roomy →
      Intact ctx (also A a.slot.slot) (startAt budget site)) : a.Intact ctx A := fun B z hz => by
  cases hz with
  | refl => exact ht
  | again hb ht hz => exact hagain _ _ _ hb ht B z hz
  | inner hb ha hr hz => exact hinner _ _ _ hb ha hr B z hz

end Activation

/-! ## Evaluation by turns -/

section Loops

variable {L M : Root → Focus → EvalM Handle} {expr env : Handle}

/-- How an evaluation by turns comes out depends on its turns only. -/
lemma keepingEnv_congr (hl : h.Roomy → L ⟨h.roots.size + 1⟩ .expr
    (start 0 expr h.currentEnv h).heap =
      M ⟨h.roots.size + 1⟩ .expr (start 0 expr h.currentEnv h).heap) :
    keepingEnv (runWith L expr) h = keepingEnv (runWith M expr) h := by
  have hsize : (h.roots.push h.currentEnv).size = h.roots.size + 1 := Array.size_push _
  refine rooted_congr fun _ => ?_
  have hrun : runWith L expr { h with roots := h.roots.push h.currentEnv } =
      runWith M expr { h with roots := h.roots.push h.currentEnv } := by
    refine rooted_congr fun hlt => ?_
    dsimp only at hlt ⊢
    rw [hsize] at hlt ⊢
    exact hl hlt
  rw [ensuring, ensuring, hrun]

/-- So does one that begins with a switch to an environment. -/
lemma keepingEnv_switch_congr (hl : h.Roomy → L ⟨h.roots.size + 1⟩ .expr (start 0 expr env h).heap =
      M ⟨h.roots.size + 1⟩ .expr (start 0 expr env h).heap) :
    keepingEnv (do setCurrentEnv env; runWith L expr) h =
      keepingEnv (do setCurrentEnv env; runWith M expr) h := by
  have hsize : (h.roots.push h.currentEnv).size = h.roots.size + 1 := Array.size_push _
  refine rooted_congr fun _ => ?_
  have hrun : (do setCurrentEnv env; runWith L expr : EvalM Handle)
      { h with roots := h.roots.push h.currentEnv } =
      (do setCurrentEnv env; runWith M expr : EvalM Handle)
      { h with roots := h.roots.push h.currentEnv } := by
    rcases setCurrentEnv_cases (ε := Handle) #[] env
      { h with roots := h.roots.push h.currentEnv } with
      hs | ⟨c, hs, -⟩
    · rw [bind_of_ok hs, bind_of_ok hs]
      refine rooted_congr fun hlt => ?_
      dsimp only at hlt ⊢
      rw [hsize] at hlt ⊢
      exact hl hlt
    · rw [bind_of_halt hs, bind_of_halt hs]
  rw [ensuring, ensuring, hrun]

end Loops

/-! ## Calm evaluation -/

open Classical in
/-- Take turns if that leaves all suspended expressions intact; otherwise there is no budget. -/
noncomputable def Evaluator.calm (ctx : Context) (A : Nat → Prop) (budget : Nat) (slot : Root)
    (focus : Focus) : EvalM Handle := fun h =>
  if ∀ n, budget = n + 1 → Intact ctx A ⟨n, slot, focus, h⟩ then loop ctx budget slot focus h
  else .halt .unfinished

/-- Evaluate calmly, and return to the current frame. -/
noncomputable def Evaluator.calmEval (ctx : Context) (A : Nat → Prop) (budget : Nat) : Nested :=
  fun expr => keepingEnv (runWith (calm ctx A budget) expr)

/-- Calm turns are turns like any others if the first activation leaves all suspended expressions
intact. -/
lemma calm_of_intact {slot : Root} (hi : ∀ n, budget = n + 1 → Intact ctx A ⟨n, slot, focus, h⟩) :
    calm ctx A budget slot focus h = loop ctx budget slot focus h := if_pos hi

/-- So is a calm evaluation. -/
lemma calmEval_of_intact
    (hi : ∀ n, budget = n + 1 → site.heap.Roomy → Intact ctx A (startAt n site)) :
    calmEval ctx A budget site.expr site.heap = nestedEval ctx budget site.expr site.heap :=
  keepingEnv_congr fun hr => calm_of_intact fun n hb => hi n hb hr

/-- So is a calm evaluation that begins with a switch to an environment. -/
lemma keepingEnv_calm {expr env : Handle}
    (hi : ∀ n, budget = n + 1 → h.Roomy → Intact ctx A (start n expr env h)) :
    keepingEnv (do setCurrentEnv env; runWith (calm ctx A budget) expr) h =
      keepingEnv (do setCurrentEnv env; runWith (loop ctx budget) expr) h :=
  keepingEnv_switch_congr fun hr => calm_of_intact fun n hb => hi n hb hr

end ArenaScheme
