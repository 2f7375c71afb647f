/-
# Operands and the frame they are evaluated in

The operands of a combination are evaluated from left to right.  If the list of them is in custody,
then it does not matter what is done meanwhile: each operand that was there at first is evaluated
once.  And an evaluation returns to the frame that it started from, so that all of them are
evaluated in the same one.
-/
import ArenaScheme.Proofs.Garbage.Keeping
import ArenaScheme.Proofs.Applying.Elements

namespace ArenaScheme

open HeapM

namespace Application

/-- Evaluate an expression where names are looked up in the given environment. -/
def evalIn (nested : Nested) (env expr : Handle) : EvalM Handle := do
  switchEnv env
  nested expr

/-- Evaluate an expression and put its value at the end of a list, whose last pair is given.  The
result is the pair that is the last one now. -/
def appendValue (nested : Nested) (last expr : Handle) : EvalM Handle := do
  let cell ← cons (← nested expr) .emptyList
  setCdr last cell
  return cell

/-- Evaluate expressions one after the other, each of them in the given environment, and apply a
procedure to a new list of their values. -/
def callIn (host : Array HostProcedure) (nested : Nested) (env procedure : Handle)
    (exprs : List Handle) :
    EvalM Step := do
  let first ← cons procedure .emptyList
  let call ← rooted first fun head => do
    let _ ← exprs.foldlM (appendValue (evalIn nested env)) first
    contents head
  rooted call fun _ => do
    let (procedure, args) ← pairParts call
    apply host procedure args

end Application

open Application

lemma Concern.appendValue {ι : Type} [Concern ι] {C : ι} {nested : Nested} {last expr : Handle}
    (hn : Concern.Sparingly C nested) (hl : Spares C last) (he : Spares C expr) :
    Heeds C (appendValue nested last expr) :=
  bind (hn _ he) fun _ hv => bind (cons hv (spares_emptyList C)) fun _ hc =>
    bind (setCdr hl hc) fun _ _ => pure hc

namespace Heap

variable {C : Custody} {W : Waste} {ctx : Context} {h k l m : Heap} {es cells : List Handle}
  {env last operator operands p v : Handle} {n budget : Nat}

section Operands

variable (hb : HostBalanced ctx.host) (hd : HostDiscreet ctx.host) (hblind : HostBlind ctx.host)
  (hsent : HostPreserves ctx.host HasSentinels) (hwords : Concern.SparesWords C ctx.keywords)
include hb hd hblind hsent hwords

/-- The operands that are in custody are those that are evaluated, all of them in the frame that is
the current one at first. -/
lemma evalOperands_eq (hrow : k.Row .emptyList es cells operands)
    (hcells : ∀ c ∈ cells, C.objects c = k.object? c) (hes : ∀ e ∈ es, C.Spares e)
    (hbudget : es.length < budget) (hkeeps : C.Keeps W h)
    (hwaste : Concern.SparesWords W ctx.keywords) (hs : h.HasSentinels) (henv : h.currentEnv = env)
    (hlast : C.Spares last) (hlast' : W.Spares last) :
    evalOperands (Evaluator.nestedEval ctx n) budget last operands h =
      (do
        let _ ← es.foldlM (appendValue (evalIn (Evaluator.nestedEval ctx n) env)) last :
            EvalM Unit) h := by
  induction es generalizing h W last operands cells budget with
  | nil =>
    cases hrow
    obtain ⟨budget, rfl⟩ : ∃ b, budget = b + 1 := ⟨budget - 1, by omega⟩
    rw [evalOperands, bind_of_ok (asPair_apply hs.emptyList)]
    rfl
  | cons e es ih =>
    cases hrow with
    | @cons _ next _ _ cells hv hrow =>
    obtain ⟨hcell, hcells⟩ := List.forall_mem_cons.mp hcells
    obtain ⟨he, hes⟩ := List.forall_mem_cons.mp hes
    obtain ⟨budget, rfl⟩ : ∃ b, budget = b + 1 := ⟨budget - 1, by omega⟩
    rw [List.length_cons] at hbudget
    obtain ⟨hreach, hobj⟩ := hkeeps.kept (hcell.trans hv)
    have he' : W.Spares e := hkeeps.spares_of_reachable (by simp) (hreach.head hobj)
    -- in the current frame an expression is evaluated anyway
    have hhere : appendValue (evalIn (Evaluator.nestedEval ctx n) env) last e h =
        appendValue (Evaluator.nestedEval ctx n) last e h := by
      have hswitch : (switchEnv env : EvalM Unit) h = .ok () h := by
        subst henv
        rfl
      have hvalue : evalIn (Evaluator.nestedEval ctx n) env e h = Evaluator.nestedEval ctx n e h :=
        bind_of_ok hswitch
      rw [appendValue, appendValue, bind_apply, bind_apply, hvalue]
    have hstep : evalOperands (Evaluator.nestedEval ctx n) (budget + 1) last operands h =
        (do
          let tail ← appendValue (Evaluator.nestedEval ctx n) last e
          evalOperands (Evaluator.nestedEval ctx n) budget tail next) h := by
      rw [evalOperands, bind_of_ok (asPair_apply hobj)]
      simp only [appendValue, bind_assoc, pure_bind]
      rfl
    rw [hstep, List.foldlM_cons, bind_assoc, bind_apply, bind_apply, hhere]
    cases hrun : appendValue (Evaluator.nestedEval ctx n) last e h with
    | error e l => rfl
    | halt c => rfl
    | ok cell l =>
      have hdiscreet : Concern.Heeds C (appendValue (Evaluator.nestedEval ctx n) last e) :=
        Concern.appendValue (fun _ he => Discreet.nestedEval hd hwords n he) hlast he
      have hblind' : Concern.Heeds W (appendValue (Evaluator.nestedEval ctx n) last e) :=
        Concern.appendValue (fun _ he => Blind.nestedEval hblind hwaste n he) hlast' he'
      obtain ⟨W', hkeeps', hcell, hcell', hmono⟩ := hkeeps.run hdiscreet hblind' hrun
      have hback : Restores ctx.host (fun _ => False) False h l := by
        have horderly : Orderly ctx.host (fun _ => False) False
          (appendValue (Evaluator.nestedEval ctx n) last e) :=
          .bind (.nestedEval hb n e) fun _ => .bind (.cons _ _) fun _ =>
            .bind (.setCdr _ _) fun _ => .pure _
        have := horderly h
        rwa [hrun] at this
      exact ih hrow hcells hes (by omega) hkeeps'
        ⟨hmono _ hwaste.quote, hmono _ hwaste.quasiquote, hmono _ hwaste.lambda,
          hmono _ hwaste.definition⟩
        (hback.edits.hasSentinels hsent hs) ((hback.env id).trans henv) hcell hcell'

/-- Once the operator has been evaluated, a combination whose operands are in custody calls its
value with the list of the values of the operands, and these are evaluated in the frame that is the
current one now. -/
lemma ofCombination_eq (hrow : k.Row .emptyList es cells operands)
    (hcells : ∀ c ∈ cells, C.objects c = k.object? c) (hes : ∀ e ∈ es, C.Spares e)
    (hbudget : es.length < budget) (hrun : Evaluator.nestedEval ctx n operator k = .ok p h)
    (hkeeps : C.Keeps W h) (hwaste : Concern.SparesWords W ctx.keywords) (hs : h.HasSentinels)
    (hp : C.Spares p) (hp' : W.Spares p) :
    ofCombination ctx.host (Evaluator.nestedEval ctx n) budget operator operands k =
      callIn ctx.host (Evaluator.nestedEval ctx n) h.currentEnv p es h := by
  have hdiscreet : Concern.Heeds C (cons p .emptyList) :=
    Concern.cons hp (Concern.spares_emptyList C)
  have hblind' : Concern.Heeds W (cons p .emptyList) :=
    Concern.cons hp' (Concern.spares_emptyList W)
  rw [ofCombination, evalCombination, callIn]
  simp only [bind_assoc]
  rw [bind_of_ok hrun, bind_apply, bind_apply]
  cases hfirst : cons p .emptyList h with
  | error e l => rfl
  | halt c => rfl
  | ok first l =>
    obtain ⟨W', hkeeps', hfirst', hspare, hmono⟩ := hkeeps.run hdiscreet hblind' hfirst
    have hback : Restores ctx.host (fun _ => False) False h l := by
      have horderly : Orderly ctx.host (fun _ => False) False (cons p .emptyList) := .cons _ _
      have := horderly h
      rwa [hfirst] at this
    -- the first pair of the list is held while the others are put behind it
    have hops := evalOperands_eq hb hd hblind hsent hwords (n := n) hrow hcells hes hbudget
      (hkeeps'.push hfirst' hspare)
      ⟨hmono _ hwaste.quote, hmono _ hwaste.quasiquote, hmono _ hwaste.lambda,
        hmono _ hwaste.definition⟩
      (hback.edits.hasSentinels hsent hs) (hback.env id) hfirst' hspare
    have hcall : rooted first (fun head => do
          evalOperands (Evaluator.nestedEval ctx n) budget first operands
          contents head) l =
        rooted first (fun head => do
          let _ ← es.foldlM (appendValue (evalIn (Evaluator.nestedEval ctx n) h.currentEnv)) first
          contents head) l := by
      refine rooted_congr fun _ => ?_
      rw [bind_apply, hops, ← bind_apply, bind_assoc]
      rfl
    dsimp only
    rw [bind_apply, bind_apply, hcall]

end Operands

end Heap

end ArenaScheme
