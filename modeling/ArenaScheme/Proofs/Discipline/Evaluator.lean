/-
# The evaluator under watch

An evaluation takes its turns with a slot of its own and leaves all others alone.  A nested one also
returns to the frame that was current, whether it returns a value or fails; so does an evaluation in
a given environment, and so does the run of a text.
-/
import ArenaScheme.Interpreter
import ArenaScheme.Proofs.Discipline.Reading
import ArenaScheme.Proofs.Discipline.Steps

namespace ArenaScheme

open HeapM

/-- How an evaluation has parts of its expression evaluated. -/
def Evaluator.nestedEval (ctx : Context) (budget : Nat) : Nested := fun expr =>
  keepingEnv (runWith (loop ctx budget) expr)

lemma Evaluator.loop_succ (ctx : Context) (budget : Nat) (slot : Root) (focus : Focus) :
    loop ctx (budget + 1) slot focus = (do
      match ← turn ctx (nestedEval ctx budget) budget slot focus with
      | .done v => return v
      | .again focus => loop ctx budget slot focus) := rfl

variable {ε : Type} {ctx : Context} {W : Nat → Prop} {s : Prop}

/-- Evaluators that are orderly are related to themselves. -/
lemma Watching.of_orderly {host : Array HostProcedure} {w : Watch} {c : Halt} {nested : Nested}
    (hn : ∀ expr, Orderly host (fun _ => False) False (nested expr)) :
    Watching host w c nested nested := fun expr => .refl (hn expr)

namespace Orderly

lemma loop (hb : HostBalanced ctx.host) (budget : Nat) {slot : Root} (hs : W slot.slot)
    (focus : Focus) : Orderly ctx.host W True (Evaluator.loop ctx budget slot focus) := by
  induction budget generalizing W slot focus with
  | zero => exact .halt id
  | succ budget ih =>
    have hn : Watching ctx.host .anything .unfinished
        (Evaluator.nestedEval ctx budget) (Evaluator.nestedEval ctx budget) :=
      .of_orderly fun expr => .keepingEnv (.rooted fun _ => ih (.inr rfl) _)
    refine .bind (Watched.turn hb hn budget hs focus).orderly fun t => ?_
    cases t with
    | done v => exact .pure v
    | again focus => exact ih hs focus

lemma nestedEval (hb : HostBalanced ctx.host) (budget : Nat) (expr : Handle) :
    Orderly ctx.host W s (Evaluator.nestedEval ctx budget expr) :=
  .keepingEnv (.rooted fun _ => loop hb budget (.inr rfl) _)

lemma evaluate [Blame ε] (hb : HostBalanced ctx.host) (budget : Nat) (expr env : Handle) :
    Orderly ctx.host W s (Evaluator.evaluate ctx budget expr env : HeapM ε Handle) :=
  .recover (.keepingEnv (.bind (.setCurrentEnv env) fun _ =>
    .rooted fun _ => loop hb budget (.inr rfl) _))

lemma eval [Blame ε] (hb : HostBalanced ctx.host) (budget : Nat) (expr : Handle) :
    Orderly ctx.host W s (Evaluator.eval ctx budget expr : HeapM ε Handle) :=
  .bind .currentEnv fun _ => evaluate hb budget expr _

lemma readNext {host : Array HostProcedure} (scan : Scan) :
    Orderly host W s (mapError (HeapM.read scan) (·.failure)) := by
  intro h
  have hr : (HeapM.read scan h).Orderly host W s h := Orderly.read scan h
  rw [mapError]
  revert hr
  cases HeapM.read scan h with
  | ok a k => exact id
  | error e k => exact fun hr => ⟨hr.1, trivial⟩
  | halt c => exact id

lemma fail {host : Array HostProcedure} {α : Type} (failure : Failure) :
    Orderly host W s (HeapM.fail failure : HeapM Failure α) := fun h => ⟨.refl h, trivial⟩

lemma runData (hb : HostBalanced ctx.host) (budget : Nat) {last : Root} (hl : W last.slot)
    (data : Nat) (scan : Scan) :
    Orderly ctx.host W s (Interpreter.runData ctx budget last data scan) := by
  induction data generalizing scan with
  | zero => exact .halt id
  | succ data ih =>
    refine .bind (readNext scan) fun reading => ?_
    cases reading with
    | none => exact .contents last
    | some reading =>
      refine .bind (eval hb budget _) fun v => .bind (hasType _ _) fun failed => ?_
      refine .ite (fun _ => ?_) fun _ => .bind (.store hl v) fun _ => ih _
      exact .bind (.bind (.expect _ _ _) fun _ => .pure _) fun _ => fail _

lemma run (hb : HostBalanced ctx.host) (budget : Nat) (text : String) :
    Orderly ctx.host W s (Interpreter.run ctx budget text) :=
  .rooted fun _ => runData hb budget (.inr rfl) _ _

end Orderly

end ArenaScheme
