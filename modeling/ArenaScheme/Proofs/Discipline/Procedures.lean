/-
# Orderly procedures

Every built-in procedure is orderly.  An error object among its arguments becomes its failure, so
that the errors of procedures are handles of error objects too.
-/
import ArenaScheme.Proofs.Discipline.Objects

namespace ArenaScheme

open Heap HeapM

variable {α : Type} {host : Array HostProcedure} {W : Nat → Prop} {s : Prop}

namespace Orderly

/-- Failing with an object that has been found to be an error object. -/
lemma failing {v : Handle} {x : EvalM α} (hx : Orderly host W s x) :
    Orderly host W s (do if ← HeapM.hasType .error v then fail v else x) := by
  simp only [HeapM.hasType, HeapM.typeOf, bind_assoc, pure_bind]
  refine .look (fun _ _ => observed_read) fun h d hd => ?_
  cases ht : d.type == .error with
  | true =>
    obtain ⟨kind, message, rfl⟩ : ∃ kind message, d = .error kind message := by
      cases d <;> simp_all [Datum.type]
    refine ⟨.refl h, .inr ⟨kind, message, object?_eq_some.mpr ⟨cells_of_read hd, rfl⟩⟩⟩
  | false => exact hx h

/-! ## Arguments -/

lemma arguments (args : Handle) : Orderly host W s (Builtin.arguments args) :=
  .bind (items? args) fun _ => .pure _

lemma wrongCount (b : Builtin) (wanted given : Nat) :
    Orderly host W s (b.wrongCount wanted given : EvalM α) := raise _ _

lemma wrongArgument (b : Builtin) (wanted : String) (v : Handle) :
    Orderly host W s (b.wrongArgument wanted v : EvalM α) :=
  .bind (typeOf v) fun _ => raise _ _

lemma passErrors (vs : List Handle) : Orderly host W s (Builtin.passErrors vs) :=
  .forM (fun _ => .failing (.pure _)) vs

lemma anyArgument (b : Builtin) (args : Handle) : Orderly host W s (b.anyArgument args) := by
  refine .bind (arguments args) fun vs => ?_
  split
  · exact .pure _
  · exact wrongCount _ _ _

lemma oneArgument (b : Builtin) (args : Handle) : Orderly host W s (b.oneArgument args) :=
  .bind (anyArgument b args) fun _ => .bind (passErrors _) fun _ => .pure _

lemma twoArguments (b : Builtin) (args : Handle) : Orderly host W s (b.twoArguments args) := by
  refine .bind (arguments args) fun vs => ?_
  split
  · exact .bind (passErrors _) fun _ => .pure _
  · exact wrongCount _ _ _

lemma noArgument (b : Builtin) (args : Handle) : Orderly host W s (b.noArgument args) := by
  refine .bind (arguments args) fun vs => ?_
  split
  · exact .pure _
  · exact wrongCount _ _ _

lemma manyArguments (b : Builtin) (least : Nat) (args : Handle) :
    Orderly host W s (b.manyArguments least args) :=
  .bind (arguments args) fun _ => .ite (fun _ => raise _ _) fun _ =>
    .bind (passErrors _) fun _ => .pure _

lemma numbers (b : Builtin) (least : Nat) (args : Handle) :
    Orderly host W s (b.numbers least args) := by
  refine .bind (manyArguments b least args) fun vs =>
    .mapM (fun v => .bind (datum v) fun d => ?_) vs
  split
  · exact .pure _
  · exact .pure _
  · exact wrongArgument _ _ _

lemma makeNumber (b : Builtin) (r : Except ArithmeticFault Num) :
    Orderly host W s (b.makeNumber r) := by
  unfold Builtin.makeNumber
  split
  · exact alloc rfl
  · exact alloc rfl
  · exact raise _ _
  · exact raise _ _

lemma calculate (b : Builtin) (rule : Num → List Num → Except ArithmeticFault Num) (args : Handle) :
    Orderly host W s (b.calculate rule args) := by
  refine .bind (numbers _ _ _) fun ns => ?_
  cases ns with
  | nil => exact .halt (by simp [Halt.Disorder])
  | cons => exact makeNumber _ _

lemma holdsOf (property : Property) (v : Handle) :
    Orderly host W s (Builtin.holdsOf property v) := by
  cases property with
  | null => exact .pure _
  | number => exact .bind (typeOf v) fun _ => .pure _
  | procedure => exact .bind (typeOf v) fun _ => .pure _
  | _ => exact hasType _ v

/-- Changing a pair if the first argument is one. -/
lemma changing (b : Builtin) (args : Handle) {change : Handle → Handle → EvalM Unit}
    (hc : ∀ pair v, Orderly host W s (change pair v)) :
    Orderly host W s (do
      let (pair, v) ← b.twoArguments args
      if ← HeapM.hasType .pair pair then
        change pair v
        return Handle.emptyList
      else b.wrongArgument "a pair" pair) :=
  .bind (twoArguments b args) fun _ => .bind (hasType _ _) fun _ =>
    .ite (fun _ => .bind (hc _ _) fun _ => .pure _) fun _ => wrongArgument _ _ _

lemma call (b : Builtin) (args : Handle) : Orderly host W s (b.call args) := by
  cases b with
  | add => exact .bind (numbers _ _ _) fun _ => makeNumber _ _
  | subtract => exact calculate _ _ _
  | multiply => exact .bind (numbers _ _ _) fun _ => makeNumber _ _
  | divide => exact calculate _ _ _
  | compare r => exact .bind (numbers _ _ _) fun _ => .pure _
  | car =>
    refine .bind (oneArgument _ _) fun x => .bind (asPair x) fun parts => ?_
    cases parts with
    | some parts => exact .pure _
    | none => exact wrongArgument _ _ _
  | cdr =>
    refine .bind (oneArgument _ _) fun x => .bind (asPair x) fun parts => ?_
    cases parts with
    | some parts => exact .pure _
    | none => exact wrongArgument _ _ _
  | cons => exact .bind (twoArguments _ _) fun _ => cons _ _
  | list => exact .bind (manyArguments _ _ _) fun _ => append _ _
  | length =>
    refine .bind (oneArgument _ _) fun x => .bind (length? x) fun n => ?_
    cases n with
    | some n => exact alloc rfl
    | none => exact wrongArgument _ _ _
  | setCar => exact changing _ _ setCar
  | setCdr => exact changing _ _ setCdr
  | test p => exact .bind (oneArgument _ _) fun _ => .bind (holdsOf _ _) fun _ => .pure _
  | isError => exact .bind (anyArgument _ _) fun _ => .bind (hasType _ _) fun _ => .pure _
  | same => exact .bind (twoArguments _ _) fun _ => .pure _
  | negate => exact .bind (oneArgument _ _) fun _ => .pure _
  | raiseError =>
    refine .bind (oneArgument _ _) fun x => .bind (datum x) fun d => ?_
    split
    · exact raise _ _
    · exact wrongArgument _ _ _
  | collectGarbage => exact .bind (noArgument _ _) fun _ => .bind collect fun _ => alloc rfl

end Orderly

end ArenaScheme
