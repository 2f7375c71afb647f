/-
# Safe procedures

Every built-in procedure is safe, whatever becomes of the list of arguments itself: what a procedure
makes use of are the elements, which are open.
-/
import ArenaScheme.Proofs.Seclusion.Environments

namespace ArenaScheme

open Heap HeapM

variable {α : Type} [Exhibit α] {R : Prop} {V : Veil} {h k : Heap} {v : Handle}

namespace Safe

/-- Failing with an object if it is an error object. -/
lemma failing (hs : V.Seals h) (hv : V.Shows h v) {x : EvalM α} (hx : (x h).Safe R V h) :
    ((do if ← HeapM.hasType .error v then HeapM.fail v else x) h).Safe R V h :=
  ends_hasType fun _ _ => ends_ite (fun _ => fail hs hv) fun _ => hx

/-! ## Arguments -/

lemma arguments (hs : V.Seals h) (args : Handle) : ((Builtin.arguments args) h).Safe R V h := by
  refine ends_items hs fun vs hvs => pure hs fun v hv => ?_
  cases vs with
  | none => simp at hv
  | some vs => exact hvs vs rfl v hv

lemma wrongCount (hs : V.Seals h) (b : Builtin) (wanted given : Nat) :
    ((b.wrongCount wanted given : EvalM α) h).Safe R V h := raise hs _ _

lemma wrongArgument (hs : V.Seals h) (b : Builtin) (wanted : String) (v : Handle) :
    ((b.wrongArgument wanted v : EvalM α) h).Safe R V h := ends_typeOf fun _ _ => raise hs _ _

lemma passErrors (hs : V.Seals h) {vs : List Handle} (hvs : ∀ v ∈ vs, V.Shows h v) :
    ((Builtin.passErrors vs) h).Safe R V h :=
  forM hs fun v hv _ hk => failing hk.seals (hk.shows (hvs v hv)) (pure hk.seals trivial)

lemma anyArgument (hs : V.Seals h) (b : Builtin) (args : Handle) :
    ((b.anyArgument args) h).Safe R V h := by
  refine bind (arguments hs args) fun vs k hk hvs => ?_
  split
  · exact pure hk.seals (hvs _ (by simp))
  · exact wrongCount hk.seals _ _ _

lemma oneArgument (hs : V.Seals h) (b : Builtin) (args : Handle) :
    ((b.oneArgument args) h).Safe R V h := by
  refine bind (anyArgument hs b args) fun x k hk hx => ?_
  refine bind (passErrors hk.seals fun v hv => List.mem_singleton.mp hv ▸ hx) fun _ l hl _ => ?_
  exact pure hl.seals (hl.shows hx)

lemma twoArguments (hs : V.Seals h) (b : Builtin) (args : Handle) :
    ((b.twoArguments args) h).Safe R V h := by
  refine bind (arguments hs args) fun vs k hk hvs => ?_
  split
  · next x y =>
    refine bind (passErrors hk.seals hvs) fun _ l hl _ => pure hl.seals ?_
    exact ⟨hl.shows (hvs x (by simp)), hl.shows (hvs y (by simp))⟩
  · exact wrongCount hk.seals _ _ _

lemma noArgument (hs : V.Seals h) (b : Builtin) (args : Handle) :
    ((b.noArgument args) h).Safe R V h := by
  refine bind (arguments hs args) fun vs k hk _ => ?_
  split
  · exact pure hk.seals trivial
  · exact wrongCount hk.seals _ _ _

lemma manyArguments (hs : V.Seals h) (b : Builtin) (least : Nat) (args : Handle) :
    ((b.manyArguments least args) h).Safe R V h := by
  refine bind (arguments hs args) fun vs k hk hvs =>
    ends_ite (fun _ => raise hk.seals _ _) fun _ => ?_
  refine bind (passErrors hk.seals hvs) fun _ l hl _ => pure hl.seals fun v hv => ?_
  exact hl.shows (hvs v hv)

/-! ## Calls -/

lemma numbers (hs : V.Seals h) (b : Builtin) (least : Nat) (args : Handle) :
    ((b.numbers least args) h).Safe R V h := by
  refine bind (manyArguments hs b least args) fun vs k hk _ => mapM hk.seals fun v _ l hl => ?_
  refine ends_datum fun d _ => ?_
  split
  · exact pure hl.seals trivial
  · exact pure hl.seals trivial
  · exact wrongArgument hl.seals _ _ _

lemma makeNumber (hs : V.Seals h) (b : Builtin) (r : Except ArithmeticFault Num) :
    ((b.makeNumber r) h).Safe R V h := by
  unfold Builtin.makeNumber
  split
  · exact alloc_atom hs rfl rfl
  · exact alloc_atom hs rfl rfl
  · exact raise hs _ _
  · exact raise hs _ _

lemma calculate (hs : V.Seals h) (b : Builtin) (rule : Num → List Num → Except ArithmeticFault Num)
    (args : Handle) : ((b.calculate rule args) h).Safe R V h := by
  refine bind (numbers hs b 1 args) fun ns _ hk _ => ?_
  cases ns with
  | nil => exact ends_halt (by simp)
  | cons => exact makeNumber hk.seals _ _

lemma ofBool (hs : V.Seals h) (b : Bool) :
    ((Pure.pure (Handle.ofBool b) : EvalM Handle) h).Safe R V h :=
  pure hs fun hu => (hs hu).open_sentinel (by cases b <;> decide)

lemma holdsOf (hs : V.Seals h) (property : Property) (v : Handle) :
    ((Builtin.holdsOf property v) h).Safe R V h := by
  have htype : ∀ t, ((HeapM.hasType t v : EvalM Bool) h).Safe R V h := fun t =>
    ends_typeOf fun _ _ => pure hs trivial
  cases property with
  | null => exact pure hs trivial
  | number => exact ends_typeOf fun _ _ => pure hs trivial
  | procedure => exact ends_typeOf fun _ _ => pure hs trivial
  | _ => exact htype _

/-- Changing a pair if the first argument is one. -/
lemma changing (hs : V.Seals h) (b : Builtin) (args : Handle)
    {change : Handle → Handle → EvalM Unit}
    (hc : ∀ pair v k, V.Keeps h k → V.Shows k pair → V.Shows k v → (change pair v k).Safe R V k) :
    ((do
      let (pair, v) ← b.twoArguments args
      if ← HeapM.hasType .pair pair then
        change pair v
        return Handle.emptyList
      else b.wrongArgument "a pair" pair) h).Safe R V h := by
  refine bind (twoArguments hs b args) fun parts k hk hp => ends_hasType fun d _ => ?_
  refine ends_ite (fun _ => ?_) fun _ => wrongArgument hk.seals _ _ _
  refine bind (hc _ _ k hk hp.1 hp.2) fun _ l hl _ => pure hl.seals fun hu => ?_
  exact (hl.seals hu).open_sentinel (by decide)

lemma call (hs : V.Seals h) (b : Builtin) (args : Handle) : ((b.call args) h).Safe R V h := by
  cases b with
  | add => exact bind (numbers hs _ _ _) fun _ _ hk _ => makeNumber hk.seals _ _
  | subtract => exact calculate hs _ _ _
  | multiply => exact bind (numbers hs _ _ _) fun _ _ hk _ => makeNumber hk.seals _ _
  | divide => exact calculate hs _ _ _
  | compare r => exact bind (numbers hs _ _ _) fun _ _ hk _ => ofBool hk.seals _
  | car =>
    refine bind (oneArgument hs _ _) fun x k hk hx => ?_
    refine ends_asPair (wrongArgument hk.seals _ _ _) fun a b hp => pure hk.seals fun hu => ?_
    exact (hk.seals hu).open_part hp (by simp [Datum.parts])
  | cdr =>
    refine bind (oneArgument hs _ _) fun x k hk hx => ?_
    refine ends_asPair (wrongArgument hk.seals _ _ _) fun a b hp => pure hk.seals fun hu => ?_
    exact (hk.seals hu).open_tail (hx hu) hp
  | cons => exact bind (twoArguments hs _ _) fun _ _ hk hp => cons hk.seals hp.1 hp.2
  | list =>
    refine bind (manyArguments hs _ _ _) fun _ k hk _ => append hk.seals fun hu => ?_
    exact (hk.seals hu).open_sentinel (by decide)
  | length =>
    refine bind (oneArgument hs _ _) fun x k hk _ => ends_length fun n => ?_
    cases n with
    | some n => exact alloc_atom hk.seals rfl rfl
    | none => exact wrongArgument hk.seals _ _ _
  | setCar =>
    exact changing hs _ _ fun _ _ _ hk hp hv => setCar hk.seals (fun hu => hp.not_draft hu) hv
  | setCdr => exact changing hs _ _ fun _ _ _ hk hp hv => setCdr hk.seals hp hv
  | test p =>
    exact bind (oneArgument hs _ _) fun _ _ hk _ => bind (holdsOf hk.seals _ _)
      fun _ _ hl _ => ofBool hl.seals _
  | isError =>
    exact bind (anyArgument hs _ _) fun _ _ hk _ => ends_hasType fun _ _ => ofBool hk.seals _
  | same => exact bind (twoArguments hs _ _) fun _ _ hk _ => ofBool hk.seals _
  | negate => exact bind (oneArgument hs _ _) fun _ _ hk _ => ofBool hk.seals _
  | raiseError =>
    refine bind (oneArgument hs _ _) fun x k hk _ => ends_datum fun d _ => ?_
    split
    · exact raise hk.seals _ _
    · exact wrongArgument hk.seals _ _ _
  | collectGarbage =>
    refine bind (noArgument hs _ _) fun _ _ _ _ => bind collect fun _ _ hl _ => ?_
    exact alloc_atom hl.seals rfl rfl

end Safe

end ArenaScheme
