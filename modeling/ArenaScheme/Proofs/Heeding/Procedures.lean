/-
# Heedful procedures

The expansion of `let` makes lists of the parts of the form and of keywords, and the built-in
procedures work on their arguments only.  So all of them are heedful.
-/
import ArenaScheme.Proofs.Heeding.Objects

namespace ArenaScheme

open HeapM

namespace Concern

variable {ι : Type} [Concern ι] {C : ι} {α : Type} {v : Handle} {kw : Keywords}

/-- The keywords that expressions are made with may be shown. -/
structure SparesWords (C : ι) (kw : Keywords) : Prop where
  quote : Spares C kw.quote
  quasiquote : Spares C kw.quasiquote
  lambda : Spares C kw.lambda
  definition : Spares C kw.definition

/-! ## Expanding `let` -/

section Let

variable {names bindings body name rest operands : Handle}

lemma splitBinding (complaint : String) {binding : Handle} (hb : Spares C binding) :
    Heeds C (Let.splitBinding complaint binding) := by
  refine bind (items? hb) fun parts hp => ?_
  split
  · have hname := hp _ rfl
    refine bind (hasType _ (hname _ (by simp))) fun _ _ => ite (pure ?_) (raise _ _)
    exact ⟨hname _ (by simp), hname _ (by simp)⟩
  · exact raise _ _

lemma splitBindings (complaint : String) (hb : Spares C bindings) :
    Heeds C (Let.splitBindings complaint bindings) := by
  refine bind (items? hb) fun entries he => ?_
  cases entries with
  | none => exact raise _ _
  | some entries =>
    refine bind (mapM fun b hb => splitBinding complaint (he _ rfl b hb)) fun parts hp => ?_
    refine bind (list fun v hv => ?_) fun _ hn => rooted hn fun _ _ =>
      bind (list fun v hv => ?_) fun _ hv => ?_
    · obtain ⟨p, hm, rfl⟩ := List.mem_map.mp hv
      exact (hp p hm).1
    · obtain ⟨p, hm, rfl⟩ := List.mem_map.mp hv
      exact (hp p hm).2
    · exact pure ⟨hn, hv⟩

lemma expandPlain (hk : SparesWords C kw) (hb : Spares C bindings) (hbody : Spares C body) :
    Heeds C (Let.expandPlain kw bindings body) := by
  refine bind (hasType _ hbody) fun _ _ => ite (raise _ _)
    (bind (splitBindings _ hb) fun parts hp => ?_)
  refine rooted hp.1 fun _ _ => rooted hp.2 fun _ _ => bind (cons hp.1 hbody) fun _ hr => ?_
  exact bind (cons hk.lambda hr) fun _ hl => cons hl hp.2

lemma expandNamed (hk : SparesWords C kw) (hn : Spares C name) (hr : Spares C rest) :
    Heeds C (Let.expandNamed kw name rest) := by
  refine bind (asPair hr) fun parts hp => ?_
  cases parts with
  | none => exact raise _ _
  | some parts =>
    obtain ⟨hb, hbody⟩ := hp _ rfl
    refine bind (hasType _ hbody) fun _ _ =>
      ite (raise _ _) (bind (splitBindings _ hb) fun lists hl => ?_)
    refine rooted hl.1 fun _ _ => rooted hl.2 fun _ _ => bind (cons hn hl.2) fun _ hcall => ?_
    refine rooted hcall fun _ _ => bind (cons hl.1 hbody) fun _ hi =>
      bind (cons hk.lambda hi) fun _ hinner => ?_
    refine bind (list (by simpa using ⟨hk.definition, hn, hinner⟩)) fun _ hd => ?_
    refine bind (list (by simpa using ⟨hk.lambda, (spares_emptyList C), hd, hcall⟩)) fun _ ho => ?_
    exact list (List.forall_mem_singleton.mpr ho)

lemma expand (hk : SparesWords C kw) (ho : Spares C operands) :
    Heeds C (Let.expand kw operands) := by
  refine bind (asPair ho) fun parts hp => ?_
  cases parts with
  | none => exact raise _ _
  | some parts =>
    obtain ⟨hf, hr⟩ := hp _ rfl
    exact bind (hasType _ hf) fun _ _ => ite (expandNamed hk hf hr) (expandPlain hk hf hr)

end Let

/-! ## Built-in procedures -/

section Builtin

variable {args : Handle} {b : Builtin}

/-- Failing with an object that may be shown. -/
lemma failing [Sparing α] {x : EvalM α} (hv : Spares C v) (hx : Heeds C x) :
    Heeds C (do if ← HeapM.hasType .error v then HeapM.fail v else x) :=
  bind (hasType _ hv) fun _ _ => ite (fail hv) hx

lemma arguments (ha : Spares C args) : Heeds C (Builtin.arguments args) := by
  refine bind (items? ha) fun vs hvs => pure ?_
  cases vs with
  | none => exact fun _ hv => absurd hv List.not_mem_nil
  | some vs => exact hvs vs rfl

lemma wrongArgument [Sparing α] (b : Builtin) (wanted : String) (hv : Spares C v) :
    Heeds C (b.wrongArgument wanted v : EvalM α) := bind (typeOf hv) fun _ _ => raise _ _

lemma passErrors {vs : List Handle} (hvs : ∀ v ∈ vs, Spares C v) :
    Heeds C (Builtin.passErrors vs) :=
  forM fun v hv => failing (hvs v hv) (pure trivial)

lemma anyArgument (b : Builtin) (ha : Spares C args) : Heeds C (b.anyArgument args) := by
  refine bind (arguments ha) fun vs hvs => ?_
  split
  · exact pure (hvs _ (by simp))
  · exact raise _ _

lemma oneArgument (b : Builtin) (ha : Spares C args) : Heeds C (b.oneArgument args) :=
  bind (anyArgument b ha) fun _ hv =>
    bind (passErrors (List.forall_mem_singleton.mpr hv)) fun _ _ => pure hv

lemma twoArguments (b : Builtin) (ha : Spares C args) : Heeds C (b.twoArguments args) := by
  refine bind (arguments ha) fun vs hvs => ?_
  split
  · exact bind (passErrors hvs) fun _ _ => pure ⟨hvs _ (by simp), hvs _ (by simp)⟩
  · exact raise _ _

lemma noArgument (b : Builtin) (ha : Spares C args) : Heeds C (b.noArgument args) := by
  refine bind (arguments ha) fun vs _ => ?_
  split
  · exact pure trivial
  · exact raise _ _

lemma manyArguments (b : Builtin) (least : Nat) (ha : Spares C args) :
    Heeds C (b.manyArguments least args) :=
  bind (arguments ha) fun _ hvs => ite (raise _ _) (bind (passErrors hvs) fun _ _ => pure hvs)

lemma numbers (b : Builtin) (least : Nat) (ha : Spares C args) :
    Heeds C (b.numbers least args) := by
  refine bind (manyArguments b least ha) fun vs hvs => mapM fun v hv =>
    bind (datum (hvs v hv)) fun d _ => ?_
  split
  · exact pure trivial
  · exact pure trivial
  · exact wrongArgument _ _ (hvs v hv)

lemma makeNumber (b : Builtin) (r : Except ArithmeticFault Num) : Heeds C (b.makeNumber r) := by
  unfold Builtin.makeNumber
  split
  · exact alloc_atom rfl rfl
  · exact alloc_atom rfl rfl
  · exact raise _ _
  · exact raise _ _

lemma calculate (b : Builtin) (rule : Num → List Num → Except ArithmeticFault Num)
    (ha : Spares C args) :
    Heeds C (b.calculate rule args) := by
  refine bind (numbers _ _ ha) fun ns _ => ?_
  cases ns with
  | nil => exact halt
  | cons => exact makeNumber _ _

lemma holdsOf (property : Property) (hv : Spares C v) : Heeds C (Builtin.holdsOf property v) := by
  cases property with
  | null => exact pure trivial
  | number => exact bind (typeOf hv) fun _ _ => pure trivial
  | procedure => exact bind (typeOf hv) fun _ _ => pure trivial
  | _ => exact hasType _ hv

/-- Changing a pair if the first argument is one. -/
lemma changing (b : Builtin) (ha : Spares C args) {change : Handle → Handle → EvalM Unit}
    (hc : ∀ pair v, Spares C pair → Spares C v → Heeds C (change pair v)) :
    Heeds C (do
      let (pair, v) ← b.twoArguments args
      if ← HeapM.hasType .pair pair then
        change pair v
        return Handle.emptyList
      else b.wrongArgument "a pair" pair) := by
  refine bind (twoArguments b ha) fun p hp => bind (hasType _ hp.1) fun _ _ =>
    ite ?_ (wrongArgument _ _ hp.1)
  exact bind (hc _ _ hp.1 hp.2) fun _ _ => pure (spares_emptyList C)

lemma spares_ofBool (C : ι) (b : Bool) : Spares C (.ofBool b) := by
  cases b <;> exact spares_sentinel C (by decide)

lemma call (b : Builtin) (ha : Spares C args) : Heeds C (b.call args) := by
  cases b with
  | add => exact bind (numbers _ _ ha) fun _ _ => makeNumber _ _
  | subtract => exact calculate _ _ ha
  | multiply => exact bind (numbers _ _ ha) fun _ _ => makeNumber _ _
  | divide => exact calculate _ _ ha
  | compare r => exact bind (numbers _ _ ha) fun _ _ => pure (spares_ofBool C _)
  | car =>
    refine bind (oneArgument _ ha) fun x hx => bind (asPair hx) fun parts hp => ?_
    cases parts with
    | some parts => exact pure (hp _ rfl).1
    | none => exact wrongArgument _ _ hx
  | cdr =>
    refine bind (oneArgument _ ha) fun x hx => bind (asPair hx) fun parts hp => ?_
    cases parts with
    | some parts => exact pure (hp _ rfl).2
    | none => exact wrongArgument _ _ hx
  | cons => exact bind (twoArguments _ ha) fun _ hp => cons hp.1 hp.2
  | list => exact bind (manyArguments _ _ ha) fun _ _ => append ha (spares_emptyList C)
  | length =>
    refine bind (oneArgument _ ha) fun x hx => bind (length? hx) fun n _ => ?_
    cases n with
    | some n => exact alloc_atom rfl rfl
    | none => exact wrongArgument _ _ hx
  | setCar => exact changing _ ha fun _ _ => setCar
  | setCdr => exact changing _ ha fun _ _ => setCdr
  | test p =>
    exact bind (oneArgument _ ha) fun _ hx => bind (holdsOf _ hx) fun _ _ =>
      pure (spares_ofBool C _)
  | isError =>
    exact bind (anyArgument _ ha) fun _ hx => bind (hasType _ hx) fun _ _ =>
      pure (spares_ofBool C _)
  | same => exact bind (twoArguments _ ha) fun _ _ => pure (spares_ofBool C _)
  | negate => exact bind (oneArgument _ ha) fun _ _ => pure (spares_ofBool C _)
  | raiseError =>
    refine bind (oneArgument _ ha) fun x hx => bind (datum hx) fun d _ => ?_
    split
    · exact raise _ _
    · exact wrongArgument _ _ hx
  | collectGarbage =>
    exact bind (noArgument _ ha) fun _ _ => bind collect fun _ _ => alloc_atom rfl rfl

end Builtin

end Concern

end ArenaScheme
