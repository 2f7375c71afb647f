/-
# Heedful evaluation

Every step of evaluation is heedful if the evaluator that it calls is, and so is every turn; and the
evaluator itself, by induction on its budget.  The procedures of the host have to be heedful as
well.
-/
import ArenaScheme.Proofs.Heeding.Procedures

namespace ArenaScheme

open HeapM

namespace Concern

variable {ι : Type} [Concern ι] {C : ι} {α : Type} {v : Handle} {kw : Keywords} {nested : Nested}

/-- The procedures of the host are heedful. -/
def HostHeeds (C : ι) (host : Array HostProcedure) : Prop :=
  ∀ p ∈ host, ∀ args, Spares C args → Heeds C (p args)

/-! ## Application -/

section Application

open Application

variable {host : Array HostProcedure} {params args body env procedure operator operands : Handle}

/-- An evaluator that is heedful. -/
abbrev Sparingly (C : ι) (nested : Nested) : Prop := ∀ expr, Spares C expr → Heeds C (nested expr)

lemma wrongOperands [Sparing α] (form : String) (wanted : Nat) :
    Heeds C (wrongOperands form wanted : EvalM α) :=
  raise _ _

lemma evalOperands (hn : Sparingly C nested) (budget : Nat) {last : Handle} (hl : Spares C last)
    (ho : Spares C operands) : Heeds C (evalOperands nested budget last operands) := by
  induction budget generalizing last operands with
  | zero => exact halt
  | succ budget ih =>
    refine bind (asPair ho) fun parts hp => ?_
    cases parts with
    | none => exact ite (pure trivial) (raise _ _)
    | some parts =>
      obtain ⟨he, hr⟩ := hp _ rfl
      refine bind (hn _ he) fun _ hv => bind (cons hv (spares_emptyList C)) fun _ hc => ?_
      exact bind (setCdr hl hc) fun _ _ => ih hc hr

lemma evalCombination (hn : Sparingly C nested) (budget : Nat) (hf : Spares C operator)
    (ho : Spares C operands) :
    Heeds C (evalCombination nested budget operator operands) := by
  refine bind (hn _ hf) fun _ hv => bind (cons hv (spares_emptyList C)) fun _ hc =>
    rooted hc fun head hh => ?_
  exact bind (evalOperands hn budget hc ho) fun _ _ => contents hh

lemma splitArguments (n : Nat) (ha : Spares C args) : Heeds C (splitArguments n args) := by
  induction n generalizing args with
  | zero => exact pure ⟨fun _ hv => absurd hv List.not_mem_nil, ha⟩
  | succ n ih =>
    refine bind (asPair ha) fun parts hp => ?_
    cases parts with
    | none => exact halt
    | some parts =>
      obtain ⟨hf, hr⟩ := hp _ rfl
      exact bind (ih hr) fun p hp => pure ⟨List.forall_mem_cons.mpr ⟨hf, hp.1⟩, hp.2⟩

lemma pairUp {names values : List Handle} (hn : ∀ v ∈ names, Spares C v)
    (hv : ∀ v ∈ values, Spares C v) :
    Heeds C (pairUp names values) :=
  bind (list hn) fun _ hn => rooted hn fun _ _ => bind (list hv) fun _ hv => pure ⟨hn, hv⟩

lemma bindParameters (hp : Spares C params) (ha : Spares C args) :
    Heeds C (bindParameters params args) := by
  refine bind (length? ha) fun given _ => bind (length? hp) fun wanted _ => ?_
  cases wanted with
  | some wanted => exact ite (pure ⟨hp, ha⟩) (raise _ _)
  | none =>
    refine bind (hasType _ hp) fun _ _ => ite (pairUp (by simpa using hp) (by simpa using ha)) ?_
    refine bind (walkSpine hp) fun w hw => ite (raise _ _)
      (bind (splitArguments _ ha) fun p hp => ?_)
    refine pairUp (List.forall_mem_append.mpr ⟨hw.1, ?_⟩) (List.forall_mem_append.mpr ⟨hp.1, ?_⟩)
    · refine List.forall_mem_singleton.mpr ?_
      cases he : w.ending with
      | none => exact (spares_emptyList C)
      | some v => exact hw.2 v he
    · exact List.forall_mem_singleton.mpr hp.2

lemma callNative (hh : HostHeeds C host) (code : Native) (ha : Spares C args) :
    Heeds C (callNative host code args) := by
  cases code with
  | builtin b => exact call b ha
  | host slot =>
    rw [Application.callNative]
    cases hs : host[slot]? with
    | some p => exact hh p (Array.mem_of_getElem? hs) args ha
    | none => exact halt

lemma applyForeign (hh : HostHeeds C host) (code : Native) (ha : Spares C args) :
    Heeds C (applyForeign host code args) :=
  bind (recover (callNative hh code ha) fun _ => id) fun _ hv => failing hv (pure hv)

lemma applyClosure (he : Spares C env) (hp : Spares C params) (hb : Spares C body)
    (ha : Spares C args) :
    Heeds C (applyClosure env params body args) := by
  refine bind (bindParameters hp ha) fun lists hl =>
    bind (rooted hl.1 fun _ _ => rooted hl.2 fun _ _ => ?_)
    fun _ _ => pure hb
  exact bind (setCurrentEnv he) fun _ _ => bind (pushFrame hl.1 hl.2) fun _ _ => pure trivial

lemma apply (hh : HostHeeds C host) (hp : Spares C procedure) (ha : Spares C args) :
    Heeds C (Application.apply host procedure args) := by
  refine bind (datum hp) fun d hd => ?_
  cases d with
  | foreign name code => exact applyForeign hh code ha
  | closure env params body =>
    exact applyClosure (hd _ (by simp [Datum.children])) (hd _ (by simp [Datum.children]))
      (hd _ (by simp [Datum.children])) ha
  | _ => exact raise _ _

lemma ofCombination (hh : HostHeeds C host) (hn : Sparingly C nested) (budget : Nat)
    (hf : Spares C operator)
    (ho : Spares C operands) : Heeds C (ofCombination host nested budget operator operands) := by
  refine bind (evalCombination hn budget hf ho) fun _ hc => rooted hc fun _ _ => ?_
  exact bind (pairParts hc) fun _ hp => apply hh hp.1 hp.2

end Application

end Concern

end ArenaScheme
