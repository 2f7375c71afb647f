/-
# Steps under watch

A step has parts of an expression evaluated.  Two things are to be shown of that.  If one of these
evaluations fails, the step fails with the same error, and all that happens in between is that root
slots are released.  And all of them look names up where the step itself began.

To say so, a step is compared with the same step under an evaluator that is watched: it halts where
the evaluation in question begins, or where names would be looked up in another frame.  In the first
case, either the evaluation is not reached, and there is no difference; or the watched step halts
there, and then the other one fails with the error and leaves the heap of the failed evaluation but
for the root stack and the current frame.  In the second case there is never a difference.  An
evaluator may also just be deprived of some evaluations; then the step halts, or it does not need
them.

Such a comparison can be made for every action, so it goes through a step from one action to the
next; that the step is orderly is proved on the way.
-/
import ArenaScheme.Eval.Evaluator
import ArenaScheme.Proofs.Discipline.Procedures

namespace ArenaScheme

open Heap HeapM

/-- The heap `k` is `l` but for the root stack and the current frame. -/
def Heap.Unwound (l k : Heap) : Prop :=
  k = { l with roots := k.roots, currentEnv := k.currentEnv }

lemma Heap.Unwound.refl (h : Heap) : h.Unwound h := rfl

lemma Heap.Unwound.trans {h k l : Heap} (a : h.Unwound k) (b : k.Unwound l) : h.Unwound l := by
  rw [Unwound, b, a]

/-- What an evaluator is watched for. -/
inductive Watch
  /-- An evaluation that fails with that error and leaves that heap. -/
  | failure (e : Handle) (l : Heap)
  /-- An evaluation with another current frame, or on a heap that has not come from that one. -/
  | origin (env : Handle) (h : Heap)
  /-- Some evaluations, whatever they do. -/
  | anything

namespace Watch

/-- The heaps on which actions are compared. -/
def Admits (host : Array HostProcedure) : Watch → Heap → Prop
  | origin env h, k => k.currentEnv = env ∧ Edits host h k
  | _, _ => True

/-- The ends of an action that is not watched if the action that is watched has halted. -/
def Excuses {α : Type} : Watch → Outcome Handle α → Prop
  | failure e l, o => ∃ k, o = .error e k ∧ l.Unwound k
  | origin .., _ => False
  | anything, _ => True

end Watch

/-- What is demanded of the procedures of the host: the root stack is as it was when they return or
fail. -/
def HostBalanced (host : Array HostProcedure) : Prop :=
  ∀ p ∈ host, ∀ args h, (p args h).Leaving fun k => k.roots = h.roots

/-- The action `y` is orderly, and the action `x` does what `y` does unless it halts with cause `c`,
which it does for what is watched only. -/
structure Watched {α : Type} (host : Array HostProcedure) (W : Nat → Prop) (s : Prop) (w : Watch)
    (c : Halt) (x y : EvalM α) : Prop where
  orderly : Orderly host W s y
  agrees : ∀ h, w.Admits host h → x h = y h ∨ x h = .halt c ∧ w.Excuses (y h)

variable {α β : Type} {host : Array HostProcedure} {W V : Nat → Prop} {s t : Prop} {w : Watch}
  {c : Halt} {x y : EvalM α} {nested nested' : Nested}

namespace Watched

/-! ## Combinators -/

/-- An action that has nothing evaluated. -/
lemma refl (hx : Orderly host W s x) : Watched host W s w c x x := ⟨hx, fun _ _ => .inl rfl⟩

lemma mono (hx : Watched host W s w c x y) (hW : ∀ i, W i → V i) (hs : s → t) :
    Watched host V t w c x y := ⟨hx.orderly.mono hW hs, hx.agrees⟩

/-- Whatever follows is skipped by an action that is excused. -/
lemma excuses_bind {h : Heap} {g : α → EvalM β} (he : w.Excuses (y h)) :
    w.Excuses ((y >>= g) h) := by
  cases w with
  | failure e l =>
    obtain ⟨k, hk, hu⟩ := he
    exact ⟨k, bind_of_error hk, hu⟩
  | origin env k => exact he
  | anything => exact he

/-- What follows may have expressions evaluated if the current frame is still the same. -/
lemma bind {f g : α → EvalM β} (hx : Watched host W False w c x y)
    (hf : ∀ a, Watched host W s w c (f a) (g a)) :
    Watched host W s w c (x >>= f) (y >>= g) := by
  refine ⟨.bind (hx.orderly.mono (fun _ => id) False.elim) fun a => (hf a).orderly, fun h hw => ?_⟩
  have ho := hx.orderly h
  rcases hx.agrees h hw with heq | ⟨hc, he⟩
  · rw [bind_apply, bind_apply, heq]
    revert ho
    cases y h with
    | ok a k =>
      intro hr
      refine (hf a).agrees k ?_
      cases w with
      | origin env l => exact ⟨(hr.env id).trans hw.1, hw.2.trans hr.edits⟩
      | _ => trivial
    | error _ _ => exact fun _ => .inl rfl
    | halt _ => exact fun _ => .inl rfl
  · exact .inr ⟨bind_of_halt hc, excuses_bind he⟩

/-- What follows has nothing evaluated. -/
lemma bind_refl {f : α → EvalM β} (hx : Watched host W s w c x y)
    (hf : ∀ a, Orderly host W s (f a)) : Watched host W s w c (x >>= f) (y >>= f) := by
  refine ⟨.bind hx.orderly hf, fun h hw => ?_⟩
  rcases hx.agrees h hw with heq | ⟨hc, he⟩
  · exact .inl (by rw [bind_apply, bind_apply, heq])
  · exact .inr ⟨bind_of_halt hc, excuses_bind he⟩

lemma ite {p : Prop} [Decidable p] {x' y' : EvalM α} (hx : p → Watched host W s w c x y)
    (hx' : ¬ p → Watched host W s w c x' y') :
    Watched host W s w c (if p then x else x') (if p then y else y') := by
  by_cases hp : p
  · rw [if_pos hp, if_pos hp]
    exact hx hp
  · rw [if_neg hp, if_neg hp]
    exact hx' hp

/-- The slot that an action has been given is released when it fails. -/
lemma rooted {v : Handle} {f g : Root → EvalM α}
    (hf : ∀ root, Watched host (fun i => W i ∨ i = root.slot) s w c (f root) (g root)) :
    Watched host W s w c (rooted v f) (rooted v g) := by
  refine ⟨.rooted fun root => (hf root).orderly, fun h hw => ?_⟩
  simp only [HeapM.rooted, bind_apply, acquire]
  by_cases hlt : h.roots.size < h.rootSlots
  · rw [if_pos hlt]
    have ho := (hf ⟨h.roots.size⟩).orderly { h with roots := h.roots.push v }
    have hw' : w.Admits host { h with roots := h.roots.push v } := by
      cases w with
      | origin env l => exact ⟨hw.1, hw.2.tail (.roots h _)⟩
      | _ => trivial
    dsimp only [ensuring]
    rcases (hf ⟨h.roots.size⟩).agrees { h with roots := h.roots.push v } hw' with heq | ⟨hc, he⟩
    · rw [heq]
      exact .inl rfl
    · refine .inr ⟨by rw [hc], ?_⟩
      cases w with
      | failure e l =>
        obtain ⟨k, hk, hu⟩ := he
        rw [hk] at ho
        obtain ⟨-, hrel⟩ := ho.1.released (ε := Handle) (h := h) (.single (.roots h _))
        refine ⟨{ k with roots := k.roots.pop }, ?_, hu.trans rfl⟩
        rw [hk]
        dsimp only
        rw [hrel]
      | origin env l => exact he.elim
      | anything => trivial
  · rw [if_neg hlt]
    exact .inl rfl

end Watched

/-- Evaluators that are related on every expression. -/
def Watching (host : Array HostProcedure) (w : Watch) (c : Halt) (nested nested' : Nested) : Prop :=
  ∀ expr, Watched host (fun _ => False) False w c (nested expr) (nested' expr)

lemma Watching.asked (hn : Watching host w c nested nested') (expr : Handle) :
    Watched host W s w c (nested expr) (nested' expr) :=
  (hn expr).mono (fun _ => False.elim) False.elim

namespace Watched

open Orderly (cons setCdr list append raise asPair items? hasType datum walkSpine length?)

/-! ## Bodies -/

lemma ofBody (hn : Watching host w c nested nested') (budget : Nat) (seq : Handle) :
    Watched host W s w c (Step.ofBody nested budget seq) (Step.ofBody nested' budget seq) := by
  induction budget generalizing seq with
  | zero => exact .refl (.halt id)
  | succ budget ih =>
    refine .bind (.refl (asPair seq)) fun parts => ?_
    cases parts with
    | none => exact .refl (raise _ _)
    | some parts =>
      exact .ite (fun _ => .refl (.pure _)) fun _ => .bind (hn.asked _) fun _ => ih _

lemma orderly_wrongOperands (form : String) (wanted : Nat) :
    Orderly host W s (wrongOperands form wanted : EvalM α) := raise _ _

/-! ## Templates -/

open Template

lemma orderly_link {out : Root} (ho : W out.slot) (last : Option Handle) (v : Handle) :
    Orderly host W s (link out last v) := by
  cases last with
  | some pair => exact setCdr _ _
  | none => exact .store ho _

lemma orderly_push {out : Root} (ho : W out.slot) (last : Option Handle) (v : Handle) :
    Orderly host W s (push out last v) :=
  .bind (cons _ _) fun _ => .bind (orderly_link ho _ _) fun _ => .pure _

lemma orderly_splice {out : Root} (ho : W out.slot) (last : Option Handle) (v : Handle) :
    Orderly host W s (splice out last v) := by
  refine .bind (items? v) fun vs => ?_
  cases vs with
  | none => exact raise _ _
  | some vs =>
    exact .rooted fun _ => .foldlM
      (fun _ _ => .bind (orderly_push (.inl ho) _ _) fun _ => .pure _) vs _

lemma orderly_isSplice (kw : Keywords) (level : Nat) (item : Handle) :
    Orderly host W s (isSplice kw level item) := by
  refine .ite (fun _ => .bind (asPair item) fun parts => ?_) fun _ => .pure _
  cases parts with
  | none => exact .pure _
  | some parts => exact .pure _

/-- What is assumed of the copier of parts. -/
abbrev Copying (host : Array HostProcedure) (w : Watch) (c : Halt)
    (copy copy' : Copier) : Prop :=
  ∀ template level, Watched host (fun _ => False) False w c (copy template level)
    (copy' template level)

lemma copyQuotation {copy copy' : Copier} (kw : Keywords)
    (hn : Watching host w c nested nested') (hc : Copying host w c copy copy') (form : Handle)
    (level : Nat) : Watched host W s w c (copyQuotation kw nested copy form level)
      (copyQuotation kw nested' copy' form level) := by
  have hcopy : ∀ template level, Watched host W False w c (copy template level)
      (copy' template level) := fun _ _ => (hc _ _).mono (fun _ => False.elim) id
  refine .bind (.refl (asPair form)) fun parts => ?_
  cases parts with
  | none => exact .refl (.pure _)
  | some parts =>
    refine .ite (fun _ => .bind (.refl (items? _)) fun vs => ?_) fun _ =>
      .bind (.refl (items? _)) fun vs => ?_
    · split
      · exact .bind (hcopy _ _) fun _ => .refl (list _)
      · exact .refl (orderly_wrongOperands _ _)
    · split
      · exact hn.asked _
      · exact .bind (hcopy _ _) fun _ => .refl (list _)
      · exact .refl (orderly_wrongOperands _ _)

lemma copySpine {copy copy' : Copier} (kw : Keywords) (hn : Watching host w c nested nested')
    (hc : Copying host w c copy copy') {out : Root} (ho : W out.slot) (level budget : Nat)
    (last : Option Handle) (rest : Handle) :
    Watched host W s w c (copySpine kw nested copy out level budget last rest)
      (copySpine kw nested' copy' out level budget last rest) := by
  induction budget generalizing last rest with
  | zero => exact .refl (.halt id)
  | succ budget ih =>
    refine .bind (.refl (asPair rest)) fun parts => ?_
    cases parts with
    | none => exact .refl (.bind (orderly_link ho _ _) fun _ => .contents _)
    | some parts =>
      refine .ite (fun _ => ?_) fun _ => .bind (.refl (orderly_isSplice _ _ _)) fun splicing => ?_
      · exact .bind (copyQuotation kw hn hc _ _) fun _ => .refl
          (.bind (orderly_link ho _ _) fun _ => .contents _)
      refine .ite (fun _ => ?_) fun _ => ?_
      · refine .bind (.refl (.bind (.expect _ _ _) fun _ => .pure _)) fun tail => ?_
        refine .bind (.refl (items? _)) fun vs => ?_
        split
        · exact .bind (hn.asked _) fun _ => .bind (.refl (orderly_splice ho _ _)) fun _ => ih _ _
        · exact .refl (orderly_wrongOperands _ _)
      · refine .bind ((hc _ _).mono (fun _ => False.elim) False.elim) fun _ => ?_
        exact .bind (.refl (orderly_push ho _ _)) fun _ => ih _ _

lemma copy (kw : Keywords) (hn : Watching host w c nested nested') (budget : Nat) :
    Copying host w c (copy kw nested budget) (copy kw nested' budget) := by
  induction budget with
  | zero => exact fun _ _ => .refl (.halt id)
  | succ budget ih =>
    intro template level
    refine .bind (.refl (asPair template)) fun parts => ?_
    cases parts with
    | none => exact .refl (.pure _)
    | some parts =>
      refine .ite (fun _ => copyQuotation kw hn ih _ _) fun _ => .rooted fun out => ?_
      exact copySpine kw hn ih (.inr rfl) _ _ _ _

/-! ## Application -/

open Application

lemma evalOperands (hn : Watching host w c nested nested') (budget : Nat)
    (last operands : Handle) :
    Watched host W s w c (evalOperands nested budget last operands)
      (evalOperands nested' budget last operands) := by
  induction budget generalizing last operands with
  | zero => exact .refl (.halt id)
  | succ budget ih =>
    refine .bind (.refl (asPair operands)) fun parts => ?_
    cases parts with
    | none => exact .refl (.ite (fun _ => .pure _) fun _ => raise _ _)
    | some parts =>
      refine .bind (hn.asked _) fun _ => .bind (.refl (cons _ _)) fun _ => ?_
      exact .bind (.refl (setCdr _ _)) fun _ => ih _ _

lemma evalCombination (hn : Watching host w c nested nested') (budget : Nat)
    (operator operands : Handle) :
    Watched host W s w c (evalCombination nested budget operator operands)
      (evalCombination nested' budget operator operands) :=
  .bind (hn.asked _) fun _ => .bind (.refl (cons _ _)) fun _ => .rooted fun _ =>
    .bind (evalOperands hn _ _ _) fun _ => .refl (.contents _)

lemma orderly_splitArguments (n : Nat) (args : Handle) :
    Orderly host W s (splitArguments n args) := by
  induction n generalizing args with
  | zero => exact .pure _
  | succ n ih =>
    refine .bind (asPair args) fun parts => ?_
    cases parts with
    | none => exact .halt (by simp [Halt.Disorder])
    | some parts => exact .bind (ih _) fun _ => .pure _

lemma orderly_pairUp (names values : List Handle) : Orderly host W s (pairUp names values) :=
  .bind (list _) fun _ => .rooted fun _ => .bind (list _) fun _ => .pure _

lemma orderly_bindParameters (params args : Handle) :
    Orderly host W s (bindParameters params args) := by
  refine .bind (length? args) fun given => .bind (length? params) fun wanted => ?_
  cases wanted with
  | some wanted => exact .ite (fun _ => .pure _) fun _ => raise _ _
  | none =>
    refine .bind (hasType _ _) fun symbol => .ite (fun _ => orderly_pairUp _ _) fun _ => ?_
    refine .bind (walkSpine params) fun spine => .ite (fun _ => raise _ _) fun _ => ?_
    exact .bind (orderly_splitArguments _ _) fun _ => orderly_pairUp _ _

/-- A procedure of the host may leave another current frame behind. -/
lemma orderly_host {p : HostProcedure} (hb : HostBalanced host) (hp : p ∈ host) (args : Handle) :
    Orderly host W True (recover (p args) id : EvalM Handle) := by
  intro h
  have ho := hb p hp args h
  rw [HeapM.recover]
  cases hr : p args h with
  | ok v k =>
    rw [hr] at ho
    cases ho with
    | ok hroots =>
      exact ⟨.single (.host hp (.inl ⟨v, hr⟩)), congrArg Array.size hroots,
        fun i _ => congrArg (·[i]?) hroots, fun hs => absurd trivial hs⟩
  | error e k =>
    rw [hr] at ho
    cases ho with
    | error hroots =>
      exact ⟨.single (.host hp (.inr ⟨e, hr⟩)), congrArg Array.size hroots,
        fun i _ => congrArg (·[i]?) hroots, fun hs => absurd trivial hs⟩
  | halt c => exact fun _ => .inl ⟨p, hp, args, h, hr⟩

lemma orderly_callNative (hb : HostBalanced host) (code : Native) (args : Handle) :
    Orderly host W True (recover (callNative host code args) id : EvalM Handle) := by
  cases code with
  | builtin b => exact .recover (ε := Handle) (.call b args)
  | host slot =>
    rw [callNative]
    cases hs : host[slot]? with
    | some p => exact orderly_host hb (Array.mem_of_getElem? hs) args
    | none => exact .recover (ε := Handle) (.halt id)

lemma orderly_applyForeign (hb : HostBalanced host) (code : Native) (args : Handle) :
    Orderly host W True (applyForeign host code args) :=
  .bind (orderly_callNative hb code args) fun _ => .failing (.pure _)

lemma orderly_applyClosure (env params body args : Handle) :
    Orderly host W True (applyClosure env params body args) := by
  refine .bind (orderly_bindParameters _ _) fun lists =>
    .bind (.rooted fun _ => .rooted fun _ => ?_)
    fun _ => .pure _
  exact .bind (.setCurrentEnv _) fun _ => .bind (.pushFrame _ _) fun _ => .pure _

lemma orderly_apply (hb : HostBalanced host) (procedure args : Handle) :
    Orderly host W True (Application.apply host procedure args) := by
  refine .bind (datum procedure) fun d => ?_
  cases d with
  | foreign name code => exact orderly_applyForeign hb code args
  | closure env params body => exact orderly_applyClosure env params body args
  | _ => exact raise _ _

lemma ofCombination (hb : HostBalanced host) (hn : Watching host w c nested nested')
    (budget : Nat) (operator operands : Handle) :
    Watched host W True w c (ofCombination host nested budget operator operands)
      (ofCombination host nested' budget operator operands) :=
  .bind (evalCombination hn _ _ _) fun _ => .refl (.rooted fun _ => .bind (.expect _ _ _) fun _ =>
    orderly_apply hb _ _)

/-! ## Special forms -/

lemma orderly_quote (operands : Handle) : Orderly host W s (Form.quote operands) := by
  refine .bind (items? _) fun vs => ?_
  split
  · exact .pure _
  · exact orderly_wrongOperands _ _

lemma quasiquote (kw : Keywords) (hn : Watching host w c nested nested') (budget : Nat)
    (operands : Handle) : Watched host W s w c (Form.quasiquote kw nested budget operands)
      (Form.quasiquote kw nested' budget operands) := by
  refine .bind (.refl (items? _)) fun vs => ?_
  split
  · exact .bind ((copy kw hn budget _ _).mono (fun _ => False.elim) False.elim) fun _ =>
      .refl (.pure _)
  · exact .refl (orderly_wrongOperands _ _)

lemma conditional (hn : Watching host w c nested nested') (operands : Handle) :
    Watched host W s w c (Form.conditional nested operands)
      (Form.conditional nested' operands) := by
  refine .bind (.refl (items? _)) fun vs => ?_
  split
  · exact .bind (hn.asked _) fun _ => .refl (.ite (fun _ => .pure _) fun _ => .pure _)
  · exact .refl (orderly_wrongOperands _ _)

lemma clauses (kw : Keywords) (hn : Watching host w c nested nested') (budget : Nat)
    (operands : Handle) : Watched host W s w c (Form.clauses kw nested budget operands)
      (Form.clauses kw nested' budget operands) := by
  induction budget generalizing operands with
  | zero => exact .refl (.halt id)
  | succ budget ih =>
    refine .bind (.refl (asPair operands)) fun parts => ?_
    cases parts with
    | none => exact .refl (.ite (fun _ => .pure _) fun _ => raise _ _)
    | some parts =>
      refine .bind (.refl (asPair _)) fun clause => ?_
      cases clause with
      | none => exact .refl (raise _ _)
      | some clause =>
        refine .bind (.refl (hasType _ _)) fun pair => .ite (fun _ => .refl (raise _ _)) fun _ => ?_
        refine .ite (fun _ => .refl (.pure _)) fun _ => .bind (hn.asked _) fun v => ?_
        exact .ite (fun _ => .refl (.pure _)) fun _ => ih _

lemma conjuncts (hn : Watching host w c nested nested') (budget : Nat) (operands : Handle) :
    Watched host W s w c (Form.conjuncts nested budget operands)
      (Form.conjuncts nested' budget operands) := by
  induction budget generalizing operands with
  | zero => exact .refl (.halt id)
  | succ budget ih =>
    refine .bind (.refl (asPair operands)) fun parts => ?_
    cases parts with
    | none => exact .refl (raise _ _)
    | some parts =>
      refine .ite (fun _ => .refl (.pure _)) fun _ => .bind (hn.asked _) fun v => ?_
      exact .ite (fun _ => ih _) fun _ => .refl (.pure _)

lemma conjunction (hn : Watching host w c nested nested') (budget : Nat) (operands : Handle) :
    Watched host W s w c (Form.conjunction nested budget operands)
      (Form.conjunction nested' budget operands) :=
  .ite (fun _ => .refl (.pure _)) fun _ => conjuncts hn _ _

lemma disjuncts (hn : Watching host w c nested nested') (budget : Nat) (operands : Handle) :
    Watched host W s w c (Form.disjuncts nested budget operands)
      (Form.disjuncts nested' budget operands) := by
  induction budget generalizing operands with
  | zero => exact .refl (.halt id)
  | succ budget ih =>
    refine .bind (.refl (asPair operands)) fun parts => ?_
    cases parts with
    | none => exact .refl (raise _ _)
    | some parts =>
      refine .ite (fun _ => .refl (.pure _)) fun _ => .bind (hn.asked _) fun v => ?_
      exact .ite (fun _ => .refl (.pure _)) fun _ => ih _

lemma disjunction (hn : Watching host w c nested nested') (budget : Nat) (operands : Handle) :
    Watched host W s w c (Form.disjunction nested budget operands)
      (Form.disjunction nested' budget operands) :=
  .ite (fun _ => .refl (.pure _)) fun _ => disjuncts hn _ _

lemma orderly_closeOver (params body : Handle) : Orderly host W s (Form.closeOver params body) := by
  refine .bind (walkSpine params) fun spine => .bind (.allM (fun _ => hasType _ _) _) fun all => ?_
  refine .ite (fun _ => raise _ _) fun _ => ?_
  split
  · exact raise _ _
  · refine .bind (hasType _ _) fun symbol => .ite (fun _ => raise _ _) fun _ => ?_
    refine .bind (hasType _ _) fun pair => .ite (fun _ => raise _ _) fun _ => ?_
    exact .bind .currentEnv fun _ => .alloc rfl

lemma orderly_lambda (operands : Handle) : Orderly host W s (Form.lambda operands) := by
  refine .bind (asPair operands) fun parts => ?_
  cases parts with
  | none => exact raise _ _
  | some parts => exact .bind (orderly_closeOver _ _) fun _ => .pure _

lemma orderly_bindHere (name v : Handle) : Orderly host W s (Form.bindHere name v) :=
  .bind .currentEnv fun _ => .bind (.define _ _ _) fun _ => .pure _

lemma orderly_procedureDefinition (name params body : Handle) :
    Orderly host W s (Form.procedureDefinition name params body) :=
  .bind (hasType _ _) fun _ => .ite
    (fun _ => .bind (orderly_closeOver _ _) fun _ => orderly_bindHere _ _) fun _ => raise _ _

lemma variableDefinition (hn : Watching host w c nested nested') (name operands : Handle) :
    Watched host W s w c (Form.variableDefinition nested name operands)
      (Form.variableDefinition nested' name operands) := by
  refine .bind (.refl (hasType _ _)) fun symbol => .ite (fun _ => ?_) fun _ => .refl (raise _ _)
  refine .bind (.refl (items? _)) fun vs => ?_
  split
  · exact .bind (hn.asked _) fun _ => .refl (orderly_bindHere _ _)
  · exact .refl (orderly_wrongOperands _ _)

lemma definition (hn : Watching host w c nested nested') (operands : Handle) :
    Watched host W s w c (Form.definition nested operands) (Form.definition nested' operands) := by
  refine .bind (.refl (asPair operands)) fun parts => ?_
  cases parts with
  | none => exact .refl (raise _ _)
  | some parts =>
    refine .bind (.refl (asPair _)) fun target => ?_
    cases target with
    | some target => exact .refl (orderly_procedureDefinition _ _ _)
    | none => exact variableDefinition hn _ _

lemma assignment (hn : Watching host w c nested nested') (operands : Handle) :
    Watched host W s w c (Form.assignment nested operands) (Form.assignment nested' operands) := by
  refine .bind (.refl (items? _)) fun vs => ?_
  split
  · refine .bind (.refl (hasType _ _)) fun symbol => .ite (fun _ => ?_) fun _ => .refl (raise _ _)
    exact .bind (hn.asked _) fun _ => .refl
      (.bind .currentEnv fun _ => .bind (.assign _ _ _) fun _ => .pure _)
  · exact .refl (orderly_wrongOperands _ _)

lemma apply (kw : Keywords) (hn : Watching host w c nested nested') (operands : Handle) :
    Watched host W s w c (Form.apply kw nested operands) (Form.apply kw nested' operands) := by
  refine .bind (.refl (items? _)) fun vs => ?_
  split
  · refine .bind (hn.asked _) fun args => .bind (.refl (items? _)) fun vs => ?_
    cases vs with
    | none => exact .refl (raise _ _)
    | some vs =>
      refine .refl (.rooted fun _ => .rooted fun quoted => .bind
        (.forM (fun v => ?_) _) fun _ => ?_)
      · exact .bind (list _) fun _ => .bind (.contents _) fun _ => .bind (cons _ _) fun _ =>
          .store (.inr rfl) _
      · exact .bind (.contents _) fun _ => .bind (cons _ _) fun _ => .pure _
  · exact .refl (orderly_wrongOperands _ _)

lemma eval (hn : Watching host w c nested nested') (operands : Handle) :
    Watched host W True w c (Form.eval nested operands) (Form.eval nested' operands) := by
  refine .bind (.refl (items? _)) fun vs => ?_
  split
  · refine .bind (hn.asked _) fun target => .rooted fun _ => .bind (hn.asked _) fun env => ?_
    refine .refl (.bind (hasType _ _) fun frame => .ite (fun _ => ?_) fun _ => ?_)
    · exact .bind (.setCurrentEnv _) fun _ => .pure _
    · exact .ite (fun _ => raise _ _) fun _ => .pure _
  · exact .refl (orderly_wrongOperands _ _)

lemma orderly_theEnvironment (operands : Handle) :
    Orderly host W s (Form.theEnvironment operands) := by
  refine .bind (items? _) fun vs => ?_
  split
  · exact .bind .currentEnv fun _ => .pure _
  · exact orderly_wrongOperands _ _

/-! ## Steps and turns -/

variable {ctx : Context}

lemma ofPair (hb : HostBalanced ctx.host) (hn : Watching ctx.host w c nested nested')
    (budget : Nat) (head operands : Handle) :
    Watched ctx.host W True w c (Step.ofPair ctx nested budget head operands)
      (Step.ofPair ctx nested' budget head operands) := by
  refine .ite (fun _ => .refl (orderly_quote _)) fun _ => ?_
  refine .ite (fun _ => quasiquote _ hn _ _) fun _ => ?_
  refine .ite (fun _ => conditional hn _) fun _ => ?_
  refine .ite (fun _ => .refl (.pure _)) fun _ => ?_
  refine .ite (fun _ => clauses _ hn _ _) fun _ => ?_
  refine .ite (fun _ => definition hn _) fun _ => ?_
  refine .ite (fun _ => assignment hn _) fun _ => ?_
  refine .ite (fun _ => conjunction hn _ _) fun _ => ?_
  refine .ite (fun _ => disjunction hn _ _) fun _ => ?_
  refine .ite (fun _ => .refl (.bind (.expand _ _) fun _ => .pure _)) fun _ => ?_
  refine .ite (fun _ => .refl (orderly_lambda _)) fun _ => ?_
  refine .ite (fun _ => apply _ hn _) fun _ => ?_
  refine .ite (fun _ => eval hn _) fun _ => ?_
  refine .ite (fun _ => .refl (orderly_theEnvironment _)) fun _ => ?_
  exact ofCombination hb hn _ _ _

lemma ofExpr (hb : HostBalanced ctx.host) (hn : Watching ctx.host w c nested nested')
    (budget : Nat) (expr : Handle) :
    Watched ctx.host W True w c (Step.ofExpr ctx nested budget expr)
      (Step.ofExpr ctx nested' budget expr) := by
  refine .bind (.refl (datum expr)) fun d => ?_
  cases d with
  | pair head operands => exact ofPair hb hn _ _ _
  | symbol name => exact .refl (.bind .currentEnv fun _ => .bind (.lookup _ _) fun _ => .pure _)
  | closure env params body => exact .refl (raise _ _)
  | frame parent names values => exact .refl (raise _ _)
  | _ => exact .refl (.pure _)

/-- A turn writes to the slot of its evaluation only, and it passes failures on. -/
lemma turn (hb : HostBalanced ctx.host) (hn : Watching ctx.host w c nested nested')
    (budget : Nat) {slot : Root} (hs : W slot.slot) (focus : Focus) :
    Watched ctx.host W True w c (Evaluator.turn ctx nested budget slot focus)
      (Evaluator.turn ctx nested' budget slot focus) := by
  have hstep : ∀ v, Watched ctx.host W True w c (Evaluator.step ctx nested budget focus v)
      (Evaluator.step ctx nested' budget focus v) := fun v => by
    cases focus with
    | expr => exact ofExpr hb hn _ _
    | body => exact ofBody hn _ _
  refine .bind (.refl (.contents _)) fun v => .bind_refl (hstep v) fun step => ?_
  cases step with
  | done v => exact .pure _
  | eval expr => exact .bind (.store hs _) fun _ => .pure _
  | body seq => exact .bind (.store hs _) fun _ => .pure _

end Watched

end ArenaScheme
