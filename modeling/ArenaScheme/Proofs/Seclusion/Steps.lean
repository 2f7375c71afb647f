/-
# Safe evaluation

Every step of evaluation is safe if the evaluator that it calls is, and then so is every turn; and
the evaluator itself, by induction on its budget.  What a step gives away is its value, or the
expression that is to be evaluated in its place.
-/
import ArenaScheme.Eval.Evaluator
import ArenaScheme.Proofs.Discipline.Evaluator
import ArenaScheme.Proofs.Seclusion.Application

namespace ArenaScheme

open Heap HeapM

variable {ε α : Type} {R : Prop} {V : Veil} {h k : Heap} {u v : Handle} {kw : Keywords}
  {nested : Nested}

namespace Safe

lemma wrongOperands [Exhibit α] (hs : V.Seals h) (form : String) (wanted : Nat) :
    ((wrongOperands form wanted : EvalM α) h).Safe R V h := raise hs _ _

/-! ## Bodies -/

lemma ofBody (hn : Sheltering kw R nested) (budget : Nat) {seq : Handle} (hr : V.Ready kw h)
    (hq : V.Shows h seq) : ((Step.ofBody nested budget seq) h).Safe R V h := by
  induction budget generalizing h seq with
  | zero => exact ends_halt (by simp)
  | succ budget ih =>
    refine ends_asPair (raise hr.seals _ _) fun expr rest hp => ?_
    have hexpr : V.Shows h expr := fun hu => (hr.seals hu).open_part hp (by simp [Datum.parts])
    have hrest : V.Shows h rest := fun hu => (hr.seals hu).open_tail (hq hu) hp
    refine ends_ite (fun _ => pure hr.seals hexpr) fun _ => ?_
    exact bind (hn V h expr hr hexpr) fun _ k hk _ => ih (hr.keeps hk) (hk.shows hrest)

/-! ## Templates -/

section Templates

open Template

/-- A copier that is safe wherever it may be called. -/
def Copying (kw : Keywords) (R : Prop) (copy : Copier) : Prop :=
  ∀ (V : Veil) (h : Heap) (template : Handle) (level : Nat), V.Ready kw h → V.Shows h template →
    (copy template level h).Safe R V h

lemma copyQuotation {copy : Copier} (hn : Sheltering kw R nested) (hc : Copying kw R copy)
    {form : Handle} (level : Nat) (hr : V.Ready kw h) (hf : V.Shows h form) :
    ((copyQuotation kw nested copy form level) h).Safe R V h := by
  refine ends_asPair (pure hr.seals hf) fun head rest hp => ?_
  have hhead : V.Shows h head := fun hu => (hr.seals hu).open_part hp (by simp [Datum.parts])
  have hlist : ∀ {tag inner : Handle} (level : Nat), V.Shows h tag → V.Shows h inner →
      ((do HeapM.list [tag, ← copy inner level] : EvalM Handle) h).Safe R V h := by
    intro tag inner level ht hi
    refine bind (hc V h inner level hr hi) fun v k hk hv => list hk.seals fun u hu => ?_
    simp only [List.mem_cons, List.not_mem_nil, or_false] at hu
    rcases hu with rfl | rfl
    · exact hk.shows ht
    · exact hv
  refine ends_ite (fun _ => ends_items hr.seals fun vs hvs => ?_) fun _ =>
    ends_items hr.seals fun vs hvs => ?_
  · split
    · exact hlist _ hr.speaks.quasiquote (hvs _ rfl _ (by simp))
    · exact wrongOperands hr.seals _ _
  · split
    · exact hn V h _ hr (hvs _ rfl _ (by simp))
    · exact hlist _ hhead (hvs _ rfl _ (by simp))
    · exact wrongOperands hr.seals _ _

variable {out : Root} {last : Option Handle}

lemma link (hs : V.Seals h) (ho : V.Bares h out) (hl : Exhibit.shown V h last) (hv : V.Shows h v) :
    ((link out last v) h).Safe R V h := by
  cases last with
  | some pair => exact setCdr hs (hl pair rfl) hv
  | none => exact store hs ho hv

lemma push (hs : V.Seals h) (ho : V.Bares h out) (hl : Exhibit.shown V h last) (hv : V.Shows h v) :
    ((push out last v) h).Safe R V h := by
  refine bind (cons hs hv fun hu => (hs hu).open_sentinel (by decide)) fun cell k hk hc => ?_
  refine bind (link hk.seals (hk.bares ho) (Exhibit.mono hk hl) hc) fun _ l hl' _ => ?_
  exact pure hl'.seals (hl'.shows hc)

lemma splice (hs : V.Seals h) (ho : V.Bares h out) (hl : Exhibit.shown V h last)
    (hv : V.Shows h v) : ((splice out last v) h).Safe R V h := by
  refine ends_items hs fun vs hvs => ?_
  cases vs with
  | none => exact raise hs _ _
  | some vs =>
    refine rooted hs hv fun _ k hk _ => foldlM hk.seals
      (Exhibit.mono hk hl) fun last u hu m hm hl => ?_
    refine bind (push hm.seals (hm.bares (hk.bares ho)) hl
      (hm.shows (hk.shows (hvs vs rfl u hu)))) fun c n hn hc => pure hn.seals fun w hw => ?_
    exact Option.mem_some.mp hw ▸ hc

lemma isSplice (hs : V.Seals h) (level : Nat) (item : Handle) :
    ((isSplice kw level item) h).Safe R V h := by
  refine ends_ite (fun _ => ?_) fun _ => pure hs trivial
  exact ends_asPair (pure hs trivial) fun _ _ _ => pure hs trivial

lemma copySpine {copy : Copier} (hn : Sheltering kw R nested) (hc : Copying kw R copy)
    (level budget : Nat) {rest : Handle} (hr : V.Ready kw h) (ho : V.Bares h out)
    (hl : Exhibit.shown V h last) (hv : V.Shows h rest) :
    ((copySpine kw nested copy out level budget last rest) h).Safe R V h := by
  induction budget generalizing h last rest with
  | zero => exact ends_halt (by simp)
  | succ budget ih =>
    refine ends_asPair ?_ fun item next hp => ?_
    · exact bind (link hr.seals ho hl hv) fun _ k hk _ => contents hk.seals (hk.bares ho)
    have hitem : V.Shows h item := fun hu => (hr.seals hu).open_part hp (by simp [Datum.parts])
    have hnext : V.Shows h next := fun hu => (hr.seals hu).open_tail (hv hu) hp
    refine ends_ite (fun _ => ?_) fun _ => ?_
    · refine bind (copyQuotation hn hc level hr hv) fun v k hk hv => ?_
      refine bind (link hk.seals (hk.bares ho) (Exhibit.mono hk hl) hv) fun _ m hm _ => ?_
      exact contents hm.seals (hm.bares (hk.bares ho))
    refine bind (isSplice hr.seals level item) fun b k hk _ => ?_
    have hrk := hr.keeps hk
    refine ends_ite (fun _ => ?_) fun _ => ?_
    · refine ends_bind (P := fun _ m => m = k) ?_ fun tail m hm => ?_
      · refine ends_expect fun d p hd hp => ?_
        rfl
      subst hm
      refine ends_items hrk.seals fun vs hvs => ?_
      split
      · refine bind (hn V _ _ hrk (hvs _ rfl _ (by simp))) fun v m hm hv => ?_
        refine bind (splice hm.seals (hm.bares (hk.bares ho)) (Exhibit.mono hm (Exhibit.mono hk hl))
          hv) fun last n hn' hl' => ?_
        exact ih ((hrk.keeps hm).keeps hn') (hn'.bares (hm.bares (hk.bares ho))) hl'
          (hn'.shows (hm.shows (hk.shows hnext)))
      · exact wrongOperands hrk.seals _ _
    · refine bind (hc V k item level hrk (hk.shows hitem)) fun v m hm hv => ?_
      refine bind (push hm.seals (hm.bares (hk.bares ho)) (Exhibit.mono hm (Exhibit.mono hk hl)) hv)
        fun c n hn' hcell => ?_
      refine ih ((hrk.keeps hm).keeps hn') (hn'.bares (hm.bares (hk.bares ho))) (fun w hw => ?_)
        (hn'.shows (hm.shows (hk.shows hnext)))
      exact Option.mem_some.mp hw ▸ hcell

lemma copy (hn : Sheltering kw R nested) (budget : Nat) : Copying kw R (copy kw nested budget) := by
  induction budget with
  | zero => exact fun _ _ _ _ _ _ => ends_halt (by simp)
  | succ budget ih =>
    intro V h template level hr ht
    refine ends_asPair (pure hr.seals ht) fun head _ _ => ?_
    refine ends_ite (fun _ => copyQuotation hn ih level hr ht) fun _ => ?_
    refine rooted hr.seals (fun hu => (hr.seals hu).open_sentinel (by decide)) fun out k hk ho => ?_
    exact copySpine hn ih level _ (hr.keeps hk) ho (by simp [Exhibit.shown]) (hk.shows ht)

end Templates

/-! ## Special forms -/

section Forms

open Form

variable {operands : Handle}

/-- The elements of a list are open. -/
lemma shown_mem {vs : List Handle} {o : Option (List Handle)} (hvs : Exhibit.shown V h o)
    (ho : o = some vs) (hv : v ∈ vs) : V.Shows h v := hvs vs ho v hv

lemma quote (hs : V.Seals h) (operands : Handle) : ((Form.quote operands) h).Safe R V h := by
  refine ends_items hs fun vs hvs => ?_
  split
  · exact pure hs (shown_mem hvs rfl (by simp))
  · exact wrongOperands hs _ _

lemma quasiquote (hn : Sheltering kw R nested) (budget : Nat) (hr : V.Ready kw h)
    (operands : Handle) : ((Form.quasiquote kw nested budget operands) h).Safe R V h := by
  refine ends_items hr.seals fun vs hvs => ?_
  split
  · exact bind (copy hn _ V h _ 0 hr (shown_mem hvs rfl (by simp))) fun _ _ hk hv =>
      pure hk.seals hv
  · exact wrongOperands hr.seals _ _

lemma conditional (hn : Sheltering kw R nested) (hr : V.Ready kw h) (operands : Handle) :
    ((Form.conditional nested operands) h).Safe R V h := by
  refine ends_items hr.seals fun vs hvs => ?_
  split
  · refine bind (hn V h _ hr (shown_mem hvs rfl (by simp))) fun v k hk _ => ?_
    exact ends_ite (fun _ => pure hk.seals (hk.shows (shown_mem hvs rfl (by simp))))
      fun _ => pure hk.seals (hk.shows (shown_mem hvs rfl (by simp)))
  · exact wrongOperands hr.seals _ _

lemma clauses (hn : Sheltering kw R nested) (budget : Nat) (hr : V.Ready kw h)
    (ho : V.Shows h operands) : ((Form.clauses kw nested budget operands) h).Safe R V h := by
  induction budget generalizing h operands with
  | zero => exact ends_halt (by simp)
  | succ budget ih =>
    refine ends_asPair (ends_ite (fun _ => ?_) fun _ => raise hr.seals _ _) fun clause rest hp => ?_
    · exact pure hr.seals fun hu => (hr.seals hu).open_sentinel (by decide)
    have hclause : V.Shows h clause := fun hu => (hr.seals hu).open_part hp (by simp [Datum.parts])
    have hrest : V.Shows h rest := fun hu => (hr.seals hu).open_tail (ho hu) hp
    refine ends_asPair (raise hr.seals _ _) fun test body hp => ?_
    have htest : V.Shows h test := fun hu => (hr.seals hu).open_part hp (by simp [Datum.parts])
    have hbody : V.Shows h body := fun hu => (hr.seals hu).open_tail (hclause hu) hp
    refine ends_hasType fun d _ => ends_ite (fun _ => raise hr.seals _ _) fun _ => ?_
    refine ends_ite (fun _ => pure hr.seals hbody) fun _ => ?_
    refine bind (hn V h test hr htest) fun v k hk _ => ?_
    exact ends_ite (fun _ => pure hk.seals (hk.shows hbody))
      fun _ => ih (hr.keeps hk) (hk.shows hrest)

lemma conjuncts (hn : Sheltering kw R nested) (budget : Nat) (hr : V.Ready kw h)
    (ho : V.Shows h operands) : ((Form.conjuncts nested budget operands) h).Safe R V h := by
  induction budget generalizing h operands with
  | zero => exact ends_halt (by simp)
  | succ budget ih =>
    refine ends_asPair (raise hr.seals _ _) fun expr rest hp => ?_
    have hexpr : V.Shows h expr := fun hu => (hr.seals hu).open_part hp (by simp [Datum.parts])
    have hrest : V.Shows h rest := fun hu => (hr.seals hu).open_tail (ho hu) hp
    refine ends_ite (fun _ => pure hr.seals hexpr) fun _ => ?_
    refine bind (hn V h expr hr hexpr) fun v k hk _ => ?_
    exact ends_ite (fun _ => ih (hr.keeps hk) (hk.shows hrest))
      fun _ => pure hk.seals fun hu => (hk.seals hu).open_sentinel (by decide)

lemma conjunction (hn : Sheltering kw R nested) (budget : Nat) (hr : V.Ready kw h)
    (ho : V.Shows h operands) : ((Form.conjunction nested budget operands) h).Safe R V h :=
  ends_ite (fun _ => pure hr.seals fun hu => (hr.seals hu).open_sentinel (by decide))
    fun _ => conjuncts hn _ hr ho

lemma disjuncts (hn : Sheltering kw R nested) (budget : Nat) (hr : V.Ready kw h)
    (ho : V.Shows h operands) : ((Form.disjuncts nested budget operands) h).Safe R V h := by
  induction budget generalizing h operands with
  | zero => exact ends_halt (by simp)
  | succ budget ih =>
    refine ends_asPair (raise hr.seals _ _) fun expr rest hp => ?_
    have hexpr : V.Shows h expr := fun hu => (hr.seals hu).open_part hp (by simp [Datum.parts])
    have hrest : V.Shows h rest := fun hu => (hr.seals hu).open_tail (ho hu) hp
    refine ends_ite (fun _ => pure hr.seals hexpr) fun _ => ?_
    refine bind (hn V h expr hr hexpr) fun v k hk hv => ?_
    exact ends_ite (fun _ => pure hk.seals hv) fun _ => ih (hr.keeps hk) (hk.shows hrest)

lemma disjunction (hn : Sheltering kw R nested) (budget : Nat) (hr : V.Ready kw h)
    (ho : V.Shows h operands) : ((Form.disjunction nested budget operands) h).Safe R V h :=
  ends_ite (fun _ => pure hr.seals fun hu => (hr.seals hu).open_sentinel (by decide))
    fun _ => disjuncts hn _ hr ho

/-- A closure is made in the current frame. -/
lemma closeOver (hs : V.Seals h) {params body : Handle} (hp : V.Shows h params)
    (hb : V.Shows h body) : ((Form.closeOver params body) h).Safe R V h := by
  have hmake : ∀ {k}, V.Keeps h k →
      ((do makeClosure (← HeapM.currentEnv) params body : EvalM Handle) k).Safe R V k := by
    intro k hk
    refine ends_bind (P := fun env m => m = k ∧ env = k.currentEnv) ⟨rfl, rfl⟩ fun env m hm => ?_
    obtain ⟨rfl, rfl⟩ := hm
    refine alloc hk.seals rfl (by simp) (by simp) (fun c hc => ?_) fun e p b he hu => ?_
    · simp only [Datum.children, List.mem_cons, List.not_mem_nil, or_false] at hc
      rcases hc with rfl | rfl | rfl
      · exact fun hu => (hk.seals hu).open_frame (hk.seals hu).current
      · exact hk.shows hp
      · exact hk.shows hb
    · obtain ⟨rfl, -, -⟩ := Datum.closure.inj he
      exact (hk.seals hu).current
  have htype : ∀ {k} t v, V.Keeps h k → ((hasType t v : EvalM Bool) k).Safe R V k :=
    fun t v hk => ends_typeOf fun _ _ => pure hk.seals trivial
  refine ends_walkSpine hs hp fun w _ _ => ?_
  refine bind (allM hs fun v _ k hk => htype _ v hk) fun b k hk _ => ?_
  refine ends_ite (fun _ => raise hk.seals _ _) fun _ => ?_
  cases w.ending with
  | none => exact raise hk.seals _ _
  | some ending =>
    refine ends_hasType fun d _ => ends_ite (fun _ => raise hk.seals _ _) fun _ => ?_
    exact ends_hasType fun d _ => ends_ite (fun _ => raise hk.seals _ _) fun _ => hmake hk

lemma lambda (hs : V.Seals h) (ho : V.Shows h operands) :
    ((Form.lambda operands) h).Safe R V h := by
  refine ends_asPair (raise hs _ _) fun params body hp => ?_
  have hparams : V.Shows h params := fun hu => (hs hu).open_part hp (by simp [Datum.parts])
  have hbody : V.Shows h body := fun hu => (hs hu).open_tail (ho hu) hp
  exact bind (closeOver hs hparams hbody) fun _ _ hk hv => pure hk.seals hv

lemma bindHere (hs : V.Seals h) {name : Handle} (hn : V.Shows h name) (hv : V.Shows h v) :
    ((Form.bindHere name v) h).Safe R V h := by
  refine bind (currentEnv hs) fun env k hk _ => ?_
  exact bind (define hk.seals (hk.shows hn) (hk.shows hv)) fun _ _ hl hw => pure hl.seals hw

lemma procedureDefinition (hs : V.Seals h) {name params body : Handle} (hn : V.Shows h name)
    (hp : V.Shows h params) (hb : V.Shows h body) :
    ((Form.procedureDefinition name params body) h).Safe R V h := by
  refine ends_hasType fun d _ => ends_ite (fun _ => ?_) fun _ => raise hs _ _
  exact bind (closeOver hs hp hb) fun _ _ hk hv => bindHere hk.seals (hk.shows hn) hv

lemma variableDefinition (hn : Sheltering kw R nested) (hr : V.Ready kw h) {name : Handle}
    (hname : V.Shows h name) (operands : Handle) :
    ((Form.variableDefinition nested name operands) h).Safe R V h := by
  refine ends_hasType fun d _ => ends_ite (fun _ => ?_) fun _ => raise hr.seals _ _
  refine ends_items hr.seals fun vs hvs => ?_
  split
  · refine bind (hn V h _ hr (shown_mem hvs rfl (by simp))) fun v k hk hv => ?_
    exact bindHere hk.seals (hk.shows hname) hv
  · exact wrongOperands hr.seals _ _

lemma definition (hn : Sheltering kw R nested) (hr : V.Ready kw h) (ho : V.Shows h operands) :
    ((Form.definition nested operands) h).Safe R V h := by
  refine ends_asPair (raise hr.seals _ _) fun target rest hp => ?_
  have htarget : V.Shows h target := fun hu => (hr.seals hu).open_part hp (by simp [Datum.parts])
  have hrest : V.Shows h rest := fun hu => (hr.seals hu).open_tail (ho hu) hp
  refine ends_asPair (variableDefinition hn hr htarget rest) fun name params hp => ?_
  exact procedureDefinition hr.seals (fun hu => (hr.seals hu).open_part hp (by simp [Datum.parts]))
    (fun hu => (hr.seals hu).open_tail (htarget hu) hp) hrest

lemma assignment (hn : Sheltering kw R nested) (hr : V.Ready kw h) (operands : Handle) :
    ((Form.assignment nested operands) h).Safe R V h := by
  refine ends_items hr.seals fun vs hvs => ?_
  split
  · refine ends_hasType fun d _ => ends_ite (fun _ => ?_) fun _ => raise hr.seals _ _
    refine bind (hn V h _ hr (shown_mem hvs rfl (by simp))) fun v k hk hv => ?_
    refine bind (currentEnv hk.seals) fun env l hl _ => ?_
    exact bind (assign hl.seals env _ (hl.shows hv)) fun _ _ hm hw => pure hm.seals hw
  · exact wrongOperands hr.seals _ _

/-- The combination that stands for a call with a list of arguments. -/
lemma applyForm (hn : Sheltering kw R nested) (hr : V.Ready kw h) (operands : Handle) :
    ((Form.apply kw nested operands) h).Safe R V h := by
  refine ends_items hr.seals fun vs hvs => ?_
  split
  · next procedure expr =>
    have hproc : V.Shows h procedure := shown_mem hvs rfl (by simp)
    refine bind (hn V h expr hr (shown_mem hvs rfl (by simp))) fun args k hk hargs => ?_
    refine ends_items hk.seals fun vs hvs => ?_
    cases vs with
    | none => exact raise hk.seals _ _
    | some vs =>
      refine rooted hk.seals hargs fun _ l hl _ => ?_
      refine rooted hl.seals (fun hu => (hl.seals hu).open_sentinel (by decide))
        fun quoted m hm hq => ?_
      refine bind (forM hm.seals fun v hv m' hm' => ?_) fun _ n hn' _ => ?_
      · have hquote : V.Shows m' kw.quote :=
          hm'.shows (hm.shows (hl.shows (hk.shows hr.speaks.quote)))
        have hvm : V.Shows m' v :=
          hm'.shows (hm.shows (hl.shows (shown_mem hvs rfl (List.mem_reverse.mp hv))))
        refine bind (list hm'.seals fun u hu => ?_) fun item i hi hitem => ?_
        · simp only [List.mem_cons, List.not_mem_nil, or_false] at hu
          rcases hu with rfl | rfl
          · exact hquote
          · exact hvm
        have hqi : V.Bares i quoted := hi.bares (hm'.bares hq)
        refine bind (contents hi.seals hqi) fun rest j hj hrest => ?_
        exact bind (cons hj.seals (hj.shows hitem) hrest) fun c n hn' hc =>
          store hn'.seals (hn'.bares (hj.bares hqi)) hc
      · refine bind (contents hn'.seals (hn'.bares hq)) fun rest j hj hrest => ?_
        refine bind (cons hj.seals ?_ hrest) fun _ _ hc hcell => pure hc.seals hcell
        exact hj.shows (hn'.shows (hm.shows (hl.shows (hk.shows hproc))))
  · exact wrongOperands hr.seals _ _

/-- An environment is a frame, so names may be looked up in it. -/
lemma evalForm (hn : Sheltering kw R nested) (hr : V.Ready kw h) (operands : Handle) :
    ((Form.eval nested operands) h).Safe R V h := by
  refine ends_items hr.seals fun vs hvs => ?_
  split
  · next expr place =>
    have hplace : V.Shows h place := shown_mem hvs rfl (by simp)
    refine bind (hn V h expr hr (shown_mem hvs rfl (by simp))) fun target k hk ht => ?_
    refine rooted hk.seals ht fun _ l hl _ => ?_
    have hrl := (hr.keeps hk).keeps hl
    refine bind (hn V l place hrl (hl.shows (hk.shows hplace))) fun env m hm henv => ?_
    have htm : V.Shows m target := hm.shows (hl.shows ht)
    refine ends_hasType fun d hd => ends_ite (fun hframe => ?_) fun _ => ?_
    · refine bind (setCurrentEnv hm.seals fun _ => ?_) fun _ n hn' _ =>
        pure hn'.seals (hn'.shows htm)
      cases d with
      | frame p names values => exact ⟨_, _, _, object?_eq_some.mpr ⟨cells_of_read hd, rfl⟩⟩
      | _ => simp [Datum.type] at hframe
    · exact ends_ite (fun _ => raise hm.seals _ _) fun _ => pure hm.seals htm
  · exact wrongOperands hr.seals _ _

lemma theEnvironment (hs : V.Seals h) (operands : Handle) :
    ((Form.theEnvironment operands) h).Safe R V h := by
  refine ends_items hs fun vs _ => ?_
  split
  · exact bind (currentEnv hs) fun _ _ hk hv => pure hk.seals hv
  · exact wrongOperands hs _ _

end Forms

/-! ## Steps and turns -/

variable {ctx : Context}

/-- A turn that goes on has put what it goes on with into a slot. -/
instance : Exhibit Turn where
  shown V h
    | .done v => V.Shows h v
    | .again _ => True
  mono {_ _ _ _ _ turn} hk ht := by
    cases turn with
    | done v => exact hk.shows ht
    | again focus => trivial

lemma ofPair (hh : ctx.host = #[]) (hn : Sheltering ctx.keywords R nested) (budget : Nat)
    {head operands : Handle} (hr : V.Ready ctx.keywords h) (hhead : V.Shows h head)
    (ho : V.Shows h operands) : ((Step.ofPair ctx nested budget head operands) h).Safe R V h := by
  refine ends_ite (fun _ => quote hr.seals _) fun _ => ?_
  refine ends_ite (fun _ => quasiquote hn _ hr _) fun _ => ?_
  refine ends_ite (fun _ => conditional hn hr _) fun _ => ?_
  refine ends_ite (fun _ => pure hr.seals ho) fun _ => ?_
  refine ends_ite (fun _ => clauses hn _ hr ho) fun _ => ?_
  refine ends_ite (fun _ => definition hn hr ho) fun _ => ?_
  refine ends_ite (fun _ => assignment hn hr _) fun _ => ?_
  refine ends_ite (fun _ => conjunction hn _ hr ho) fun _ => ?_
  refine ends_ite (fun _ => disjunction hn _ hr ho) fun _ => ?_
  refine ends_ite (fun _ => ?_) fun _ => ?_
  · exact bind (expand hr.seals hr.speaks.lambda hr.speaks.definition ho)
      fun _ _ hk hv => pure hk.seals hv
  refine ends_ite (fun _ => lambda hr.seals ho) fun _ => ?_
  refine ends_ite (fun _ => applyForm hn hr _) fun _ => ?_
  refine ends_ite (fun _ => evalForm hn hr _) fun _ => ?_
  refine ends_ite (fun _ => theEnvironment hr.seals _) fun _ => ?_
  rw [hh]
  exact ofCombination hn budget hr hhead ho

lemma ofExpr (hh : ctx.host = #[]) (hn : Sheltering ctx.keywords R nested) (budget : Nat)
    {expr : Handle} (hr : V.Ready ctx.keywords h) (he : V.Shows h expr) :
    ((Step.ofExpr ctx nested budget expr) h).Safe R V h := by
  refine ends_datum fun d hd => ?_
  cases d with
  | pair head operands =>
    have hp : h.object? expr = some (.pair head operands) :=
      object?_eq_some.mpr ⟨cells_of_read hd, rfl⟩
    exact ofPair hh hn budget hr (fun hu => (hr.seals hu).open_part hp (by simp [Datum.parts]))
      fun hu => (hr.seals hu).open_tail (he hu) hp
  | symbol name =>
    refine bind (currentEnv hr.seals) fun env k hk _ => ?_
    exact bind (lookup hk.seals env expr) fun _ _ hl hv => pure hl.seals hv
  | closure env params body => exact raise hr.seals _ _
  | frame p names values => exact raise hr.seals _ _
  | _ => exact pure hr.seals he

lemma turn (hh : ctx.host = #[]) (hn : Sheltering ctx.keywords R nested) (budget : Nat)
    {slot : Root} (focus : Focus) (hr : V.Ready ctx.keywords h) (hs : V.Bares h slot) :
    ((Evaluator.turn ctx nested budget slot focus) h).Safe R V h := by
  refine bind (contents hr.seals hs) fun v k hk hv => ?_
  have hstep : ((Evaluator.step ctx nested budget focus v) k).Safe R V k := by
    cases focus with
    | expr => exact ofExpr hh hn budget (hr.keeps hk) hv
    | body => exact ofBody hn budget (hr.keeps hk) hv
  refine bind hstep fun step l hl hshown => ?_
  have hsl : V.Bares l slot := hl.bares (hk.bares hs)
  cases step with
  | done v => exact pure hl.seals hshown
  | eval expr => exact bind (store hl.seals hsl hshown) fun _ _ hm _ => pure hm.seals trivial
  | body seq => exact bind (store hl.seals hsl hshown) fun _ _ hm _ => pure hm.seals trivial

/-! ## The evaluator -/

lemma runWith {loop : Root → Focus → EvalM Handle} {expr : Handle}
    (hl : ∀ slot k, V.Keeps h k → V.Bares k slot → (loop slot .expr k).Safe R V k)
    (hs : V.Seals h) (he : V.Shows h expr) : ((Evaluator.runWith loop expr) h).Safe R V h :=
  rooted hs he hl

lemma loop (hh : ctx.host = #[]) (budget : Nat) {slot : Root} (focus : Focus)
    (hr : V.Ready ctx.keywords h) (hs : V.Bares h slot) :
    ((Evaluator.loop ctx budget slot focus) h).Safe R V h := by
  induction budget generalizing V h slot focus with
  | zero => exact ends_halt (by simp)
  | succ budget ih =>
    have hn : Sheltering ctx.keywords R (Evaluator.nestedEval ctx budget) := fun V h expr hr he =>
      keepingEnv hr.seals fun k hk => runWith (fun _ _ hl hs => ih _ ((hr.keeps hk).keeps hl) hs)
        hk.seals (hk.shows he)
    rw [Evaluator.loop_succ]
    refine bind (turn hh hn budget focus hr hs) fun t k hk ht => ?_
    cases t with
    | done v => exact pure hk.seals ht
    | again focus => exact ih focus (hr.keeps hk) (hk.bares hs)

/-- The evaluator is safe wherever it is called. -/
lemma nestedEval (hh : ctx.host = #[]) (budget : Nat) :
    Sheltering ctx.keywords R (Evaluator.nestedEval ctx budget) := fun _ _ _ hr he =>
  keepingEnv hr.seals fun _ hk => runWith (fun _ _ hl hs => loop hh _ _ ((hr.keeps hk).keeps hl) hs)
    hk.seals (hk.shows he)

/-- Evaluating an open expression in the current environment. -/
lemma eval [Exhibit ε] (hh : ctx.host = #[]) (budget : Nat) {expr : Handle}
    (hr : V.Ready ctx.keywords h) (he : V.Shows h expr) :
    ((Evaluator.eval ctx budget expr : HeapM ε Handle) h).Safe R V h := by
  refine ends_bind (P := fun env k => k = h ∧ env = h.currentEnv) ⟨rfl, rfl⟩ fun env k hk => ?_
  obtain ⟨rfl, rfl⟩ := hk
  refine recover (fun _ _ => id) (keepingEnv hr.seals fun l hl => ?_)
  refine bind (setCurrentEnv hl.seals fun hu => hl.frames hu _ ?_) fun _ m hm _ => ?_
  · exact (hr.seals (hl.unswept hu)).current
  · exact runWith (fun _ _ hn hs => loop hh _ _ (((hr.keeps hl).keeps hm).keeps hn) hs) hm.seals
      (hm.shows (hl.shows he))

end Safe

end ArenaScheme
