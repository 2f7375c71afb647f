/-
# Special forms in step

Each special form keeps parts of its expression at hand while other parts are evaluated.  They are
parts of what a slot holds, so they last as long as the expression is not changed.
-/
import ArenaScheme.Eval.Evaluator
import ArenaScheme.Proofs.Twin.Expansion

namespace ArenaScheme

namespace Twin

open Heap HeapM

variable {W : Regime} {ρ σ τ : Twin} {R : Twin → Twin → Prop} {r : Role}
  {a b v v' name name' params params' body body' rest rest' : Handle} {k k' m n : Nat}
  {A B : Nat → Prop} {kw kw' : Keywords} {nested nested' : Nested} {ctx ctx' : Context}

/-! ## Quotation and choices -/

lemma Runs.quote (h : Ready W A kw kw' ρ σ) (hs : σ.Sees A a b) :
    Runs W (Evolves m A) (Form.quote a) (Form.quote b) σ fun s s' τ =>
      s.Agree (τ.rel .shown) s' := by
  have hv := h.valid
  refine .items hv (follows_sees hv A) hs (fun vs vs' hvs => ?_) (.raise hv _ _)
  rcases hvs with _ | ⟨h1, _ | _⟩
  · exact .raise hv _ _
  · exact .pure hv (.done h1.1)
  · exact .raise hv _ _

lemma Runs.quasiquote (hn : Nests W A kw kw' ρ nested nested') (hb : W.same → k = k')
    (h : Ready W A kw kw' ρ σ) (hs : σ.Sees A a b) (hm : m ≤ σ.left.roots.size) :
    Runs W (Evolves m A) (Form.quasiquote kw nested k a) (Form.quasiquote kw' nested' k' b) σ
      fun s s' τ => s.Agree (τ.rel .shown) s' := by
  have hv := h.valid
  refine .items hv (follows_sees hv A) hs (fun vs vs' hvs => ?_) (.raise hv _ _)
  rcases hvs with _ | ⟨h1, _ | _⟩
  · exact .raise hv _ _
  · exact (copies_copy hn hb 0 h h1 hm).bind fun _ _ _ hvt _ hq => .pure hvt (.done hq)
  · exact .raise hv _ _

lemma Runs.conditional (hn : Nests W A kw kw' ρ nested nested') (h : Ready W A kw kw' ρ σ)
    (hs : σ.Sees A a b) (hm : m ≤ σ.left.roots.size) :
    Runs W (Evolves m A) (Form.conditional nested a) (Form.conditional nested' b) σ
      fun s s' τ => s.Agree (τ.rel .shown) s' := by
  have hv := h.valid
  refine .items hv (follows_sees hv A) hs (fun vs vs' hvs => ?_) (.raise hv _ _)
  rcases hvs with _ | ⟨h1, _ | ⟨h2, _ | ⟨h3, _ | _⟩⟩⟩
  · exact .raise hv _ _
  · exact .raise hv _ _
  · exact .raise hv _ _
  · refine (hn h h1 hm).bind fun v v' τ hvt he hq => ?_
    rw [hvt.isTruthy_eq hq]
    exact .ite Iff.rfl (fun _ => .pure hvt (.eval (he.sees h2).1))
      fun _ => .pure hvt (.eval (he.sees h3).1)
  · exact .raise hv _ _

lemma Runs.clauses (hn : Nests W A kw kw' ρ nested nested') (hb : W.same → k = k')
    (h : Ready W A kw kw' ρ σ) (hs : σ.Sees A a b) (hm : m ≤ σ.left.roots.size) :
    Runs W (Evolves m A) (Form.clauses kw nested k a) (Form.clauses kw' nested' k' b) σ
      fun s s' τ => s.Agree (τ.rel .shown) s' := by
  induction k generalizing k' σ a b with
  | zero => exact .spent (y := (Form.clauses kw' nested' · b)) hb rfl rfl
  | succ k ih =>
    refine .spend (y := (Form.clauses kw' nested' · b)) hb rfl fun l hb => ?_
    have hv := h.valid
    have hnil : σ.rel .shown Handle.emptyList .emptyList := (hv.sentinel (by decide)).1
    refine .asPair hv hs.1 (fun clause rest clause' rest' hp hp' => ?_) fun _ =>
      .ite (hv.eq_sentinel_iff hs.1 (by decide)) (fun _ => .pure hv (.done hnil))
        fun _ => .raise hv _ _
    obtain ⟨hclause, hrest⟩ := hs.pair hv hp hp'
    refine .asPair hv hclause.1 (fun test body test' body' hp hp' => ?_) fun _ => .raise hv _ _
    obtain ⟨htest, hbody⟩ := hclause.pair hv hp hp'
    refine .hasType hv hbody.1 .pair (fun _ => ?_) fun _ => .raise hv _ _
    refine .ite (h.word_iff htest.1 h.words.otherwise)
      (fun _ => .pure hv (.body hbody.1)) fun _ => ?_
    refine (hn h htest hm).bind fun v v' τ hvt he hq => ?_
    rw [hvt.isTruthy_eq hq]
    exact .ite Iff.rfl (fun _ => .pure hvt (.body (he.sees hbody).1))
      fun _ => ih hb (h.lasts he.1 hvt) (he.sees hrest) (he.depth ▸ hm)

lemma Runs.conjuncts (hn : Nests W A kw kw' ρ nested nested') (hb : W.same → k = k')
    (h : Ready W A kw kw' ρ σ) (hs : σ.Sees A a b) (hm : m ≤ σ.left.roots.size) :
    Runs W (Evolves m A) (Form.conjuncts nested k a) (Form.conjuncts nested' k' b) σ
      fun s s' τ => s.Agree (τ.rel .shown) s' := by
  induction k generalizing k' σ a b with
  | zero => exact .spent (y := (Form.conjuncts nested' · b)) hb rfl rfl
  | succ k ih =>
    refine .spend (y := (Form.conjuncts nested' · b)) hb rfl fun l hb => ?_
    have hv := h.valid
    refine .asPair hv hs.1 (fun expr rest expr' rest' hp hp' => ?_) fun _ => .raise hv _ _
    obtain ⟨hexpr, hrest⟩ := hs.pair hv hp hp'
    refine .ite (hv.eq_sentinel_iff hrest.1 (by decide)) (fun _ => .pure hv (.eval hexpr.1))
      fun _ => ?_
    refine (hn h hexpr hm).bind fun v v' τ hvt he hq => ?_
    rw [hvt.isTruthy_eq hq]
    exact .ite Iff.rfl (fun _ => ih hb (h.lasts he.1 hvt) (he.sees hrest) (he.depth ▸ hm))
      fun _ => .pure hvt (.done (hvt.sentinel (by decide)).1)

lemma Runs.disjuncts (hn : Nests W A kw kw' ρ nested nested') (hb : W.same → k = k')
    (h : Ready W A kw kw' ρ σ) (hs : σ.Sees A a b) (hm : m ≤ σ.left.roots.size) :
    Runs W (Evolves m A) (Form.disjuncts nested k a) (Form.disjuncts nested' k' b) σ
      fun s s' τ => s.Agree (τ.rel .shown) s' := by
  induction k generalizing k' σ a b with
  | zero => exact .spent (y := (Form.disjuncts nested' · b)) hb rfl rfl
  | succ k ih =>
    refine .spend (y := (Form.disjuncts nested' · b)) hb rfl fun l hb => ?_
    have hv := h.valid
    refine .asPair hv hs.1 (fun expr rest expr' rest' hp hp' => ?_) fun _ => .raise hv _ _
    obtain ⟨hexpr, hrest⟩ := hs.pair hv hp hp'
    refine .ite (hv.eq_sentinel_iff hrest.1 (by decide)) (fun _ => .pure hv (.eval hexpr.1))
      fun _ => ?_
    refine (hn h hexpr hm).bind fun v v' τ hvt he hq => ?_
    rw [hvt.isTruthy_eq hq]
    exact .ite Iff.rfl (fun _ => .pure hvt (.done hq))
      fun _ => ih hb (h.lasts he.1 hvt) (he.sees hrest) (he.depth ▸ hm)

/-! ## Procedures and variables -/

lemma Runs.closeOver (h : Ready W A kw kw' ρ σ) (hp : σ.Sees A params params')
    (hb : σ.Sees A body body') :
    Runs W Keeps (Form.closeOver params body) (Form.closeOver params' body') σ
      fun v v' τ => τ.rel .shown v v' := by
  have hv := h.valid
  refine .walkSpine hv (follows_sees hv A) hp
    fun ⟨visited, ending⟩ ⟨visited', ending'⟩ hwalk hvis hend => ?_
  refine (Runs.allM hv hvis fun v v' hs => Runs.testType hv hs.1 .symbol).bind ?_
  rintro t _ υ hv - ⟨rfl, rfl, hall⟩
  refine .ite Iff.rfl (fun _ => .raise hv _ _) fun ht => ?_
  cases hend with
  | none => exact .raise hv _ _
  | @some e e' he =>
    refine (Runs.testType hv he.1 .symbol).bind ?_
    rintro s _ ω hv - ⟨rfl, rfl, hlast⟩
    have hnil := hv.eq_sentinel_iff he.1 (v := .emptyList) (by decide)
    refine .ite (by simp only [ne_eq, hnil]) (fun _ => .raise hv _ _) fun hs => ?_
    refine .hasType hv hb.1 .pair (fun _ => ?_) fun _ => .raise hv _ _
    refine .look (a := ω.left.currentEnv) (b := ω.right.currentEnv) rfl rfl ?_
    -- all parameters have been found to be symbols
    obtain ⟨cells, hrow, -⟩ := row_of_walkSpine hwalk
    have hspec : ω.left.Specifies params visited e := by
      refine ⟨⟨cells, hrow⟩, fun v hm => type_eq_symbol.mp (hall.mp (by simpa using ht) v hm), ?_⟩
      by_cases hne : e = .emptyList
      · exact .inl hne
      · exact .inr (type_eq_symbol.mp (hlast.mp (by simpa [hne] using hs)))
    exact (Runs.alloc hv
      (.closure hv.current hv.currentScope hp.1 (fun _ => ⟨_, _, hspec⟩) hb.1)).post
      fun _ _ _ _ _ hn => hn.rel

lemma Runs.lambda (h : Ready W A kw kw' ρ σ) (hs : σ.Sees A a b) :
    Runs W (Evolves m A) (Form.lambda a) (Form.lambda b) σ fun s s' τ =>
      s.Agree (τ.rel .shown) s' := by
  have hv := h.valid
  refine .asPair hv hs.1 (fun params body params' body' hp hp' => ?_) fun _ => .raise hv _ _
  obtain ⟨hparams, hbody⟩ := hs.pair hv hp hp'
  exact .bind_keeps (.closeOver h hparams hbody) fun _ _ _ hvt _ hq => .pure hvt (.done hq)

/-- Binding a symbol in the current frame. -/
lemma Runs.bindHere (h : Ready W A kw kw' ρ σ) (hname : σ.Sees A name name')
    (ht : σ.left.typeAt name = some .symbol) (hx : σ.rel .shown v v') (hm : m ≤ σ.left.roots.size) :
    Runs W (Evolves m A) (Form.bindHere name v) (Form.bindHere name' v') σ
      fun s s' τ => s.Agree (τ.rel .shown) s' := by
  have hv := h.valid
  refine .look (a := σ.left.currentEnv) (b := σ.right.currentEnv) rfl rfl ?_
  exact (Runs.define hv hm h.active hv.current hv.currentScope hname.1 ht hx (by simp)).bind
    fun _ _ _ hvt _ hq => .pure hvt (.done hq)

lemma Runs.procedureDefinition (h : Ready W A kw kw' ρ σ) (hname : σ.Sees A name name')
    (hp : σ.Sees A params params') (hb : σ.Sees A body body') (hm : m ≤ σ.left.roots.size) :
    Runs W (Evolves m A) (Form.procedureDefinition name params body)
      (Form.procedureDefinition name' params' body') σ
      fun s s' τ => s.Agree (τ.rel .shown) s' := by
  have hv := h.valid
  refine .hasType hv hname.1 .symbol (fun ht => ?_) fun _ => .raise hv _ _
  refine .bind_keeps (.closeOver h hp hb) fun v v' τ hvt hk hq => ?_
  have hl := hk.lasts m A
  exact .bindHere (h.lasts hl hvt) (hl.sees hname) ((hl.type (.part hname.2)).trans ht) hq
    (by rwa [hk.roots])

lemma Runs.variableDefinition (hn : Nests W A kw kw' ρ nested nested') (h : Ready W A kw kw' ρ σ)
    (hname : σ.Sees A name name') (hs : σ.Sees A a b) (hm : m ≤ σ.left.roots.size) :
    Runs W (Evolves m A) (Form.variableDefinition nested name a)
      (Form.variableDefinition nested' name' b) σ fun s s' τ => s.Agree (τ.rel .shown) s' := by
  have hv := h.valid
  refine .hasType hv hname.1 .symbol (fun ht => ?_) fun _ => .raise hv _ _
  refine .items hv (follows_sees hv A) hs (fun vs vs' hvs => ?_) (.raise hv _ _)
  rcases hvs with _ | ⟨h1, _ | _⟩
  · exact .raise hv _ _
  · refine (hn h h1 hm).bind fun v v' τ hvt he hq => ?_
    exact .bindHere (h.lasts he.1 hvt) (he.sees hname) ((he.type (.part hname.2)).trans ht) hq
      (he.depth ▸ hm)
  · exact .raise hv _ _

lemma Runs.definition (hn : Nests W A kw kw' ρ nested nested') (h : Ready W A kw kw' ρ σ)
    (hs : σ.Sees A a b) (hm : m ≤ σ.left.roots.size) :
    Runs W (Evolves m A) (Form.definition nested a) (Form.definition nested' b) σ
      fun s s' τ => s.Agree (τ.rel .shown) s' := by
  have hv := h.valid
  refine .asPair hv hs.1 (fun target rest target' rest' hp hp' => ?_) fun _ => .raise hv _ _
  obtain ⟨htarget, hrest⟩ := hs.pair hv hp hp'
  refine .asPair hv htarget.1 (fun name params name' params' hp hp' => ?_)
    fun _ => .variableDefinition hn h htarget hrest hm
  obtain ⟨hname, hparams⟩ := htarget.pair hv hp hp'
  exact .procedureDefinition h hname hparams hrest hm

lemma Runs.assignment (hn : Nests W A kw kw' ρ nested nested') (h : Ready W A kw kw' ρ σ)
    (hs : σ.Sees A a b) (hm : m ≤ σ.left.roots.size) :
    Runs W (Evolves m A) (Form.assignment nested a) (Form.assignment nested' b) σ
      fun s s' τ => s.Agree (τ.rel .shown) s' := by
  have hv := h.valid
  refine .items hv (follows_sees hv A) hs (fun vs vs' hvs => ?_) (.raise hv _ _)
  rcases hvs with _ | ⟨h1, _ | ⟨h2, _ | _⟩⟩
  · exact .raise hv _ _
  · exact .raise hv _ _
  · refine .hasType hv h1.1 .symbol (fun ht => ?_) fun _ => .raise hv _ _
    refine (hn h h2 hm).bind fun v v' τ hvt he hq => ?_
    refine .look (a := τ.left.currentEnv) (b := τ.right.currentEnv) rfl rfl ?_
    exact (Runs.assign hvt (he.active h.active) hvt.current hvt.currentScope (he.sees h1).1
      ((he.type (.part h1.2)).trans ht) hq).bind fun _ _ _ hvu _ hq => .pure hvu (.done hq)
  · exact .raise hv _ _

/-! ## Application and evaluation -/

/-- Putting quoted elements in front of the list in a slot. -/
lemma Runs.forM_quoted (h : Ready W A kw kw' ρ σ) (hm : m ≤ n) (hA : ¬ A n) (hn : σ.At n .shown)
    {vs vs' : List Handle} (hvs : List.Forall₂ (σ.Sees A) vs vs') :
    Runs W (Evolves m A)
      (vs.forM fun v => do
        let item ← HeapM.list [kw.quote, v]
        HeapM.store ⟨n⟩ (← HeapM.cons item (← HeapM.contents ⟨n⟩)))
      (vs'.forM fun v => do
        let item ← HeapM.list [kw'.quote, v]
        HeapM.store ⟨n⟩ (← HeapM.cons item (← HeapM.contents ⟨n⟩))) σ
      fun _ _ τ => τ.At n .shown := by
  induction vs generalizing σ vs' with
  | nil =>
    cases hvs
    exact .pure h.valid hn
  | cons v vs ih =>
    obtain _ | @⟨_, v', _, vs', hvv, hvs⟩ := hvs
    rw [List.forM_eq_forM, List.forM_cons, List.forM_cons]
    have hitem : List.Forall₂ (σ.rel .shown) [kw.quote, v] [kw'.quote, v'] :=
      .cons h.words.quote.1 (.cons hvv.1 .nil)
    refine .bind (Q := fun _ _ τ => τ.At n .shown) ?_ fun _ _ τ hvt he hq =>
      ih (h.lasts he.1 hvt) hq (hvs.imp fun _ _ h => he.sees h)
    exact .bind_keeps (.list h.valid (.inl rfl) hitem) fun item item' τ hvt hk hq =>
      .consOnto hvt hm hA (hk.at hn) (hq.shown hvt)

lemma Runs.applyForm (hn : Nests W A kw kw' ρ nested nested') (h : Ready W A kw kw' ρ σ)
    (hs : σ.Sees A a b) (hm : m ≤ σ.left.roots.size) :
    Runs W (Evolves m A) (Form.apply kw nested a) (Form.apply kw' nested' b) σ
      fun s s' τ => s.Agree (τ.rel .shown) s' := by
  have hv := h.valid
  refine .items hv (follows_sees hv A) hs (fun vs vs' hvs => ?_) (.raise hv _ _)
  rcases hvs with _ | ⟨h1, _ | ⟨h2, _ | _⟩⟩
  · exact .raise hv _ _
  · exact .raise hv _ _
  · refine (hn h h2 hm).bind fun args args' τ hvt he hq => ?_
    have hτ := h.lasts he.1 hvt
    have hmτ : m ≤ τ.left.roots.size := he.depth ▸ hm
    have hp := hτ.push hq (by simp)
    have hs1 : (τ.push args args').left.roots.size = τ.left.roots.size + 1 := Array.size_push _
    have hpa : Ready W (also A τ.left.roots.size) kw kw' (τ.push args args') (τ.push args args') :=
      ⟨hp.valid, hp.active.also (at_push hvt hq), Motion.refl _ _, hp.words⟩
    have hnil : (τ.push args args').rel .shown Handle.emptyList .emptyList :=
      (hp.valid.sentinel (by decide)).1
    have hpp := hpa.push hnil (by simp)
    set υ := (τ.push args args').push .emptyList .emptyList with hυ
    have hslot : υ.left.roots[τ.left.roots.size]? = some args :=
      (getElem?_push_of_lt (by omega) Handle.emptyList).trans Array.getElem?_push_size
    have hprocedure : υ.Sees (also A τ.left.roots.size) _ _ :=
      (((he.sees h1).push hτ.active args args').push hp.active .emptyList .emptyList).also _
    -- the arguments are parts of what the first of the two slots holds
    refine .items hvt (follows_shown hvt (T := υ.left.Part (also A τ.left.roots.size))
      fun hu hp => ⟨hu.car hp, hu.cdr hp⟩) ⟨hq, .slot (.inr rfl) hslot⟩ (fun vs vs' hvs => ?_)
      (.raise hvt _ _)
    refine .rooted_evolves hvt hmτ hτ.lt (.rooted_evolves hp.valid (by omega) hp.lt ?_)
    refine .motion (S := Evolves m (also A τ.left.roots.size)) ?_
      fun _ h => h.mono le_rfl fun _ => .inl
    have hfar : ¬ also A τ.left.roots.size (τ.push args args').left.roots.size :=
      fun h => lt_irrefl _ (hpa.lt _ h)
    refine (Runs.forM_quoted hpp (by omega) hfar (at_push hp.valid hnil)
      (List.rel_reverse hvs)).bind fun _ _ ω hvw hw hq => ?_
    obtain ⟨u, u', hu, hu', hr⟩ := hq
    refine .contents hu hu' (.bind_keeps (.cons hvw (hw.sees hprocedure).1 hr) ?_)
    exact fun _ _ _ hvx _ hq => .pure hvx (Step.Agree.eval hq)
  · exact .raise hv _ _

lemma Runs.evalForm (hn : Nests W A kw kw' ρ nested nested') (h : Ready W A kw kw' ρ σ)
    (hs : σ.Sees A a b) (hm : m ≤ σ.left.roots.size) :
    Runs W (Evolves m A) (Form.eval nested a) (Form.eval nested' b) σ
      fun s s' τ => s.Agree (τ.rel .shown) s' := by
  have hv := h.valid
  refine .items hv (follows_sees hv A) hs (fun vs vs' hvs => ?_) (.raise hv _ _)
  rcases hvs with _ | ⟨h1, _ | ⟨h2, _ | _⟩⟩
  · exact .raise hv _ _
  · exact .raise hv _ _
  · refine (hn h h1 hm).bind fun v v' τ hvt he hq => ?_
    have hτ := h.lasts he.1 hvt
    have hmτ : m ≤ τ.left.roots.size := he.depth ▸ hm
    have hp := hτ.push hq (by simp)
    have hs1 : (τ.push v v').left.roots.size = τ.left.roots.size + 1 := Array.size_push _
    refine .rooted_evolves hvt hmτ hτ.lt ?_
    -- the expression is held in the new slot while the environment is determined
    refine (hn hp ((he.sees h2).push hτ.active v v') (Nat.le_of_eq hs1.symm)).bind_evolves
      (by omega) (fun _ h => h) fun env env' υ hvu hu hr => ?_
    have hvv : υ.rel .shown v v' :=
      hu.rel (.slot (Nat.lt_succ_self _) Array.getElem?_push_size) (by simp) hq
    refine .hasType hvu hr .environment (fun ht => ?_) fun _ => ?_
    · obtain ⟨p, ns, vs, hd⟩ := frame_of_typeAt ht
      refine (Runs.setCurrentEnv hvu hr (hvu.scope_of_frame hr hd)).bind ?_
      rintro _ _ _ hvs - rfl
      exact .pure hvs (Step.Agree.eval hvv)
    · rw [hvu.isTruthy_eq hr]
      refine .ite Iff.rfl (fun h => nomatch h) fun _ => ?_
      exact .ite Iff.rfl (fun _ => .raise hvu _ _) fun _ => .pure hvu (Step.Agree.eval hvv)
  · exact .raise hv _ _

lemma Runs.theEnvironment (h : Ready W A kw kw' ρ σ) (hs : σ.Sees A a b) :
    Runs W (Evolves m A) (Form.theEnvironment a) (Form.theEnvironment b) σ
      fun s s' τ => s.Agree (τ.rel .shown) s' := by
  have hv := h.valid
  refine .items hv (follows_sees hv A) hs (fun vs vs' hvs => ?_) (.raise hv _ _)
  rcases hvs with _ | _
  · exact .look (a := σ.left.currentEnv) (b := σ.right.currentEnv)
      rfl rfl (.pure hv (.done hv.current))
  · exact .raise hv _ _

/-! ## Steps -/

lemma Runs.conjunction (hn : Nests W A kw kw' ρ nested nested') (hb : W.same → k = k')
    (h : Ready W A kw kw' ρ σ) (hs : σ.Sees A a b) (hm : m ≤ σ.left.roots.size) :
    Runs W (Evolves m A) (Form.conjunction nested k a) (Form.conjunction nested' k' b) σ
      fun s s' τ => s.Agree (τ.rel .shown) s' :=
  .ite (h.valid.eq_sentinel_iff hs.1 (by decide))
    (fun _ => .pure h.valid (.done (h.valid.sentinel (by decide)).1))
    fun _ => .conjuncts hn hb h hs hm

lemma Runs.disjunction (hn : Nests W A kw kw' ρ nested nested') (hb : W.same → k = k')
    (h : Ready W A kw kw' ρ σ) (hs : σ.Sees A a b) (hm : m ≤ σ.left.roots.size) :
    Runs W (Evolves m A) (Form.disjunction nested k a) (Form.disjunction nested' k' b) σ
      fun s s' τ => s.Agree (τ.rel .shown) s' :=
  .ite (h.valid.eq_sentinel_iff hs.1 (by decide))
    (fun _ => .pure h.valid (.done (h.valid.sentinel (by decide)).1))
    fun _ => .disjuncts hn hb h hs hm

/-- A step on a pair.  Only the application of a combination may change an expression under
evaluation, and then only the expressions in `B` are accounted for. -/
lemma Runs.ofPair (hn : Nests W A ctx.keywords ctx'.keywords ρ nested nested')
    (hb : W.same → k = k') (h : Ready W A ctx.keywords ctx'.keywords ρ σ) (ho : σ.Sees A v v')
    (hs : σ.Sees A a b) (hm : m ≤ σ.left.roots.size) (hB : ∀ i, B i → A i) :
    Runs W (Moves W m B) (Step.ofPair ctx nested k v a) (Step.ofPair ctx' nested' k' v' b) σ
      fun s s' τ => s.Agree (τ.rel .shown) s' := by
  have hv := h.valid
  have hmoves : ∀ {x y : EvalM Step} {Q : Step → Step → Twin → Prop},
      Runs W (Evolves m A) x y σ Q → Runs W (Moves W m B) x y σ Q :=
    fun hx => hx.motion fun _ he => .inl (he.mono le_rfl hB)
  have hw := h.words
  refine .ite (h.word_iff ho.1 hw.quote) (fun _ => hmoves (.quote h hs)) fun _ => ?_
  refine .ite (h.word_iff ho.1 hw.quasiquote)
    (fun _ => hmoves (.quasiquote hn hb h hs hm)) fun _ => ?_
  refine .ite (h.word_iff ho.1 hw.conditional)
    (fun _ => hmoves (.conditional hn h hs hm)) fun _ => ?_
  refine .ite (h.word_iff ho.1 hw.sequence) (fun _ => hmoves (.pure hv (.body hs.1))) fun _ => ?_
  refine .ite (h.word_iff ho.1 hw.clauses) (fun _ => hmoves (.clauses hn hb h hs hm)) fun _ => ?_
  refine .ite (h.word_iff ho.1 hw.definition) (fun _ => hmoves (.definition hn h hs hm)) fun _ => ?_
  refine .ite (h.word_iff ho.1 hw.assignment) (fun _ => hmoves (.assignment hn h hs hm)) fun _ => ?_
  refine .ite (h.word_iff ho.1 hw.conjunction) (fun _ => hmoves (.conjunction hn hb h hs hm))
    fun _ => ?_
  refine .ite (h.word_iff ho.1 hw.disjunction) (fun _ => hmoves (.disjunction hn hb h hs hm))
    fun _ => ?_
  refine .ite (h.word_iff ho.1 hw.binding) (fun _ => hmoves ?_) fun _ => ?_
  · exact .bind_keeps (.expand h hs.holds) fun _ _ _ hvt _ hq => .pure hvt (.eval hq)
  refine .ite (h.word_iff ho.1 hw.lambda) (fun _ => hmoves (.lambda h hs)) fun _ => ?_
  refine .ite (h.word_iff ho.1 hw.apply) (fun _ => hmoves (.applyForm hn h hs hm)) fun _ => ?_
  refine .ite (h.word_iff ho.1 hw.eval) (fun _ => hmoves (.evalForm hn h hs hm)) fun _ => ?_
  refine .ite (h.word_iff ho.1 hw.theEnvironment)
    (fun _ => hmoves (.theEnvironment h hs)) fun _ => ?_
  exact .ofCombination hn hb h ho hs hm hB

/-- A step on an expression. -/
lemma Runs.ofExpr (hn : Nests W A ctx.keywords ctx'.keywords ρ nested nested')
    (hb : W.same → k = k') (h : Ready W A ctx.keywords ctx'.keywords ρ σ) (hs : σ.Sees A a b)
    (hm : m ≤ σ.left.roots.size) (hB : ∀ i, B i → A i) :
    Runs W (Moves W m B) (Step.ofExpr ctx nested k a) (Step.ofExpr ctx' nested' k' b) σ
      fun s s' τ => s.Agree (τ.rel .shown) s' := by
  have hv := h.valid
  have hmoves : ∀ {x y : EvalM Step} {Q : Step → Step → Twin → Prop},
      Runs W Keeps x y σ Q → Runs W (Moves W m B) x y σ Q :=
    fun hx => hx.motion fun _ hk => .inl (Motion.keeps hk)
  refine .datum hv hs.1 fun d d' hd hd' hf => ?_
  cases hf with
  | atom _ hch =>
    cases d with
    | pair | closure => simp [Datum.children] at hch
    | frame p => cases p <;> simp [Datum.children] at hch
    | symbol s =>
      refine hmoves (.look (a := σ.left.currentEnv) (b := σ.right.currentEnv) rfl rfl ?_)
      have ht : σ.left.typeAt a = some .symbol := by
        rw [typeAt, hd]
        rfl
      exact (Runs.lookup hv hv.current hv.currentScope hs.1 ht).bind
        fun _ _ _ hvt _ hq => .pure hvt (.done hq)
    | _ => exact hmoves (.pure hv (.done hs.1))
  | pair =>
    have hxc := hs.pair hv (pairAt_eq_some.mpr hd) (pairAt_eq_some.mpr hd')
    exact .ofPair hn hb h hxc.1 hxc.2 hm hB
  | closure => exact hmoves (.raise hv _ _)
  | frame => exact hmoves (.raise hv _ _)

end Twin

end ArenaScheme
