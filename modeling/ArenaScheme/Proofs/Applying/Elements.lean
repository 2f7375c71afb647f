/-
# Applying a procedure to the elements of a list

The form `(apply procedure expr)` evaluates `expr` first, and then it is replaced by a combination
that quotes each element of the list that this gives.  So what the operator and the elements are
does not matter any more: the operator is evaluated as it always is, and the elements are not
evaluated at all.

The handle of the operator is not held while `expr` is evaluated, so the operator has to be held by
something else until that is over.  Afterwards it is held by the combination, and the combination is
in the custody of the slot of the form.
-/
import ArenaScheme.Proofs.Applying.Calls
import ArenaScheme.Proofs.Bindings

namespace ArenaScheme

open Heap HeapM

/-- The keywords at the heads of forms are all the keywords that expressions are made with. -/
lemma Concern.SparesWords.of_heads {ι : Type} [Concern ι] {C : ι} {kw : Keywords}
    (hw : ∀ w ∈ kw.heads, Spares C w) :
    SparesWords C kw :=
  ⟨hw _ (by simp [Keywords.heads]), hw _ (by simp [Keywords.heads]),
    hw _ (by simp [Keywords.heads]), hw _ (by simp [Keywords.heads])⟩

namespace Heap

variable {h k l m : Heap} {made cells vs spine : List Handle}
  {u v e p form procedure expr args operands : Handle} {kw : Keywords} {ctx : Context} {slot : Root}
  {nested : Nested} {budget n i : Nat} {t : Built}

/-! ## The form -/

/-- The form for the call is made once the expression has been evaluated. -/
lemma applyForm_finishes (hs : h.HasSentinels)
    (hrow : h.Row .emptyList [procedure, expr] spine operands) (heval : nested expr h = .ok args k)
    (hk : k.WellFormed) (hks : k.HasSentinels) (hargs : k.isLive args = true)
    (hp : k.Reachable [args] procedure) (hquote : k.Reachable [] kw.quote)
    (hroom : k.roots.size + 4 ≤ k.rootSlots) (hvs : k.Row .emptyList vs cells args) :
    (Form.apply kw nested operands h).Finishes
      (fun step l => ∃ form made, step = .eval form ∧ k.Adds [args] made l ∧ l.Withholds made ∧
        l.Shows (.quotedCall kw procedure vs) made form ∧ l.roots = k.roots)
      fun e l => e = .outOfMemory ∧ k.Saves [args] l ∧ l.roots = k.roots ∧
        k.capacity < 3 * vs.length + 1 + k.usedWith [args] := by
  -- the list of the arguments is held in a slot meanwhile
  have hself : k.Reachable [args] args := .of_extra List.mem_cons_self
  have h0 : k.Adds [args] [] k := .refl hk (List.forall_mem_singleton.mpr hargs)
  have hb := h0.push (.inl hself) hargs
  have held : ∀ {u}, k.Reachable [args] u →
    ({ k with roots := k.roots.push args } : Heap).Reachable [] u :=
    Drafting.reachable_push
  have hextra : ∀ u ∈ [args], ({ k with roots := k.roots.push args } : Heap).Reachable [] u :=
    List.forall_mem_singleton.mpr (held hself)
  have hused : ({ k with roots := k.roots.push args } : Heap).usedWith [] ≤ k.usedWith [args] + 0 :=
    hb.usedWith_le (by simp)
  have hmem := (hvs.reachable hself).2.1
  rw [Form.apply, bind_of_ok (items?_of_row hs hrow)]
  dsimp only
  rw [bind_of_ok heval, bind_of_ok (items?_of_row hks hvs)]
  refine finishes_rooted (by omega) ((form_finishes hb.wellFormed (held hp) (held (.of_nil hquote))
    (fun v hv => held (hmem v hv)) (by simp only [Array.size_push]; omega)).mono
      (fun step l hl => ?_) fun e l he => ?_)
  · obtain ⟨form, made, rfl, hl, hshow, hr⟩ := hl
    have hadds := hb.trans hl.toAdds hextra (by simp) (by simp)
    rw [List.append_nil] at hadds
    refine ⟨by rw [hr, Array.size_push], form, made, rfl, ?_, hl.withheld,
      hshow.congr fun _ _ => rfl, by rw [hr, Array.pop_push]⟩
    exact hadds.pop (by rw [hr]; simp)
  · obtain ⟨⟨rfl, he, hlt⟩, hr⟩ := he
    have hpop : l.roots.pop = k.roots := by rw [hr, Array.pop_push]
    refine ⟨by rw [hr, Array.size_push], rfl, ?_, hpop, ?_⟩
    · rw [hpop]
      exact (hb.toSaves.trans he hextra).dropRoots
    · rw [hb.capacity] at hlt
      omega

/-- If the value is no proper list, nothing else is done. -/
lemma applyForm_reports (hs : h.HasSentinels)
    (hrow : h.Row .emptyList [procedure, expr] spine operands) (heval : nested expr h = .ok args k)
    (hk : k.WellFormed) (hks : k.HasSentinels) (hargs : k.isLive args = true)
    (hnot : ∀ vs cells, ¬ k.Row .emptyList vs cells args) :
    (Form.apply kw nested operands h).Finishes (fun _ _ => False)
      (k.Reports .wrongType "apply expects a list of arguments") := by
  rw [Form.apply, bind_of_ok (items?_of_row hs hrow)]
  dsimp only
  rw [bind_of_ok heval, bind_of_ok (items?_of_not_row hk hks hargs hnot)]
  exact raise_finishes hk (by decide) _

/-! ## Its custody -/

/-- What a result is made of is led to by its first object. -/
lemma Shows.spans {objects : Handle → Option Datum} {first : Handle} (hs : h.Shows t cells v)
    (ho : ∀ c ∈ cells, objects c = h.object? c) (hv : Spans objects first v) :
    ∀ c ∈ cells, Spans objects first c := by
  induction hs with
  | same => simp
  | @pair _ x y _ _ _ _ hp _ _ iha ihb =>
    -- the pair is in custody, and so what it leads to is spanned
    obtain ⟨hself, ho⟩ := List.forall_mem_cons.mp ho
    obtain ⟨hoa, hob⟩ := List.forall_mem_append.mp ho
    have hd := hself.trans hp
    refine List.forall_mem_cons.mpr ⟨hv, List.forall_mem_append.mpr ⟨?_, ?_⟩⟩
    · exact iha hoa (.next hv hd (by simp [Datum.children]))
    · exact ihb hob (.next hv hd (by simp [Datum.children]))

/-- The custody of a slot: all that a new result is made of. -/
def Shows.custody (hs : l.Shows t made form) (hn : ∀ v ∈ made, regionStart ≤ v.index) (slot : Nat) :
    Custody where
  slot := slot
  first := form
  objects v := if v ∈ made then l.object? v else none
  spans v d hd := by
    split at hd
    · exact hs.spans (fun c hc => if_pos hc) .first v ‹_›
    · cases hd
  apart v hv := if_neg fun hm => Nat.not_lt.mpr (hn v hm) hv

section Custody

variable (hs : l.Shows t made form) (hn : ∀ v ∈ made, regionStart ≤ v.index)

lemma Shows.spares_custody (hv : v ∉ made) : (hs.custody hn i).Spares v := if_neg hv

/-- The new objects are kept as they are while the slot has custody of them. -/
lemma Shows.kept_of_guards (hg : (hs.custody hn i).Guards m) (hl : ∀ u ∈ made, l.isLive u = true) :
    ∀ u ∈ made, m.object? u = l.object? u := by
  intro u hu
  obtain ⟨d, hd⟩ := isLive_iff.mp (hl u hu)
  rw [hd]
  exact hg.kept u d ((if_pos hu).trans hd)

/-- A new result that nothing refers to may be put into the custody of any slot. -/
lemma Shows.guards_custody {extra : List Handle} (ha : k.Adds extra made l) (hw : l.Withholds made)
    (hr : l.roots = k.roots) (hi : i < k.roots.size) :
    (hs.custody hn i).Guards { l with roots := l.roots.setIfInBounds i form } := by
  -- whatever could be reached before is not new
  have hold : ∀ v, k.Reachable extra v → (hs.custody hn i).Spares v := fun v hv =>
    hs.spares_custody hn fun hm => (ha.fresh v hm).2 hv
  refine ⟨?_, fun v d hd => ?_, fun v d hv hd c hc => ?_, fun j v hj hv => ?_, ?_⟩
  · show (l.roots.setIfInBounds i form)[i]? = some form
    rw [Array.getElem?_setIfInBounds_self_of_lt (hr ▸ hi)]
  · replace hd : (if v ∈ made then l.object? v else none) = some d := hd
    split at hd
    · exact hd
    · cases hd
  · refine hs.spares_custody hn (hw v d (fun hm => ?_) hd c hc)
    have hnone : (if v ∈ made then l.object? v else none) = none := hv
    rw [if_pos hm] at hnone
    exact absurd (hnone.symm.trans hd) (by simp)
  · have hset : (l.roots.setIfInBounds i form)[j]? = l.roots[j]? :=
      Array.getElem?_setIfInBounds_ne (Ne.symm hj)
    exact hold v (.of_slot (hr ▸ hset.symm.trans hv))
  · exact hold _ (ha.currentEnv ▸ .anchor .current)

end Custody

/-! ## The call -/

/-- A step on `form` evaluates the procedure, once and before anything else, and calls its value
with a new list, whose elements are the objects `vs` themselves. -/
structure Delivers (h : Heap) (ctx : Context) (form procedure : Handle)
    (vs : List Handle) : Prop where
  failure : ∀ n e m, Evaluator.nestedEval ctx n procedure h = .error e m →
    Evaluator.step ctx (Evaluator.nestedEval ctx n) n .expr form h = .error e m
  halt : ∀ n c, Evaluator.nestedEval ctx n procedure h = .halt c →
    Evaluator.step ctx (Evaluator.nestedEval ctx n) n .expr form h = .halt c
  call : ∀ n p m, vs.length < n → Evaluator.nestedEval ctx n procedure h = .ok p m → m.WellFormed →
    m.HasSentinels → m.IsFrame m.currentEnv → m.isLive p = true → m.roots.size + 3 ≤ m.rootSlots →
    (vs.length + 1 + m.usedWith [p] ≤ m.capacity →
      ∃ call args cells r, m.Adds [p] (call :: cells) r ∧
      r.roots = m.roots ∧ r.Row .emptyList vs cells args ∧
      Evaluator.step ctx (Evaluator.nestedEval ctx n) n .expr form h =
        rooted call (fun _ => Application.apply ctx.host p args) r) ∧
    (m.capacity < vs.length + 1 + m.usedWith [p] → ∃ r, m.Saves [p] r ∧
      Evaluator.step ctx (Evaluator.nestedEval ctx n) n .expr form h = .error .outOfMemory r)

/-- The call of a procedure with quoted arguments is a combination whose operands mean the
arguments. -/
lemma Shows.combination (hs : h.Shows (.quotedCall kw procedure vs) made form) :
    form ∈ made ∧ ∃ operands, h.object? form = some (.pair procedure operands) ∧
      ∃ es spine, h.Row .emptyList es spine operands ∧ List.Forall₂ (h.Means kw) es vs := by
  cases hs with
  | pair hform hsame hquotes =>
    cases hsame
    exact ⟨List.mem_cons_self, _, hform, hquotes.means⟩

/-- The call of a procedure with quoted arguments, in the custody of a slot, is such a form. -/
lemma Shows.delivers (hd : HostDiscreet ctx.host) (hp : procedure ∉ ctx.keywords.heads)
    (hs : h.Shows (.quotedCall ctx.keywords procedure vs) made form)
    (hn : ∀ v ∈ made, regionStart ≤ v.index) (hg : (hs.custody hn i).Guards h)
    (hspare : (hs.custody hn i).Spares procedure)
    (hwords : Concern.SparesWords (hs.custody hn i) ctx.keywords)
    (hlive : ∀ u ∈ made, h.isLive u = true) :
    h.Delivers ctx form procedure vs := by
  obtain ⟨hmem, operands, hform, -⟩ := hs.combination
  have hstep : ∀ n, Evaluator.step ctx (Evaluator.nestedEval ctx n) n .expr form h =
      Application.ofCombination ctx.host (Evaluator.nestedEval ctx n) n procedure operands h := by
    intro n
    simp only [Keywords.heads, List.mem_cons, List.not_mem_nil, or_false, not_or] at hp
    rw [Evaluator.step, Step.ofExpr, bind_of_ok (datum_apply hform)]
    simp [Step.ofPair, hp]
  refine ⟨fun n e m he => ?_, fun n c hc => ?_, fun n p m hlen hrun hw hsent hframe hlp hroom => ?_⟩
  · rw [hstep, Application.ofCombination, Application.evalCombination, bind_apply, bind_apply, he]
  · rw [hstep, Application.ofCombination, Application.evalCombination, bind_apply, bind_apply, hc]
  -- the combination is still there, so its operands can be evaluated
  have hgm : (hs.custody hn i).Guards m := by
    have hends := Discreet.nestedEval hd hwords n hspare h hg
    rw [hrun] at hends
    exact hends.1
  have hkept := hs.kept_of_guards hn hgm hlive
  obtain ⟨-, operands', hformm, es, spine, hrow, hes⟩ := (hs.congr hkept).combination
  obtain ⟨-, rfl⟩ := Datum.pair.inj
    (Option.some.inj (hform.symm.trans ((hkept form hmem).symm.trans hformm)))
  have hreach : m.Reachable [p] operands := (Reachable.of_slot hgm.held).tail hformm
  obtain ⟨fuel, rfl⟩ : ∃ fuel, n = fuel + 1 := ⟨n - 1, by omega⟩
  have hfin := evalCombination_finishes hrun hw hlp hsent hframe hroom hrow hreach hes
    (hes.length_eq ▸ hlen)
  rw [hstep, Application.ofCombination]
  -- there is a list, and the call is made with it, or there has been no room
  rcases hfin.cases with ⟨call, r, ho, args, cells, hr, hroots, hcall, hargs⟩ | ⟨e, r, ho,
    rfl, hr, -, hlt⟩
  · have hle := hr.usedWith_add_length_le
    rw [List.length_cons, hargs.length_eq] at hle
    refine ⟨fun _ => ⟨call, args, cells, r, hr, hroots, hargs, ?_⟩, fun hlt => by omega⟩
    rw [bind_of_ok ho]
    refine rooted_congr fun _ => bind_of_ok (a := (p, args)) (pairParts_apply ?_)
    exact pairAt_eq_some.mpr hcall
  · refine ⟨fun hle => by omega, fun _ => ⟨r, hr, ?_⟩⟩
    rw [bind_apply, ho]

/-! ## The law of `apply` -/

/-- In the slot there is the form `(apply procedure expr)`. -/
def Applies (h : Heap) (kw : Keywords) (slot : Root) (procedure expr : Handle) : Prop :=
  ∃ form operands spine, h.roots[slot.slot]? = some form ∧
    h.object? form = some (.pair kw.apply operands) ∧
    h.Row .emptyList [procedure, expr] spine operands

/-- Once `expr` has given `args`, the turn on the slot has this outcome.  It does not matter what
the other expressions would have come to: none of them is evaluated. -/
def Settles (h : Heap) (ctx : Context) (slot : Root) (expr args : Handle) (k : Heap)
    (o : Outcome Handle Turn) : Prop :=
  ∀ nested budget, nested expr h = .ok args k → Evaluator.turn ctx nested budget slot .expr h = o

/-- What the turn comes to is what the form comes to. -/
lemma Applies.settles (hf : h.Applies ctx.keywords slot procedure expr) (hs : h.HasSentinels)
    (hn : ctx.keywords.heads.Nodup) (heval : nested expr h = .ok args k) :
    slot.slot < h.roots.size ∧ ∃ operands spine, h.Row .emptyList [procedure, expr] spine operands ∧
      (∀ e l, Form.apply ctx.keywords nested operands h = .error e l →
        h.Settles ctx slot expr args k (.error e l)) ∧
      ∀ form l, l.roots.size = h.roots.size → Form.apply ctx.keywords nested operands h =
        .ok (.eval form) l →
        h.Settles ctx slot expr args k
          (.ok (.again .expr) { l with roots := l.roots.setIfInBounds slot.slot form }) := by
  obtain ⟨form, operands, spine, hslot, hform, hrow⟩ := hf
  have hlt := (Array.getElem?_eq_some_iff.mp hslot).1
  -- the evaluator is asked for the value of this one expression only
  have hstep : ∀ nested' budget, nested' expr h = .ok args k →
      Evaluator.step ctx nested' budget .expr form h =
      Form.apply ctx.keywords nested operands h := by
    intro nested' budget heval'
    rw [Evaluator.step, Step.ofExpr, bind_of_ok (datum_apply hform)]
    simp only [Keywords.heads, List.nodup_cons, List.mem_cons, List.not_mem_nil, or_false, not_or]
      at hn
    have hpair : Step.ofPair ctx nested' budget ctx.keywords.apply operands =
        Form.apply ctx.keywords nested' operands := by
      simp [Step.ofPair, hn, Ne.symm]
    dsimp only
    rw [hpair, Form.apply, Form.apply, bind_of_ok (items?_of_row hs hrow),
      bind_of_ok (items?_of_row hs hrow)]
    dsimp only
    rw [bind_of_ok heval, bind_of_ok heval']
  refine ⟨hlt, operands, spine, hrow, fun e l he nested' budget heval' => ?_,
    fun form' l hsize hl nested' budget heval' => ?_⟩
  · rw [Evaluator.turn, bind_of_ok (contents_apply hslot), bind_apply, hstep _ _ heval', he]
  · rw [Evaluator.turn, bind_of_ok (contents_apply hslot), bind_of_ok ((hstep _ _ heval').trans hl)]
    exact bind_of_ok (store_apply (hsize ▸ hlt) form')

/-- The form `(apply procedure expr)` calls the value of `procedure` with the elements of the list
that `expr` gives.  Let `procedure` be no keyword, and let `expr` have been evaluated, with the
value `args`.

* Let `args` be a list, and let the procedure expression not have been given up by what has been
  evaluated.  If there is room for a pair and three more for each element, then nothing that could
  be reached is changed, the list included, and another form takes the place of the first one, in
  the frame where that was evaluated.  It is a form that delivers: the procedure expression is
  evaluated now and once, whatever it is, and its value is applied to a new list, which has the very
  same elements.  None of these is evaluated.
* If there is no room, then that is reported, and nothing has changed.
* If `args` is no proper list, then that is reported as a type error, and no other expression is
  evaluated. -/
theorem apply_calls_with_elements (hb : HostBalanced ctx.host) (hd : HostDiscreet ctx.host)
    (hn : ctx.keywords.heads.Nodup) (hf : h.Applies ctx.keywords slot procedure expr)
    (hp : procedure ∉ ctx.keywords.heads) (hs : h.HasSentinels)
    (heval : Evaluator.nestedEval ctx n expr h = .ok args k) (hk : k.WellFormed)
    (hks : k.HasSentinels) (hwords : ∀ w ∈ ctx.keywords.heads, k.Reachable [] w)
    (hargs : k.isLive args = true) (hroom : k.roots.size + 4 ≤ k.rootSlots) :
    (k.Reachable [args] procedure → ∀ vs cells, k.Row .emptyList vs cells args →
      (3 * vs.length + 1 + k.usedWith [args] ≤ k.capacity → ∃ form made l,
        h.Settles ctx slot expr args k
          (.ok (.again .expr) { l with roots := l.roots.setIfInBounds slot.slot form }) ∧
        k.Adds [args] made l ∧ l.roots = h.roots ∧ l.currentEnv = h.currentEnv ∧
        ({ l with roots := l.roots.setIfInBounds slot.slot form } : Heap).Delivers ctx form
          procedure vs) ∧
      (k.capacity < 3 * vs.length + 1 + k.usedWith [args] → ∃ l,
        h.Settles ctx slot expr args k (.error .outOfMemory l) ∧ k.Saves [args] l)) ∧
    ((∀ vs cells, ¬ k.Row .emptyList vs cells args) →
      ∃ e l, h.Settles ctx slot expr args k (.error e l) ∧
      k.Reports .wrongType "apply expects a list of arguments" e l) := by
  obtain ⟨hlt, operands, spine, hrow, hfail, hgo⟩ := hf.settles hs hn heval
  -- the evaluation of the expression has given up its slots, and it has returned to the frame
  have hback : Restores ctx.host (fun _ => False) False h k := by
    have horderly := Orderly.nestedEval (W := fun _ => False) (s := False) hb n expr h
    rw [heval] at horderly
    exact horderly
  have hroots : k.roots = h.roots := hback.roots
  refine ⟨fun hkept vs cells hvs => ?_, fun hnot => ?_⟩
  · have hquote := hwords ctx.keywords.quote (by simp [Keywords.heads])
    have hfin := applyForm_finishes hs hrow heval hk hks hargs hkept hquote hroom hvs
    rcases hfin.cases with ⟨step, l, ho, form, made, rfl, hl, hwithheld, hshow, hr⟩ | ⟨e, l, ho,
      rfl, hl, -, hlt⟩
    · have hle := hl.usedWith_add_length_le
      rw [hshow.length_eq, Built.pairs_quotedCall] at hle
      refine ⟨fun _ => ⟨form, made, l, hgo form l (by rw [hr, hroots]) ho, hl, hr.trans hroots,
        hl.currentEnv.trans (hback.env id), ?_⟩, fun hlt => by omega⟩
      -- the new form is in the custody of the slot now
      have hregion : ∀ v ∈ made, regionStart ≤ v.index := fun v hv => (hl.fresh v hv).1.1
      have hspare : ∀ v, k.Reachable [args] v → (hshow.custody hregion slot.slot).Spares v :=
        fun v hv => hshow.spares_custody hregion fun hm => (hl.fresh v hm).2 hv
      have hword : ∀ w ∈ ctx.keywords.heads, (hshow.custody hregion slot.slot).Spares w :=
        fun w hw => hspare w (.of_nil (hwords w hw))
      exact Shows.delivers hd hp (hshow.congr fun _ _ => rfl) hregion
        (hshow.guards_custody hregion hl hwithheld hr (hroots ▸ hlt)) (hspare _ hkept)
        (.of_heads hword) hl.held
    · exact ⟨fun hle => by omega, fun _ => ⟨l, hfail _ l ho, hl⟩⟩
  · have hfin : (Form.apply ctx.keywords (Evaluator.nestedEval ctx n) operands h).Finishes _ _ :=
      applyForm_reports hs hrow heval hk hks hargs hnot
    rcases hfin.cases with ⟨_, _, _, hfalse⟩ | ⟨e, l, ho, hreports⟩
    · exact hfalse.elim
    · exact ⟨e, l, hfail e l ho, hreports⟩

/-! ## An example -/

/-- The form `(apply f '(#t))` is held. -/
def applying : Heap where
  cells := #[.emptyList, .bool true, .bool false, .error .outOfMemory "out of memory",
    .pair ⟨27⟩ ⟨5⟩, .pair ⟨15⟩ ⟨6⟩, .pair ⟨7⟩ .emptyList, .pair ⟨16⟩ ⟨8⟩, .pair ⟨9⟩ .emptyList,
    .pair .trueObject .emptyList, .free none (some 11), .free (some 10) (some 12),
    .free (some 11) (some 13), .free (some 12) none, .frame none .emptyList .emptyList, .symbol "f",
    .symbol "quote", .symbol "quasiquote", .symbol "if", .symbol "begin", .symbol "cond",
    .symbol "define", .symbol "set!", .symbol "and", .symbol "or", .symbol "let", .symbol "lambda",
    .symbol "apply", .symbol "eval", .symbol "the-environment"]
  capacity := 10
  free := some 10
  freeCount := 4
  collections := 0
  roots := #[⟨4⟩]
  rootSlots := 8
  symbols := ∅
  baseEnv := ⟨14⟩
  currentEnv := ⟨14⟩
  audited := true

/-- The keywords that stand at the head of forms are different symbols there. -/
def calling : Context where
  host := #[]
  keywords.quote := ⟨16⟩
  keywords.quasiquote := ⟨17⟩
  keywords.unquote := ⟨15⟩
  keywords.unquoteSplicing := ⟨15⟩
  keywords.conditional := ⟨18⟩
  keywords.sequence := ⟨19⟩
  keywords.clauses := ⟨20⟩
  keywords.otherwise := ⟨15⟩
  keywords.definition := ⟨21⟩
  keywords.assignment := ⟨22⟩
  keywords.conjunction := ⟨23⟩
  keywords.disjunction := ⟨24⟩
  keywords.binding := ⟨25⟩
  keywords.lambda := ⟨26⟩
  keywords.apply := ⟨27⟩
  keywords.eval := ⟨28⟩
  keywords.theEnvironment := ⟨29⟩

lemma wellFormed_applying : applying.WellFormed where
  toClosed := by decide
  free :=
    ⟨[10, 11, 12, 13], .of_list ⟨rfl, some 11, rfl, rfl, some 12, rfl, rfl, some 13, rfl, rfl, none,
      rfl, rfl⟩ (by decide) (by decide) rfl⟩
  table := by simp [applying]

lemma hasSentinels_applying : applying.HasSentinels :=
  .of_take rfl

/-- There is room for the form, and it delivers the element of the list. -/
theorem apply_calls_with_elements_applying :
    HostBalanced calling.host ∧ HostDiscreet calling.host ∧ calling.keywords.heads.Nodup ∧
    applying.Applies calling.keywords ⟨0⟩ ⟨15⟩ ⟨7⟩ ∧ (⟨15⟩ : Handle) ∉ calling.keywords.heads ∧
    applying.HasSentinels ∧ Evaluator.nestedEval calling 1 ⟨7⟩ applying = .ok ⟨9⟩ applying ∧
    applying.WellFormed ∧
    (∀ w ∈ calling.keywords.heads, applying.Reachable [] w) ∧ applying.isLive ⟨9⟩ = true ∧
    applying.roots.size + 4 ≤ applying.rootSlots ∧ applying.Reachable [⟨9⟩] ⟨15⟩ ∧
    applying.Row .emptyList [.trueObject] [⟨9⟩] ⟨9⟩ ∧
    3 * [Handle.trueObject].length + 1 + applying.usedWith [⟨9⟩] ≤ applying.capacity ∧
    ∃ form made l, applying.Settles calling ⟨0⟩ ⟨7⟩ ⟨9⟩ applying
        (.ok (.again .expr) { l with roots := l.roots.setIfInBounds 0 form }) ∧
      applying.Adds [⟨9⟩] made l ∧ l.roots = applying.roots ∧ l.currentEnv = applying.currentEnv ∧
      ({ l with roots := l.roots.setIfInBounds 0 form } : Heap).Delivers calling form ⟨15⟩
      [.trueObject] := by
  have hb : HostBalanced calling.host := fun p hm => absurd hm (by simp [calling])
  have hd : HostDiscreet calling.host := fun _ p hm => absurd hm (by simp [calling])
  have hn : calling.keywords.heads.Nodup := by decide
  have hp : (⟨15⟩ : Handle) ∉ calling.keywords.heads := by decide
  have hf : applying.Applies calling.keywords ⟨0⟩ ⟨15⟩ ⟨7⟩ :=
    ⟨⟨4⟩, ⟨5⟩, [⟨5⟩, ⟨6⟩], rfl, rfl, .cons rfl (.cons rfl .nil)⟩
  have hmeans : applying.Means calling.keywords ⟨7⟩ ⟨9⟩ := .quoted rfl (.cons rfl .nil)
  have heval : Evaluator.nestedEval calling 1 ⟨7⟩ applying = .ok ⟨9⟩ applying :=
    hmeans.nestedEval wellFormed_applying hasSentinels_applying
      rfl ⟨none, .emptyList, .emptyList, rfl⟩ (by decide)
  have hwords : ∀ w ∈ calling.keywords.heads, applying.Reachable [] w := by
    intro w hw
    have hpermanent : ∀ w ∈ calling.keywords.heads, 14 ≤ w.index ∧ w.index < 30 := by decide
    exact .anchor (.permanent (hpermanent w hw).1 (hpermanent w hw).2)
  have hslot : applying.Reachable [⟨9⟩] ⟨4⟩ := .of_slot (i := 0) rfl
  have hkept : applying.Reachable [⟨9⟩] ⟨15⟩ := (hslot.tail rfl).head rfl
  have hrow : applying.Row .emptyList [.trueObject] [⟨9⟩] ⟨9⟩ := .cons rfl .nil
  have hused : applying.usedWith [⟨9⟩] + 4 ≤ 10 :=
    usedWith_add_freeCount_le wellFormed_applying (List.forall_mem_singleton.mpr rfl)
  have hcap : 3 * [Handle.trueObject].length + 1 + applying.usedWith [⟨9⟩] ≤ applying.capacity := by
    change 3 * 1 + 1 + applying.usedWith [⟨9⟩] ≤ 10
    omega
  refine ⟨hb, hd, hn, hf, hp, hasSentinels_applying, heval, wellFormed_applying, hwords, rfl,
    by decide, hkept, hrow, hcap, ?_⟩
  exact ((apply_calls_with_elements hb hd hn hf hp hasSentinels_applying heval wellFormed_applying
    hasSentinels_applying hwords rfl (by decide)).1 hkept _ _ hrow).1 hcap

end Heap

end ArenaScheme
