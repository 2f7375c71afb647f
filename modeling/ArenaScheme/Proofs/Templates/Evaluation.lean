/-
# Templates and the evaluator

Constants, quoted data and variables that are bound have values that are there already.  To evaluate
them is innocuous: nothing is made, and nothing changes.  So whatever a template puts in their
place, the copy follows the law.
-/
import ArenaScheme.Proofs.Chains.Updates
import ArenaScheme.Proofs.Discipline.Evaluator
import ArenaScheme.Proofs.Templates.Copies

namespace ArenaScheme

open Heap HeapM

namespace Heap

/-- The value of an expression that is there already. -/
inductive Means (h : Heap) (kw : Keywords) (expr : Handle) : Handle → Prop
  | constant {d : Datum} (hd : h.object? expr = some d)
      (ht : d.type ∉ [DatumType.pair, .symbol, .closure, .environment]) : Means h kw expr expr
  | quoted {operands datum : Handle} {spine : List Handle}
      (hd : h.object? expr = some (.pair kw.quote operands))
      (hr : h.Row .emptyList [datum] spine operands) : Means h kw expr datum
  | bound {name : String} {c : Chain} {v : Handle} (hd : h.object? expr = some (.symbol name))
      (hc : h.Chains h.currentEnv c) (hb : c.bound? expr = some v) : Means h kw expr v

variable {h k : Heap} {extra vs spine : List Handle} {expr v last e f symbol names values : Handle}
  {kw : Keywords} {c : Chain} {l : Bindings} {ctx : Context} {budget room : Nat}

/-! ## Values -/

lemma Zips.reachable (hz : h.Zips names values l) (hr : h.Reachable extra values)
    (hv : l.lookup symbol = some v) : h.Reachable extra v := by
  induction hz with
  | stop => simp at hv
  | cons _ hp _ ih =>
    rw [Bindings.lookup_cons] at hv
    split at hv
    · obtain rfl := Option.some.inj hv
      exact hr.head (pairAt_eq_some.mp hp)
    · exact ih (hr.tail (pairAt_eq_some.mp hp)) hv

/-- What an environment binds can be reached from it. -/
lemma Chains.reachable (hc : h.Chains e c) (hr : h.Reachable extra e)
    (hb : c.bound? symbol = some v) :
    h.Reachable extra v := by
  induction hc with
  | root hf hz =>
    rw [Chain.bound?_cons] at hb
    exact hz.reachable (.child hr hf (by simp [Datum.children])) (by simpa [Chain.bound?] using hb)
  | child hf hz _ ih =>
    rw [Chain.bound?_cons] at hb
    rcases Option.or_eq_some_iff.mp hb with hb | ⟨-, hb⟩
    · exact hz.reachable (.child hr hf (by simp [Datum.children])) hb
    · exact ih (.child hr hf (by simp [Datum.children])) hb

lemma Means.reachable (hm : h.Means kw expr v) (hr : h.Reachable extra expr) :
    h.Reachable extra v := by
  cases hm with
  | constant _ _ => exact hr
  | quoted hd hrow => exact (hrow.reachable (hr.tail hd)).2.1 v List.mem_cons_self
  | bound _ hc hb => exact hc.reachable (.anchor .current) hb

/-- The value is the same as long as what can be reached is saved. -/
lemma Means.saved (hm : h.Means kw expr v) (hs : h.Saves extra k) (hr : h.Reachable extra expr) :
    k.Means kw expr v := by
  cases hm with
  | constant hd ht => exact .constant ((hs.kept _ hr).trans hd) ht
  | quoted hd hrow => exact .quoted ((hs.kept _ hr).trans hd) (hrow.saved hs (hr.tail hd))
  | bound hd hc hb =>
    refine .bound ((hs.kept _ hr).trans hd) ?_ hb
    rw [hs.currentEnv]
    exact hc.saved hs (.anchor .current)

/-- Rows of what could be reached are not new. -/
lemma Row.origin (hrow : k.Row last vs spine v) (hs : h.Saves extra k) (hr : h.Reachable extra v) :
    h.Row last vs spine v := by
  induction hrow with
  | nil => exact .nil
  | cons hv _ ih =>
    have hv' := (hs.kept _ hr).symm.trans hv
    exact .cons hv' (ih (hr.tail hv'))

/-! ## Evaluation -/

/-- A step gives the value and changes nothing. -/
lemma Means.ofExpr {nested : Nested} (hm : h.Means ctx.keywords expr v) (hw : h.WellFormed)
    (hs : h.HasSentinels) : Step.ofExpr ctx nested budget expr h = .ok (.done v) h := by
  rw [Step.ofExpr]
  cases hm with
  | @constant d hd ht =>
    rw [bind_of_ok (datum_apply hd)]
    cases d <;> first | rfl | simp [Datum.type] at ht
  | quoted hd hrow =>
    rw [bind_of_ok (datum_apply hd)]
    dsimp only
    rw [Step.ofPair, if_pos rfl, Form.quote, bind_of_ok (items?_of_row hs hrow)]
    rfl
  | bound hd hc hb =>
    have hcur : (HeapM.currentEnv : EvalM Handle) h = .ok h.currentEnv h := rfl
    rw [bind_of_ok (datum_apply hd)]
    dsimp only
    rw [bind_of_ok hcur, HeapM.lookup, bind_assoc, bind_of_ok (find?_eq hw.toClosed hc expr), hb]
    rfl

lemma Means.loop {n : Nat} (hm : h.Means ctx.keywords expr v) (budget : Nat) (hw : h.WellFormed)
    (hs : h.HasSentinels) (hslot : h.roots[n]? = some expr) :
    Evaluator.loop ctx (budget + 1) ⟨n⟩ .expr h = .ok v h := by
  have hturn : Evaluator.turn ctx (Evaluator.nestedEval ctx budget) budget ⟨n⟩ .expr h =
      .ok (.done v) h := by
    rw [Evaluator.turn, bind_of_ok (contents_apply hslot), Evaluator.step,
      bind_of_ok (hm.ofExpr hw hs)]
    rfl
  rw [Evaluator.loop_succ, bind_of_ok hturn]
  rfl

/-- So does an evaluation within another one. -/
lemma Means.nestedEval (hm : h.Means ctx.keywords expr v) (hw : h.WellFormed) (hs : h.HasSentinels)
    (hl : h.isLive expr = true) (he : h.IsFrame h.currentEnv)
    (hroom : h.roots.size + 2 ≤ h.rootSlots) :
    Evaluator.nestedEval ctx (budget + 1) expr h = .ok v h := by
  obtain ⟨p, names, values, hd⟩ := he
  have h0 : h.Adds [expr] [] h := .refl hw (by simpa using hl)
  have h1 := h0.push (.inl (.anchor .current)) hw.current
  have h2 := h1.push (v := expr) (.inl (.of_extra List.mem_cons_self)) hl
  have hcur : (HeapM.currentEnv : EvalM Handle) h = .ok h.currentEnv h := rfl
  have hrun : Evaluator.runWith (Evaluator.loop ctx (budget + 1)) expr
      { h with roots := h.roots.push h.currentEnv } =
        .ok v { h with roots := h.roots.push h.currentEnv } := by
    have hloop := (hm.saved h2.toSaves (.of_extra List.mem_cons_self)).loop
      budget h2.wellFormed (h2.hasSentinels hs) Array.getElem?_push_size
    rw [Evaluator.runWith, rooted_of_ok (by simp; omega) hloop (by simp)]
    simp
  have hset : (HeapM.setCurrentEnv h.currentEnv : EvalM Unit)
      { h with roots := h.roots.push h.currentEnv } =
        .ok () { h with roots := h.roots.push h.currentEnv } := setCurrentEnv_frame hd
  have hbody : (ensuring (Evaluator.runWith (Evaluator.loop ctx (budget + 1)) expr)
      (HeapM.setCurrentEnv h.currentEnv) : EvalM Handle)
        { h with roots := h.roots.push h.currentEnv } =
        .ok v { h with roots := h.roots.push h.currentEnv } := by
    rw [ensuring, hrun]
    dsimp only
    rw [hset]
  rw [Evaluator.nestedEval, keepingEnv, bind_of_ok hcur, rooted_of_ok (by omega) hbody (by simp)]
  simp

/-- So does an evaluation later on. -/
lemma Means.within (hm : h.Means ctx.keywords expr v) (hs : h.HasSentinels)
    (hr : h.Reachable [] expr)
    (he : h.IsFrame h.currentEnv) (hroom : h.roots.size + room + 2 ≤ h.rootSlots)
    (hk : h.Within room k) : Evaluator.nestedEval ctx (budget + 1) expr k = .ok v k := by
  obtain ⟨made, ha, -, hk⟩ := hk
  obtain ⟨p, names, values, hd⟩ := he
  have hrk : k.Reachable [] expr := ha.toSaves.reachable (by simp) hr
  have hframe : k.IsFrame k.currentEnv := by
    rw [ha.currentEnv]
    exact ⟨p, names, values, (ha.kept _ (.anchor .current)).trans hd⟩
  exact (hm.saved ha.toSaves hr).nestedEval ha.wellFormed (ha.hasSentinels hs)
    (ha.wellFormed.isLive_of_reachable (by simp) hrk) hframe (by rw [ha.rootSlots]; omega)

/-- To find a value that is there already is innocuous. -/
lemma Means.innocuous {est : Estimate} (hm : h.Means ctx.keywords expr v) (hs : h.HasSentinels)
    (hr : h.Reachable [] expr) (he : h.IsFrame h.currentEnv)
    (hroom : h.roots.size + room + 2 ≤ h.rootSlots)
    (hlen : ∀ vs spine, h.Row .emptyList vs spine v → vs.length ≤ est.elements expr) :
    Innocuous (Evaluator.nestedEval ctx (budget + 1)) est room h expr := by
  intro k hk
  rw [hm.within hs hr he hroom hk]
  obtain ⟨made, ha, -, -⟩ := hk
  have hv := hm.reachable hr
  refine ⟨rfl, ⟨[], .refl ha.wellFormed (by simp), Nat.zero_le _,
    .inl (ha.toSaves.reachable (by simp) hv), by simp⟩,
    fun vs spine hrow => hlen vs spine (hrow.origin ha.toSaves hv)⟩

/-- What is known of an answer beforehand: the value is there already, and so are its elements. -/
def Knows (h : Heap) (kw : Keywords) (answer : Answer) : Prop :=
  h.Means kw answer.expr answer.value ∧
    ∀ vs, answer.elements = some vs ↔ ∃ spine, h.Row .emptyList vs spine answer.value

end Heap

/-- The answers for expressions whose values are there already are known. -/
lemma Answered.knows {h k l : Heap} {ctx : Context} {n room : Nat} {s : List Answer}
    (ha : Answered (Evaluator.nestedEval ctx (n + 1)) room h k s l) (hs : h.HasSentinels)
    (he : h.IsFrame h.currentEnv) (hroom : h.roots.size + room + 2 ≤ h.rootSlots)
    (hm : ∀ answer ∈ s, h.Reachable [] answer.expr ∧ ∃ v, h.Means ctx.keywords answer.expr v) :
    ∀ answer ∈ s, h.Knows ctx.keywords answer := by
  induction ha with
  | nil => simp
  | @cons _ before after _ answer s walk hb _ hrun hw hel _ ih =>
    obtain ⟨⟨hr, v, hv⟩, hm⟩ := List.forall_mem_cons.mp hm
    refine List.forall_mem_cons.mpr ⟨?_, ih hm⟩
    obtain ⟨rfl, rfl⟩ := Outcome.ok.inj ((hv.within hs hr he hroom hb).symm.trans hrun)
    obtain ⟨made, hadd, -, -⟩ := hb
    have hreach := hv.reachable hr
    obtain ⟨walk', hw', hi⟩ := walkSpine_items hadd.wellFormed (hadd.hasSentinels hs)
      (hadd.toSaves.isLive hreach)
    obtain rfl := Except.ok.inj (hw.symm.trans hw')
    refine ⟨hv, fun vs => ?_⟩
    rw [hel, hi]
    exact exists_congr fun spine => ⟨fun hrow => hrow.origin hadd.toSaves hreach,
      fun hrow => hrow.saved hadd.toSaves hreach⟩

/-! ## The law holds -/

/-- Templates are copied as the law says.  Let all of the template be reachable and let there be
free root slots for its nesting, and let the expressions in it that are evaluated be innocuous.

* The copy is what the law makes of the values of the expressions, which are evaluated from left to
  right.  Each of its pairs is new.
* If there is no copy, then a form does not have one operand, or something is spliced in that is no
  proper list, or the evaluation of an expression has failed, and that is the first fault there is;
  or else there is no room.
* In any case what could be reached is as it was, the template and the lists that are spliced in
  included, and the root stack is as it was, whether there have been collections or not.

The evaluator finds the values of constants, quoted data and variables in the heap.  If a template
has no other expressions and if there is enough room, it is copied unless a form does not have one
operand or something is spliced in that is no proper list. -/
theorem templates_follow_law {h : Heap} {s : Shape} (hw : h.WellFormed) (hs : h.HasSentinels)
    (hh : h.Holds s) (hr : h.Reachable [] s.handle)
    (hroom : h.roots.size + s.depth + 2 ≤ h.rootSlots) :
    (∀ kw nested est budget, s.size < budget →
      (∀ expr ∈ s.fold expressions kw 0, Innocuous nested est s.depth h expr) →
      (Template.copy kw nested budget s.handle 0 h).Finishes
        (fun v k => ∃ answers t cells rest, (s.fold law kw 0).Returns answers t ∧
          Answered nested s.depth h h answers k ∧ h.Adds [] (cells ++ rest) k ∧ k.roots = h.roots ∧
          k.Shows t cells v)
        fun e k => k.roots = h.roots ∧ h.Saves [] k ∧
          ((e = .outOfMemory ∧ h.capacity < s.fold est.cost kw 0 + 1 + h.usedWith []) ∨
            ∃ answers f m, (s.fold law kw 0).Fails answers f ∧
              Answered nested s.depth h h answers m ∧
              f.Shown nested s.depth h m e k)) ∧
    ∀ ctx n lengths budget, s.size < budget → h.IsFrame h.currentEnv →
      (∀ expr ∈ s.fold expressions ctx.keywords 0, ∃ v, h.Means ctx.keywords expr v ∧
        ∀ vs spine, h.Row .emptyList vs spine v → vs.length ≤ lengths expr) →
      s.fold (Estimate.cost ⟨fun _ => 0, lengths⟩) ctx.keywords 0 + 1 + h.usedWith [] ≤ h.capacity →
      (Template.copy ctx.keywords (Evaluator.nestedEval ctx (n + 1)) budget s.handle 0 h).Finishes
        (fun v k => ∃ answers t cells rest, (s.fold law ctx.keywords 0).Returns answers t ∧
          (∀ answer ∈ answers, h.Knows ctx.keywords answer) ∧ h.Adds [] (cells ++ rest) k ∧
          k.roots = h.roots ∧ k.Shows t cells v)
        fun e k => k.roots = h.roots ∧ h.Saves [] k ∧ ∃ answers f d,
          (s.fold law ctx.keywords 0).Fails answers f ∧
          (∀ answer ∈ answers, h.Knows ctx.keywords answer) ∧ f.report = some d ∧
          k.object? e = some d := by
  have hcopies : ∀ kw nested est budget, s.size < budget →
      (∀ expr ∈ s.fold expressions kw 0, Innocuous nested est s.depth h expr) →
      (Template.copy kw nested budget s.handle 0 h).Realizes nested s.depth h (s.fold law kw 0)
        (s.fold est.cost kw 0) :=
    fun kw nested est budget hb he => copy_realizes hb (Nat.le_refl _) ⟨hw, hs, hh, hr, hroom, he⟩
  refine ⟨fun kw nested est budget hb he => ?_, fun ctx n lengths budget hb hf hm hcap => ?_⟩
  · refine (hcopies kw nested est budget hb he).mono (fun v k hk => ?_) fun e k hk => hk
    obtain ⟨answers, t, cells, rest, hc, -⟩ := hk
    exact ⟨answers, t, cells, rest, hc.returns, hc.answered, hc.adds, hc.roots, hc.shows⟩
  have hreach : ∀ expr ∈ s.fold expressions ctx.keywords 0, h.Reachable [] expr :=
    hh.reachable_expressions hr
  have hknows : ∀ {answers k}, answers.map Answer.expr <+: s.fold expressions ctx.keywords 0 →
      Answered (Evaluator.nestedEval ctx (n + 1)) s.depth h h answers k →
      ∀ answer ∈ answers, h.Knows ctx.keywords answer := by
    intro answers k hp ha
    refine ha.knows hs hf hroom fun answer hmem => ?_
    have hexpr := hp.subset (List.mem_map_of_mem hmem)
    obtain ⟨v, hv, -⟩ := hm _ hexpr
    exact ⟨hreach _ hexpr, v, hv⟩
  refine (hcopies ctx.keywords (Evaluator.nestedEval ctx (n + 1)) ⟨fun _ => 0, lengths⟩ budget hb
    fun expr he => ?_).mono (fun v k hk => ?_) fun e k hk => ?_
  · obtain ⟨v, hv, hlen⟩ := hm expr he
    exact hv.innocuous hs (hreach expr he) hf hroom hlen
  · obtain ⟨answers, t, cells, rest, hc, -⟩ := hk
    have hexprs := (Asking.law_asks ctx.keywords s 0).of_returns hc.returns
    exact ⟨answers, t, cells, rest, hc.returns,
      hknows (hexprs ▸ List.prefix_refl _) hc.answered, hc.adds, hc.roots, hc.shows⟩
  · obtain ⟨hroots, hsaves, ⟨-, hlt⟩ | ⟨answers, f, m, hfails, ha, hshown⟩⟩ := hk
    · omega
    have hasks := Asking.law_asks ctx.keywords s 0
    have hanswers := hknows (hasks.of_fails hfails) ha
    cases f with
    | malformed _ | improper _ =>
      obtain ⟨d, hd, he⟩ := hshown
      exact ⟨hroots, hsaves, answers, _, d, hfails, hanswers, hd, he⟩
    | unanswered expr =>
      -- the expression has a value, so its evaluation does not fail
      obtain ⟨before, after, hb, -, hrun, -⟩ := hshown
      have hmem := hasks.mem_of_unanswered hfails
      obtain ⟨v, hv, -⟩ := hm expr hmem
      cases (hv.within hs (hreach expr hmem) hf hroom hb).symm.trans hrun

/-! ## An example -/

/-- The template `(,@x . ,x)` is held, and `x` is bound to a list of one object. -/
def templated : Heap where
  cells := #[.emptyList, .bool true, .bool false, .error .outOfMemory "out of memory",
    .pair ⟨5⟩ ⟨7⟩, .pair ⟨15⟩ ⟨6⟩, .pair ⟨13⟩ .emptyList, .pair ⟨14⟩ ⟨6⟩,
    .pair .trueObject .emptyList, .pair ⟨8⟩ .emptyList, .free none (some 11), .free (some 10) none,
    .frame none ⟨6⟩ ⟨9⟩, .symbol "x", .symbol "unquote", .symbol "unquote-splicing",
    .symbol "quasiquote"]
  capacity := 8
  free := some 10
  freeCount := 2
  collections := 0
  roots := #[⟨4⟩]
  rootSlots := 8
  symbols := ∅
  baseEnv := ⟨12⟩
  currentEnv := ⟨12⟩
  audited := true

/-- All keywords but those of unquoting are the same symbol there. -/
def quoting : Context where
  host := #[]
  keywords.quote := ⟨16⟩
  keywords.quasiquote := ⟨16⟩
  keywords.unquote := ⟨14⟩
  keywords.unquoteSplicing := ⟨15⟩
  keywords.conditional := ⟨16⟩
  keywords.sequence := ⟨16⟩
  keywords.clauses := ⟨16⟩
  keywords.otherwise := ⟨16⟩
  keywords.definition := ⟨16⟩
  keywords.assignment := ⟨16⟩
  keywords.conjunction := ⟨16⟩
  keywords.disjunction := ⟨16⟩
  keywords.binding := ⟨16⟩
  keywords.lambda := ⟨16⟩
  keywords.apply := ⟨16⟩
  keywords.eval := ⟨16⟩
  keywords.theEnvironment := ⟨16⟩

/-- The template that is held. -/
def splicing : Shape :=
  .pair ⟨4⟩ (.pair ⟨5⟩ (.atom ⟨15⟩) (.pair ⟨6⟩ (.atom ⟨13⟩) (.atom .emptyList)))
    (.pair ⟨7⟩ (.atom ⟨14⟩) (.pair ⟨6⟩ (.atom ⟨13⟩) (.atom .emptyList)))

lemma wellFormed_templated : templated.WellFormed where
  toClosed := by decide
  free := ⟨[10, 11], .of_list ⟨rfl, some 11, rfl, rfl, none, rfl, rfl⟩ (by decide) (by decide) rfl⟩
  table := by simp [templated]

lemma hasSentinels_templated : templated.HasSentinels :=
  .of_take rfl

lemma means_templated : templated.Means quoting.keywords ⟨13⟩ ⟨8⟩ := by
  have hf : templated.object? ⟨12⟩ = some (.frame none ⟨6⟩ ⟨9⟩) := rfl
  have hz : templated.Zips ⟨6⟩ ⟨9⟩ [(⟨13⟩, ⟨8⟩)] := .cons rfl rfl (.stop (.inl rfl))
  have hx : templated.object? ⟨13⟩ = some (.symbol "x") := rfl
  exact .bound hx (.root hf hz) rfl

/-- What it takes to copy the template is there: one new cell for the element of `x`, and one for an
error. -/
theorem templates_follow_law_templated :
    templated.WellFormed ∧ templated.HasSentinels ∧ templated.Holds splicing ∧
    templated.Reachable [] splicing.handle ∧ templated.roots.size + splicing.depth + 2 ≤
      templated.rootSlots ∧
    (Template.copy quoting.keywords (Evaluator.nestedEval quoting 1) 20 splicing.handle 0
      templated).Finishes
      (fun v k => ∃ answers t cells rest, (splicing.fold law quoting.keywords 0).Returns answers t ∧
        (∀ answer ∈ answers, templated.Knows quoting.keywords answer) ∧
        templated.Adds [] (cells ++ rest) k ∧ k.roots = templated.roots ∧ k.Shows t cells v)
      fun e k => k.roots = templated.roots ∧ templated.Saves [] k ∧ ∃ answers f d,
        (splicing.fold law quoting.keywords 0).Fails answers f ∧
        (∀ answer ∈ answers, templated.Knows quoting.keywords answer) ∧
        f.report = some d ∧ k.object? e = some d := by
  have hr : templated.Reachable [] ⟨4⟩ := .of_slot (i := 0) rfl
  have hh : templated.Holds splicing :=
    ⟨rfl, ⟨rfl, ⟨rfl, rfl⟩, rfl, ⟨rfl, rfl⟩, rfl, rfl⟩, rfl, ⟨rfl, rfl⟩, rfl, ⟨rfl, rfl⟩, rfl, rfl⟩
  have hfold : ∀ {α : Type} (i : Interpretation α), splicing.fold i quoting.keywords 0 =
      i.splice ⟨13⟩ (i.value ⟨13⟩) := fun i =>
    (Shape.fold_splice rfl).trans (congrArg _ (Shape.fold_value rfl))
  have hrow : templated.Row .emptyList [.trueObject] [⟨8⟩] ⟨8⟩ := .cons rfl .nil
  have hlen : ∀ vs spine, templated.Row .emptyList vs spine ⟨8⟩ → vs.length ≤ 1 :=
    fun vs spine hvs => by
    obtain ⟨rfl, -⟩ := hvs.unique rfl rfl hrow
    decide
  have hused : templated.usedWith [] + 2 ≤ 8 :=
    usedWith_add_freeCount_le wellFormed_templated (by simp)
  have hroom : templated.roots.size + splicing.depth + 2 ≤ templated.rootSlots := by decide
  have hframe : templated.IsFrame templated.currentEnv := ⟨none, ⟨6⟩, ⟨9⟩, rfl⟩
  have hmeans : ∀ expr ∈ splicing.fold expressions quoting.keywords 0,
      ∃ v, templated.Means quoting.keywords expr v ∧
        ∀ vs spine, templated.Row .emptyList vs spine v → vs.length ≤ 1 := by
    intro expr he
    rw [hfold] at he
    obtain rfl : expr = ⟨13⟩ := by simpa [expressions] using he
    exact ⟨_, means_templated, hlen⟩
  have hcap : splicing.fold (Estimate.cost ⟨fun _ => 0, fun _ => 1⟩) quoting.keywords 0 + 1 +
      templated.usedWith [] ≤ templated.capacity := by
    rw [hfold]
    change 0 + 1 + 0 + 1 + templated.usedWith [] ≤ 8
    omega
  have hsize : splicing.size < 20 := by decide
  refine ⟨wellFormed_templated, hasSentinels_templated, hh, hr, hroom, ?_⟩
  -- with a numeral for the budget, the copying would be carried out to find the type of the result
  generalize 20 = budget at hsize ⊢
  exact (templates_follow_law wellFormed_templated hasSentinels_templated hh hr hroom).2 quoting 0
    (fun _ => 1) budget hsize hframe hmeans hcap

end ArenaScheme
