/-
# Where a `let` form evaluates the initial values

The initial values of a form without a name are evaluated in the frame in which the form is.  A form
with a name is different by design: its name is bound in a frame of its own, between that frame and
the one of the variables, and there the initial values are evaluated.  So they see the name, and
what they define is defined there.  In both cases they see none of the variables.
-/
import ArenaScheme.Proofs.Scopes.Naming

namespace ArenaScheme

open Heap HeapM Let Application

namespace Heap

variable {h k m z : Heap} {cells spine others : List Handle}
  {call env p q seq v name operands expr inits : Handle} {form : Form} {ctx : Context} {n b : Nat}
  {c : Chain}

/-! ## A form without a name -/

/-- The procedure is a closure of the current frame. -/
lemma exists_operator (hs : h.HasSentinels) (hf : h.IsFrame h.currentEnv)
    (hn : ctx.keywords.heads.Nodup) (hwords : ∀ w ∈ ctx.keywords.heads, h.Reachable [] w)
    (hname : form.name = none) (hvars : ∀ v ∈ form.vars, h.IsSymbol v)
    (hbody : (h.pairAt form.body).isSome) (hc : h.Carries form.parts cells [] z)
    (hroots : z.roots = h.roots.push v) (hcur : z.currentEnv = h.currentEnv)
    (hshow : z.Shows (form.expansion ctx.keywords) cells v) (hnodup : cells.Nodup)
    (hroom : h.roots.size + 3 ≤ h.rootSlots)
    (hcap : cells.length + 1 + h.usedWith form.parts ≤ h.capacity) :
    ∃ q inits spine others p m, z.object? v = some (.pair q inits) ∧
      z.Row .emptyList form.inits spine inits ∧
      q ∉ ctx.keywords.heads ∧ Evaluator.nestedEval ctx (b + 1) q z = .ok p m ∧
      (∀ u ∈ v :: spine, m.object? u = z.object? u) ∧
      h.Poised form v h.currentEnv p spine others m := by
  have hexpansion : form.expansion ctx.keywords =
      .pair (form.procedure ctx.keywords) form.initials := by
    rw [Form.expansion, hname]
  rw [hexpansion] at hshow
  obtain ⟨q, inits, made, spine, rfl, hv, hproc, hinits⟩ : ∃ q inits made spine,
    cells = v :: (made ++ spine) ∧
      z.object? v = some (.pair q inits) ∧ z.Shows (form.procedure ctx.keywords) made q ∧
      z.Row .emptyList form.inits spine inits := by
    cases hshow with
    | pair hv hproc hinits => exact ⟨_, _, _, _, rfl, hv, hproc, hinits.row⟩
  obtain ⟨hvc, hcn⟩ := List.nodup_cons.mp hnodup
  have hqm : q ∈ made := by
    cases hproc with
    | pair => exact List.mem_cons_self
  have hpart : ∀ {u}, u ∈ form.parts → h.Reachable form.parts u := .of_extra
  have hvar : ∀ {u}, u ∈ form.vars → h.Reachable form.parts u :=
    fun hu => hpart (by simp [Form.parts, hu])
  have hbodyr : h.Reachable form.parts form.body := hpart (by simp [Form.parts])
  have hnil : h.Reachable form.parts .emptyList := .sentinel (by decide)
  have hleaf : ∀ {u}, u ∈ (form.procedure ctx.keywords).leaves → h.Reachable form.parts u := by
    intro u hu
    have hlambda : h.Reachable [] ctx.keywords.lambda := hwords _ (by simp [Keywords.heads])
    rcases Form.mem_leaves_procedure.mp hu with hu | hu
    · simp only [List.mem_cons, List.not_mem_nil, or_false] at hu
      rcases hu with rfl | rfl | rfl
      exacts [.of_nil hlambda, hnil, hbodyr]
    · exact hvar hu
  have hknown : ∀ {u}, u ∈ v :: (made ++ spine) → z.Reachable [] u := hc.reachable_made
  have hmade : ∀ {u}, u ∈ made → u ∈ v :: (made ++ spine) := fun hu => by simp [hu]
  have hspine : ∀ {u}, u ∈ v :: spine → u ∈ v :: (made ++ spine) := fun hu => by
    rcases List.mem_cons.mp hu with rfl | hu <;> simp [*]
  obtain ⟨params, names, hlam, hnames, hnm⟩ := hproc.isLambda
    (fun v hv => (hvars v hv).transfer hc.kept (hvar hv)) (by rwa [pairAt, hc.kept _ hbodyr])
  have hframe : z.IsFrame z.currentEnv := by
    obtain ⟨parent, ns, vs, hd⟩ := hf
    exact ⟨parent, ns, vs, hcur ▸ (hc.kept _ (.anchor .current)).trans hd⟩
  have hused := hc.usedWith_le
  have hcapz : z.capacity = h.capacity := hc.frame.capacity
  have hslotsz : z.rootSlots = h.rootSlots := hc.frame.rootSlots
  have hsizez : z.roots.size = h.roots.size + 1 := by rw [hroots, Array.size_push]
  obtain ⟨p, m, hrun, hp, hm, hr⟩ :=
    (lambda_peaks (b := b) hc.wellFormed (hc.hasSentinels hs) hframe
    (ofPair_of_nodup hn).2.2 hlam (hknown (hmade hqm)) (by omega)).exists_ok (by omega)
  rw [hcur] at hp
  have hkept : ∀ {u}, u ∈ v :: (made ++ spine) → m.object? u = z.object? u :=
    fun hu => hm.kept _ (hknown hu)
  have hpz := hm.fresh p List.mem_cons_self
  have hproc' : m.Shows (form.procedure ctx.keywords) made q :=
    hproc.congr fun u hu => hkept (hmade hu)
  have hnames' : m.Row .emptyList form.vars names params :=
    hnames.congr fun u hu => hkept (hmade (hnm u hu))
  have hv' : m.object? v = some (.pair q inits) := (hkept List.mem_cons_self).trans hv
  have hinits' : m.Row .emptyList form.inits spine inits :=
    hinits.congr fun u hu => hkept (hspine (List.mem_cons_of_mem v hu))
  have hmroots : m.roots = h.roots.push v := hr.trans hroots
  have hmcur : m.currentEnv = h.currentEnv := hm.currentEnv.trans hcur
  refine ⟨q, inits, spine, p :: made, p, m, hv, hinits, fun hq => ?_, hrun,
    fun u hu => hkept (hspine hu), ?_⟩
  · exact (hc.fresh q (hmade hqm)).2 (.of_nil (hwords q hq))
  -- the procedure refers to its own pairs and to what has been there before
  have hclosed : ∀ u ∈ p :: made, ∀ d, m.object? u = some d → ∀ c ∈ d.children,
      h.Reachable form.parts c ∨ c ∈ p :: made := by
    intro u hu d hd c hcd
    rcases List.mem_cons.mp hu with rfl | hu
    · obtain rfl := Option.some.inj (hp.symm.trans hd)
      rcases (by simpa [Datum.children] using hcd : c = h.currentEnv ∨ c = params ∨ c = form.body)
        with rfl | rfl | rfl
      · exact .inl (.anchor .current)
      · exact hnames'.start.imp (fun he : c = .emptyList => he ▸ hnil) fun hm =>
          List.mem_cons_of_mem _ (hnm c hm)
      · exact .inl hbodyr
    · exact (hproc'.closed u hu d hd c hcd).symm.imp hleaf (List.mem_cons_of_mem p)
  have hmp : m.Reachable [p] p := .of_extra List.mem_cons_self
  have hmv : m.Reachable [p] v := .of_slot (i := h.roots.size)
    (by rw [hmroots, Array.getElem?_push_size])
  have hmnames := hnames'.reachable
    (.child hmp hp (by simp [Datum.children]) : m.Reachable [p] params)
  have hminits := hinits'.reachable (hmv.tail hv')
  refine ⟨.of_closed hm.wellFormed ?_
    (fun u hu => (hm.kept u (hc.reachable hu)).trans (hc.kept u hu)) ?_
    (fun u hu d hd c hcd => ?_) hmroots ?_ ?_, hmroots, hmcur, ?_, hclosed, .inl (.anchor .current),
    List.mem_cons_self, params, names, hp, hnames'⟩
  · exact hc.frame.relocate (hm.sameFrame hr)
  · simp only [List.cons_append, List.forall_mem_cons, List.forall_mem_append]
    exact ⟨⟨hc.frame.collectible.mp hpz.1, fun hr => hpz.2 (hc.reachable hr)⟩,
      fun u hu => hc.fresh u (hmade hu), hc.fresh v List.mem_cons_self, fun u hu =>
        hc.fresh u (hspine (List.mem_cons_of_mem v hu))⟩
  · rcases List.mem_append.mp hu with hu | hu
    · exact (hclosed u hu d hd c hcd).imp_right (List.mem_append_left _)
    · rcases (Row.cons hv' hinits').closed u hu d hd c hcd with hm | hm | rfl
      · exact .inr (List.mem_append_right _ hm)
      · rcases List.mem_cons.mp hm with rfl | hm
        exacts [.inr (by simp [hqm]), .inl (hpart (by simp [Form.parts, hm]))]
      · exact .inl hnil
  · simp only [List.forall_mem_cons, List.not_mem_nil, false_implies, implies_true, and_true]
    exact ⟨.inr (by simp), .inl (hmcur ▸ .anchor .current), .inr (by simp)⟩
  · have hbodym : m.Reachable [p] form.body := .child hmp hp (by simp [Datum.children])
    refine List.forall_mem_cons.mpr ⟨hmcur ▸ .anchor .current, List.forall_mem_append.mpr ⟨?_, ?_⟩⟩
    · intro u hu
      simp only [Form.parts, hname, List.mem_cons, List.mem_append, Option.toList_none,
        List.not_mem_nil, or_false] at hu
      rcases hu with rfl | hu | hu
      exacts [hbodym, hmnames.2.1 u hu, hminits.2.1 u hu]
    · simp only [List.cons_append, List.forall_mem_cons, List.forall_mem_append]
      exact ⟨hmp, hproc'.reachable (hmv.head hv'), hmv, hminits.1⟩
  · refine List.forall_mem_cons.mpr ⟨fun hu => hpz.2 (hknown (hspine hu)), fun u hu hu' => ?_⟩
    rcases List.mem_cons.mp hu' with rfl | hu'
    · exact hvc (List.mem_append_left spine hu)
    · exact (List.nodup_append.mp hcn).2.2 u hu u hu' rfl

/-! ## The call -/

/-- The step on the call evaluates the initial values in the frame of the procedure. -/
lemma Poised.step_eq (hp : h.Poised form call env p spine others m) (hb : HostBalanced ctx.host)
    (hd : HostDiscreet ctx.host) (hblind : HostBlind ctx.host)
    (hsent : HostPreserves ctx.host HasSentinels)
    (hwords : ∀ w ∈ ctx.keywords.heads, h.Reachable form.parts w) (hs : h.HasSentinels)
    (hcall : z.object? call = some (.pair q inits)) (hq : q ∉ ctx.keywords.heads)
    (hrow : z.Row .emptyList form.inits spine inits) (hbudget : form.inits.length < n)
    (hrun : Evaluator.nestedEval ctx n q z = .ok p m)
    (hkept : ∀ u ∈ call :: spine, m.object? u = z.object? u) :
    Evaluator.step ctx (Evaluator.nestedEval ctx n) n .expr call z =
      callIn ctx.host (Evaluator.nestedEval ctx n) env p form.inits m := by
  have hinits : ∀ e ∈ form.inits, h.Reachable form.parts e :=
    fun e he => .of_extra (by simp [Form.parts, he])
  obtain ⟨hc, hroots, rfl, hapart, hclosed, hknown, hmem, -⟩ := hp
  exact hc.step_eq hb hd hblind hsent hwords hs hcall hq hrow hbudget hinits hrun hkept hroots
    hapart hclosed hknown hmem

/-! ## The frame of the initial values -/

/-- The frame in which the initial values of a form are evaluated: the current one if it has no
name, and else a new child of this one, which binds the name to the procedure `p` and nothing
else. -/
inductive InitsFrame (h m : Heap) (p : Handle) : Option Handle → Handle → Prop
  | current : InitsFrame h m p none h.currentEnv
  | own {name env names values : Handle} (hnew : ¬ h.Reachable [] env)
      (hf : m.object? env = some (.frame (some h.currentEnv) names values))
      (hn : m.object? names = some (.pair name .emptyList))
      (hv : m.object? values = some (.pair p .emptyList)) :
      InitsFrame h m p (some name) env

/-- Other names are looked up there as they are in the current frame. -/
lemma InitsFrame.find? {o : Option Handle} (hs : h.InitsFrame m p o env) (hw : m.WellFormed)
    (hnil : m.pairAt .emptyList = none) (hkept : ∀ u, h.Reachable [] u → m.object? u = h.object? u)
    (hc : h.Chains h.currentEnv c) (symbol : Handle) :
    (HeapM.find? env symbol : EvalM (Option Handle)) m =
      .ok (if o = some symbol then some p else c.bound? symbol) m := by
  have hcm : m.Chains h.currentEnv c := hc.congr (.anchor .current) hkept
  cases hs with
  | current =>
    rw [find?_eq hw.toClosed hcm, if_neg (by simp)]
  | @own name _ names values _ hf hn hv =>
    have hz : m.Zips names values [(name, p)] :=
      .cons (pairAt_eq_some.mpr hn) (pairAt_eq_some.mpr hv) (.stop (.inl hnil))
    rw [find?_eq hw.toClosed (.child hf hz hcm), Chain.bound?_cons, Bindings.lookup_cons,
      List.lookup_nil]
    by_cases he : name = symbol
    · simp [he]
    · simp [he]

/-- Where a `let` form evaluates the initial values.  Let there be enough room for the form, and let
its name, if it has one, be no keyword.  Then after one turn, or after three if the form has a name,
its call is in the slot, and the step on it evaluates the initial values, each of them once and from
left to right in the same frame `env`, and then it calls a closure of this frame with a list of the
values.  The closure has the variables and the body of the form.

* If the form has no name, then `env` is the frame in which the form is evaluated, and nothing has
  changed in it.  So the initial values see none of the variables, and what they define is defined
  there.
* If the form has a name, then `env` is a new child of that frame.  It binds the name to the closure
  and nothing else, so that the initial values see the name, but none of the variables; other
  symbols are looked up as they are in the frame in which the form is evaluated.  But what they
  define is defined in the new frame. -/
theorem let_scopes_initial_values (hb : HostBalanced ctx.host) (hd : HostDiscreet ctx.host)
    (hblind : HostBlind ctx.host) (hsent : HostPreserves ctx.host HasSentinels)
    (hn : ctx.keywords.heads.Nodup) (hw : h.WellFormed) (hs : h.HasSentinels)
    (hf : h.IsFrame h.currentEnv) (hwords : ∀ w ∈ ctx.keywords.heads, h.Reachable [] w)
    (he : h.object? expr = some (.pair ctx.keywords.binding operands))
    (hform : h.Forms operands form)
    (hname : ∀ name, form.name = some name → name ∉ ctx.keywords.heads ∧
      ∃ s, h.findSymbol s = some name)
    (hroom : h.roots.size + 1 + form.slots ≤ h.rootSlots)
    (hcap : (form.expansion ctx.keywords).pairs + 4 + h.usedWith [expr] ≤ h.capacity)
    (hbudget : form.bindings.length < n) :
    ∃ call env p z m, Activation.Leads ctx
      (.enter (n + form.turns) expr h) ⟨n, ⟨h.roots.size⟩, .expr, z⟩ ∧
      z.roots = h.roots.push call ∧
      Evaluator.step ctx (Evaluator.nestedEval ctx n) n .expr call z =
        callIn ctx.host (Evaluator.nestedEval ctx n) env p form.inits m ∧
      (∃ params names, m.object? p = some (.closure env params form.body) ∧
        m.Row .emptyList form.vars names params) ∧
      h.InitsFrame m p form.name env ∧ (∀ u, h.Reachable form.parts u → m.object? u = h.object? u) ∧
      ∀ c, h.Chains h.currentEnv c → ∀ symbol, (HeapM.find? env symbol : EvalM (Option Handle)) m =
        .ok (if form.name = some symbol then some p else c.bound? symbol) m := by
  obtain ⟨b, rfl⟩ : ∃ b, n = b + 1 := ⟨n - 1, by omega⟩
  have hlambda := hwords ctx.keywords.lambda (by simp [Keywords.heads])
  have hdefinition := hwords ctx.keywords.definition (by simp [Keywords.heads])
  obtain ⟨v, k, cells, hrun, hkr, hkcur, hnodup, hc, hshow⟩ :=
    exists_expand hw hs he hform hlambda hdefinition hroom
    (by omega)
  have hlen := hshow.length_eq
  have hused : h.usedWith form.parts ≤ h.usedWith [expr] :=
    usedWith_le_of_reachable rfl fun u _ hu => hu.mono fun x hx =>
      hform.reachable_leaves ((Reachable.of_extra List.mem_cons_self).tail he) (.of_nil hlambda)
        (.of_nil hdefinition) x
      (Form.mem_leaves_of_mem_parts hx)
  have hfirst : ∀ a, Activation.Leads ctx (.enter (a + 1) expr h)
      ⟨a, ⟨h.roots.size⟩, .expr, { k with roots := h.roots.push v }⟩ := by
    intro a
    have hstep : Evaluator.step ctx (Evaluator.nestedEval ctx (a + 1)) (a + 1) .expr expr
        { h with roots := h.roots.push expr } = .ok (.eval v) k := by
      rw [Evaluator.step, Step.ofExpr, bind_of_ok
        (datum_apply (h := { h with roots := h.roots.push expr }) he)]
      dsimp only
      rw [(ofPair_of_nodup hn).1]
      exact bind_of_ok hrun
    exact Activation.Leads.step .expr .refl rfl hstep hkr
  have hwords' : ∀ w ∈ ctx.keywords.heads, h.Reachable form.parts w :=
    fun w hw => .of_nil (hwords w hw)
  have hbudget' : form.inits.length < b + 1 := by simpa [Form.inits] using hbudget
  set z : Heap := { k with roots := h.roots.push v } with hz
  have hzshow : z.Shows (form.expansion ctx.keywords) cells v := hshow.congr fun _ _ => rfl
  suffices hopen : ∃ call env p z m spine others,
      Activation.Leads ctx (.enter (b + 1 + form.turns) expr h) ⟨b + 1, ⟨h.roots.size⟩, .expr, z⟩ ∧
      z.roots = h.roots.push call ∧ Evaluator.step ctx (Evaluator.nestedEval ctx (b + 1))
      (b + 1) .expr call z =
        callIn ctx.host (Evaluator.nestedEval ctx (b + 1)) env p form.inits m ∧
      h.Poised form call env p spine others m ∧ h.InitsFrame m p form.name env by
    obtain ⟨call, env, p, z, m, spine, others, hlead, hroots, hstep, hp, hframe⟩ := hopen
    refine ⟨call, env, p, z, m, hlead, hroots, hstep, hp.closure, hframe, hp.carries.kept,
      fun c hc symbol => ?_⟩
    exact hframe.find? hp.carries.wellFormed (hp.carries.hasSentinels hs).pairAt_emptyList
      (fun u hu => hp.carries.kept u (.of_nil hu)) hc symbol
  cases hname' : form.name with
  | none =>
    have hturns : form.turns = 1 := by rw [Form.turns, hname']; rfl
    have hslots : 2 ≤ form.slots := by rw [Form.slots, hname']; simp
    obtain ⟨q, inits, spine, others, p, m, hv, hrow, hq, hrun', hkept, hp⟩ :=
      exists_operator (b := b) hs hf hn hwords
      hname' hform.isSymbol hform.body hc rfl hkcur hzshow hnodup (by omega) (by omega)
    exact ⟨v, h.currentEnv, p, z, m, spine, others, hturns ▸ hfirst (b + 1), rfl,
      hp.step_eq hb hd hblind hsent hwords' hs hv hq hrow hbudget' hrun' hkept, hp, .current⟩
  | some name =>
    have hturns : form.turns = 3 := by rw [Form.turns, hname']; rfl
    have hslots : 7 ≤ form.slots := by rw [Form.slots, hname']; simp
    obtain ⟨hhead, s, hsym⟩ := hname name hname'
    have hpairs := Form.pairs_sequel ctx.keywords hname'
    obtain ⟨f, seq, rest, l₂, hrun₂, hr₂, hz₂⟩ :=
      exists_second_turn (b := b + 2) hs hf hn hwords hname' hc rfl hkcur hzshow
      hnodup (by omega) (by omega)
    have hsecond := (hfirst (b + 3)).step .body rfl hrun₂ hr₂
    have hlen₂ := hz₂.shows.length_eq
    obtain ⟨p, call, inits, spine, others, l₃, hrun₃, hr₃, hp, hcall, hrow, ns, vs, hfd, hns,
      hvs⟩ := exists_third_turn
      (b := b) hs hn hname' hsym hform.isSymbol hform.body hz₂ (by omega) (by omega)
    have hthird := hsecond.step .expr rfl hrun₃ hr₃
    set m : Heap := { l₃ with roots := h.roots.push call } with hm
    -- the operator is the name
    have hms := hp.carries.hasSentinels hs
    have hmname : m.object? name = some (.symbol s) :=
      (hp.carries.kept name (.of_extra (by simp [Form.parts, hname']))).trans
        (hw.table s name hsym).2
    have hzip : m.Zips ns vs [(name, p)] :=
      .cons (pairAt_eq_some.mpr hns) (pairAt_eq_some.mpr hvs) (.stop (.inl hms.pairAt_emptyList))
    have hmsize : m.roots.size = h.roots.size + 1 := Array.size_push _
    have hmslots : m.rootSlots = h.rootSlots := hp.carries.frame.rootSlots
    have hrun₄ : Evaluator.nestedEval ctx (b + 1) name m = .ok p m :=
      nestedEval_symbol hp.carries.wellFormed hmname (hp.current ▸ hfd) hzip (by simp) (by omega)
    refine ⟨call, f, p, m, m, spine, others, hturns ▸ hthird, rfl,
      hp.step_eq hb hd hblind hsent hwords' hs hcall hhead
      (hrow.congr fun _ _ => rfl) hbudget' hrun₄ (fun _ _ => rfl), hp,
      .own (fun hr => ?_) hfd hns hvs⟩
    exact (hz₂.carries.fresh f List.mem_cons_self).2 (.of_nil hr)

/-- The form `(let f ((x f)) #f)` is there, and 17 cells are free. -/
def naming : Heap where
  cells := (sentinels ++ (List.range 17).map (freshCell 17) ++
    [.pair ⟨41⟩ ⟨22⟩, .pair ⟨46⟩ ⟨23⟩, .pair ⟨24⟩ ⟨27⟩, .pair ⟨25⟩ .emptyList, .pair ⟨47⟩ ⟨26⟩,
      .pair ⟨46⟩ .emptyList, .pair .falseObject .emptyList, rootFrame] ++
    ["quote", "quasiquote", "unquote", "unquote-splicing", "if", "begin", "cond", "else", "define",
      "set!", "and", "or", "let", "lambda", "apply", "eval", "the-environment", "f", "x"].map
        Datum.symbol).toArray
  capacity := 24
  free := some 4
  freeCount := 17
  collections := 0
  roots := #[]
  rootSlots := 8
  symbols := (∅ : Std.TreeMap String Handle).insert "f" ⟨46⟩
  baseEnv := ⟨28⟩
  currentEnv := ⟨28⟩
  audited := true

/-- Its keywords. -/
def namingContext : Context where
  host := #[]
  keywords := ⟨⟨29⟩, ⟨30⟩, ⟨31⟩, ⟨32⟩, ⟨33⟩, ⟨34⟩, ⟨35⟩, ⟨36⟩, ⟨37⟩, ⟨38⟩, ⟨39⟩, ⟨40⟩, ⟨41⟩, ⟨42⟩,
    ⟨43⟩, ⟨44⟩, ⟨45⟩⟩

lemma wellFormed_naming : naming.WellFormed where
  toClosed := by decide
  free := by
    have hcell : ∀ k < 17, naming.cells[regionStart + k]? = some (freshCell 17 k) := by decide
    have hlist : naming.FreeList (List.range' regionStart 17) := by
      refine (linked_ofSizing ⟨17, 8⟩ 0 17 rfl).congr fun i hi => ?_
      obtain ⟨k, hk, rfl⟩ := List.mem_range'.mp hi
      rw [Nat.one_mul, hcell k hk, getElem?_ofSizing_collectible hk]
    exact ⟨_, .of_list hlist List.nodup_range' (by decide) rfl⟩
  table := table_of_insert rfl ⟨by decide, rfl⟩

lemma hasSentinels_naming : naming.HasSentinels :=
  .of_take rfl

lemma forms_naming : naming.Forms ⟨22⟩ ⟨some ⟨46⟩, [(⟨47⟩, ⟨46⟩)], ⟨27⟩⟩ :=
  .named rfl ⟨"f", rfl⟩ rfl rfl ⟨[⟨25⟩], [⟨24⟩], .cons rfl .nil,
    .cons ⟨⟨"x", rfl⟩, [⟨25⟩, ⟨26⟩], .cons rfl (.cons rfl .nil)⟩ .nil⟩

/-- There is just enough room for the form. -/
theorem let_scopes_initial_values_naming :
    HostBalanced namingContext.host ∧ HostDiscreet namingContext.host ∧
    HostBlind namingContext.host ∧
    HostPreserves namingContext.host HasSentinels ∧ namingContext.keywords.heads.Nodup ∧
    naming.WellFormed ∧
    naming.HasSentinels ∧ naming.IsFrame naming.currentEnv ∧
    (∀ w ∈ namingContext.keywords.heads, naming.Reachable [] w) ∧
    naming.object? ⟨21⟩ = some (.pair namingContext.keywords.binding ⟨22⟩) ∧
    naming.Forms ⟨22⟩ ⟨some ⟨46⟩, [(⟨47⟩, ⟨46⟩)], ⟨27⟩⟩ ∧
    ⟨46⟩ ∉ namingContext.keywords.heads ∧ naming.findSymbol "f" = some ⟨46⟩ ∧
    ∃ call env p z m, Activation.Leads namingContext (.enter 5 ⟨21⟩ naming) ⟨2, ⟨0⟩, .expr, z⟩ ∧
      z.roots = #[call] ∧
      Evaluator.step namingContext (Evaluator.nestedEval namingContext 2) 2 .expr call z =
        callIn #[] (Evaluator.nestedEval namingContext 2) env p [⟨46⟩] m ∧
      (∃ params names, m.object? p = some (.closure env params ⟨27⟩) ∧
        m.Row .emptyList [⟨47⟩] names params) ∧
      naming.InitsFrame m p (some ⟨46⟩) env ∧
      (HeapM.find? env ⟨46⟩ : EvalM (Option Handle)) m = .ok (some p) m := by
  have hb : HostBalanced namingContext.host := fun p hm => absurd hm (by simp [namingContext])
  have hd : HostDiscreet namingContext.host := fun _ p hm => absurd hm (by simp [namingContext])
  have hblind : HostBlind namingContext.host := fun _ p hm => absurd hm (by simp [namingContext])
  have hsent : HostPreserves namingContext.host HasSentinels :=
    fun p hm => absurd hm (by simp [namingContext])
  have hn : namingContext.keywords.heads.Nodup := by decide
  have hf : naming.IsFrame naming.currentEnv := ⟨none, .emptyList, .emptyList, rfl⟩
  have hwords : ∀ w ∈ namingContext.keywords.heads, naming.Reachable [] w := by
    intro w hw
    have hpermanent : ∀ w ∈ namingContext.keywords.heads, 28 ≤ w.index ∧ w.index < 48 := by decide
    exact .anchor (.permanent (hpermanent w hw).1 (hpermanent w hw).2)
  have he : naming.object? ⟨21⟩ = some (.pair namingContext.keywords.binding ⟨22⟩) := rfl
  have hhead : ⟨46⟩ ∉ namingContext.keywords.heads := by decide
  have hsym : naming.findSymbol "f" = some ⟨46⟩ := by decide
  have hname : ∀ name, some (⟨46⟩ : Handle) = some name → name ∉ namingContext.keywords.heads ∧
      ∃ s, naming.findSymbol s = some name := by
    intro name he
    obtain rfl := Option.some.inj he
    exact ⟨hhead, "f", hsym⟩
  have hused : naming.usedWith [⟨21⟩] + 17 ≤ 24 :=
    usedWith_add_freeCount_le wellFormed_naming (List.forall_mem_singleton.mpr rfl)
  obtain ⟨call, env, p, z, m, hlead, hroots, hstep, hp, hframe, -, hfind⟩ :=
    let_scopes_initial_values (n := 2) hb hd
    hblind hsent hn wellFormed_naming hasSentinels_naming hf hwords he forms_naming hname
    (by decide)
    (show 13 + 4 + naming.usedWith [⟨21⟩] ≤ 24 by omega) (by decide)
  have hchain : naming.Chains naming.currentEnv [(⟨28⟩, [])] := .root rfl (.stop (.inl rfl))
  refine ⟨hb, hd, hblind, hsent, hn, wellFormed_naming, hasSentinels_naming, hf, hwords, he,
    forms_naming, hhead, hsym, call, env, p, z, m, hlead, hroots, hstep, hp, hframe, ?_⟩
  simpa using hfind _ hchain ⟨46⟩

end Heap

/-! ## The frame of a form with a name shows -/

open Interpreter

/-- Set up a machine, run a text on it, and print the value. -/
def answer (text : String) : HeapM Failure String := do
  let ctx ← install #[]
  HeapM.print (← run ctx 20 text)

/-- The initial values of a form with a name are not evaluated in the frame in which the form is:
they see the name, and what they define is not defined there, even if the name does not occur
anywhere else. -/
theorem initial_values_apart :
    let machine : Heap := { Heap.ofSizing ⟨110, 16⟩ with audited := false }
    (answer "(define n 5) (let ((x n)) x)" machine).value? = some "5" ∧
    (answer "(define n 5) (let n ((x n)) x)" machine).value? = some "#<closure>" ∧
    (answer "(define y 0) (let ((x (define y 1))) x) y" machine).value? = some "1" ∧
    (answer "(define y 0) (let loop ((x (define y 1))) x) y" machine).value? = some "0" := by
  decide +kernel

end ArenaScheme
