/-
# The frame of a name

A `let` form with a name is expanded to the call of a procedure without parameters.  That makes a
frame, and in this frame the name is bound to the procedure of the form before its call is
evaluated.  So there is one frame more between that of the variables and the one in which the form
is evaluated, and this is where the operands of the call are evaluated.
-/
import ArenaScheme.Proofs.Scopes.Opening

namespace ArenaScheme

open Heap HeapM Let

namespace Heap

variable {h k l z : Heap} {cells : List Handle} {f u v w p q seq name : Handle} {form : Form}
  {kw : Keywords} {ctx : Context} {n b : Nat} {s : String} {r t : Built}

/-! ## The new frame -/

/-- The call of a procedure without parameters leads to its body. -/
lemma Shows.thunk (hs : k.Shows (.list [.list [.same w, .same .emptyList, r, t]]) cells v) :
    ∃ q operands seq rest, k.object? v = some (.pair q .emptyList) ∧
      k.object? q = some (.pair w operands) ∧
      k.object? operands = some (.pair .emptyList seq) ∧ k.Shows (.list [r, t]) rest seq ∧
      rest.Sublist cells ∧
      q ∈ cells := by
  cases hs with
  | pair hv hq hnil =>
    cases hnil
    cases hq with
    | pair hq hw hoperands =>
      cases hw
      cases hoperands with
      | pair ho hnil hseq =>
        cases hnil
        refine ⟨_, _, _, _, hv, hq, ho, hseq, ?_, by simp⟩
        simp only [List.nil_append, List.append_nil]
        exact (((List.Sublist.refl _).cons _).cons _).cons _

/-- The new frame is there, without bindings, and the body of the procedure is in the slot. -/
structure Enframed (h : Heap) (kw : Keywords) (form : Form) (name f seq : Handle)
    (cells : List Handle) (z : Heap) :
    Prop where
  carries : h.Carries form.parts (f :: cells) [] z
  roots : z.roots = h.roots.push seq
  current : z.currentEnv = f
  frame : z.object? f = some (.frame (some h.currentEnv) .emptyList .emptyList)
  shows : z.Shows (form.sequel kw name) cells seq
  nodup : (f :: cells).Nodup

/-- What takes the place of what is in the slot is live if what can be reached from it is. -/
lemma WellFormed.replace (hw : k.WellFormed) (hr : k.roots = h.roots.push v)
    (hu : k.isLive u = true) :
    ({ k with roots := h.roots.push u } : Heap).WellFormed := by
  refine hw.setRoots fun x hx => ?_
  rw [Array.toList_push, List.mem_append, List.mem_singleton] at hx
  rcases hx with hx | rfl
  · exact hw.root x (by rw [hr]; simp [Array.mem_toList_iff.mp hx])
  · exact hu

/-- In the second turn the frame is made. -/
lemma exists_second_turn (hs : h.HasSentinels) (hf : h.IsFrame h.currentEnv)
    (hn : ctx.keywords.heads.Nodup) (hwords : ∀ w ∈ ctx.keywords.heads, h.Reachable [] w)
    (hname : form.name = some name) (hc : h.Carries form.parts cells [] k)
    (hroots : k.roots = h.roots.push v) (hcur : k.currentEnv = h.currentEnv)
    (hshow : k.Shows (form.expansion ctx.keywords) cells v) (hnodup : cells.Nodup)
    (hroom : h.roots.size + 4 ≤ h.rootSlots)
    (hcap : (form.expansion ctx.keywords).pairs + 3 + h.usedWith form.parts ≤ h.capacity) :
    ∃ f seq rest l, Evaluator.step ctx (Evaluator.nestedEval ctx (b + 1)) (b + 1) .expr v k =
      .ok (.body seq) l ∧
      l.roots = h.roots.push v ∧
      h.Enframed ctx.keywords form name f seq rest { l with roots := h.roots.push seq } := by
  have hlen := hshow.length_eq
  have hexpansion : form.expansion ctx.keywords =
    .list [.list [.same ctx.keywords.lambda, .same .emptyList,
      .list [.same ctx.keywords.definition, .same name, form.procedure ctx.keywords],
      .pair (.same name) form.initials]] := by
    rw [Form.expansion, hname]
  rw [hexpansion] at hshow
  obtain ⟨q, operands, seq, rest, hv, hq, ho, hseq, hsub, hqc⟩ := hshow.thunk
  have hlambda : ∀ {u}, u ∈ (form.sequel ctx.keywords name).leaves → h.Reachable form.parts u := by
    intro u hu
    have hleaf : u ∈ (form.expansion ctx.keywords).leaves := by
      rw [Form.mem_leaves, hname]
      rw [Form.mem_leaves_sequel] at hu
      grind
    exact Form.reachable_of_mem_leaves (hwords _ (by simp [Keywords.heads]))
      (hwords _ (by simp [Keywords.heads])) hleaf
  have hqhead : q ∉ ctx.keywords.heads := fun hm => (hc.fresh q hqc).2 (.of_nil (hwords q hm))
  have hpair : (k.pairAt seq).isSome := by
    cases hseq with
    | pair hd => rw [pairAt_eq_some.mpr hd]; rfl
  have hslot : k.Reachable [] v := .of_slot (i := h.roots.size)
    (by rw [hroots, Array.getElem?_push_size])
  have hframe : k.IsFrame k.currentEnv := by
    obtain ⟨parent, names, values, hd⟩ := hf
    exact ⟨parent, names, values, hcur ▸ (hc.kept _ (.anchor .current)).trans hd⟩
  have hused := hc.usedWith_le
  have hcapk : k.capacity = h.capacity := hc.frame.capacity
  have hslotsk : k.rootSlots = h.rootSlots := hc.frame.rootSlots
  have hsizek : k.roots.size = h.roots.size + 1 := by rw [hroots, Array.size_push]
  obtain ⟨f, l, made, hrun, hl, hfm, -, hfd, hr⟩ := exists_thunk_step (b := b) hc.wellFormed
    (hc.hasSentinels hs) hframe (ofPair_of_nodup hn).2.2 hv hqhead
    (show k.IsLambda ctx.keywords q .emptyList seq from
      ⟨⟨operands, hq, ho⟩, ⟨[], .emptyList, ⟨[], .nil⟩, by simp, .inl rfl⟩, hpair⟩) hslot
        (by omega) (by omega)
  -- all that is left of the expansion is the body, and it is as it was
  have hknown : ∀ {u}, h.Reachable form.parts u ∨ u ∈ cells → k.Reachable [] u :=
    fun hu => (hc.reachable_iff _).mpr hu
  have hrest : ∀ {u}, u ∈ rest → k.Reachable [] u := fun hu => hknown (.inr (hsub.subset hu))
  have hfresh := hl.fresh f hfm
  have hlseq : l.Shows (form.sequel ctx.keywords name) rest seq :=
    hseq.congr fun u hu => hl.kept u (hrest hu)
  have hself : seq ∈ rest := by
    cases hseq with
    | pair => exact List.mem_cons_self
  have hlroots : l.roots = h.roots.push v := hr.trans hroots
  set z : Heap := { l with currentEnv := f, roots := h.roots.push seq } with hz
  have hzseq : z.Reachable [] seq := .of_slot (i := h.roots.size) Array.getElem?_push_size
  have hzf : z.Reachable [] f := .anchor .current
  have hzshow : z.Shows (form.sequel ctx.keywords name) rest seq := hlseq.congr fun _ _ => rfl
  refine ⟨f, seq, rest, { l with currentEnv := f }, hrun, hlroots, ?_, rfl, rfl,
    hcur ▸ hfd, hzshow, ?_⟩
  swap
  · exact List.nodup_cons.mpr ⟨fun hm => hfresh.2 (hrest hm), hnodup.sublist hsub⟩
  have hlive : l.isLive seq = true := hl.isLive (hrest hself)
  refine .of_closed ((hl.wellFormed.replace hlroots hlive).switchEnv (isLive_of_object? hfd)) ?_
    (fun u hu => ?_)
    (List.forall_mem_cons.mpr ⟨?_, fun u hu => hc.fresh u (hsub.subset hu)⟩)
    (fun u hu d hd c hcd => ?_) rfl ?_ ?_
  · exact hc.frame.relocate (l := l) (hl.sameFrame hr)
  · exact (hl.kept u (hc.reachable hu)).trans (hc.kept u hu)
  · exact ⟨hc.frame.collectible.mp hfresh.1, fun hr => hfresh.2 (hc.reachable hr)⟩
  · rcases List.mem_cons.mp hu with rfl | hu
    · obtain rfl := Option.some.inj (hfd.symm.trans hd)
      rcases (by simpa [Datum.children] using hcd : c = k.currentEnv ∨ c = .emptyList)
        with rfl | rfl
      · exact .inl (hcur ▸ .anchor .current)
      · exact .inl (.sentinel (by decide))
    · exact (hlseq.closed u hu d hd c hcd).symm.imp hlambda (List.mem_cons_of_mem f)
  · simp only [List.forall_mem_cons, List.not_mem_nil, false_implies, implies_true, and_true]
    exact ⟨.inr (List.mem_cons_of_mem f hself), .inr List.mem_cons_self⟩
  · refine List.forall_mem_cons.mpr
      ⟨.child hzf hfd (by simp [Datum.children, hcur]), List.forall_mem_append.mpr ⟨?_, ?_⟩⟩
    · intro u hu
      refine hzshow.reachable_leaves hzseq u ?_
      rw [Form.mem_leaves_sequel]
      simp only [Form.parts, hname, List.mem_cons, List.mem_append, Option.toList_some,
        List.not_mem_nil] at hu
      grind
    · exact List.forall_mem_cons.mpr ⟨hzf, hzshow.reachable hzseq⟩

/-! ## The name -/

/-- The body binds the name to the procedure, and then it is the call. -/
lemma Shows.sequel (hs : k.Shows (form.sequel kw name) cells seq) :
    ∃ defn tail call operands rest procedure inits made spine,
      k.object? seq = some (.pair defn tail) ∧
      k.object? tail = some (.pair call .emptyList) ∧
      k.object? defn = some (.pair kw.definition operands) ∧
      k.object? operands = some (.pair name rest) ∧
      k.object? rest = some (.pair procedure .emptyList) ∧
      k.Shows (form.procedure kw) made procedure ∧ k.object? call = some (.pair name inits) ∧
      k.Row .emptyList form.inits spine inits ∧ (made ++ call :: spine).Sublist cells ∧
      (∀ u ∈ [seq, tail, defn, operands, rest], u ∈ cells) := by
  cases hs with
  | pair hseq hdefn htail =>
    cases hdefn with
    | pair hdefn hkw hoperands =>
      cases hkw
      cases hoperands with
      | pair hoperands hname hrest =>
        cases hname
        cases hrest with
        | pair hrest hproc hnil =>
          cases hnil
          cases htail with
          | pair htail hcall hnil =>
            cases hnil
            cases hcall with
            | pair hcall hname hinits =>
              cases hname
              refine ⟨_, _, _, _, _, _, _, _, _, hseq, htail, hdefn, hoperands, hrest, hproc, hcall,
                hinits.row, ?_, by simp⟩
              simp only [List.nil_append, List.append_nil, List.cons_append]
              exact ((((List.Sublist.refl _).append ((List.Sublist.refl _).cons _)).cons _).cons
                _).cons _ |>.cons _

lemma Form.pairs_sequel (kw : Keywords) (hn : form.name = some name) :
    (form.expansion kw).pairs = (form.sequel kw name).pairs + 3 := by
  rw [Form.expansion, hn, Form.sequel]
  simp only [Built.pairs_list, List.map_cons, List.map_nil, List.sum_cons, List.sum_nil,
    Built.pairs, List.length_cons, List.length_nil]
  omega

/-- A frame without bindings lacks every symbol. -/
lemma lacks_of_empty (hs : k.HasSentinels)
    (hf : k.object? f = some (.frame w .emptyList .emptyList)) :
    k.Lacks f name :=
  have hl : k.isLive .emptyList = true := isLive_of_object? hs.emptyList
  ⟨_, _, _, hf, .stop hl hl (.inl hs.pairAt_emptyList)⟩

/-- The call of the form is in the slot, and its operator has come to a new closure of the frame
`env`.  No new object but the pairs of the call leads to one of these. -/
structure Poised (h : Heap) (form : Form) (call env p : Handle) (spine others : List Handle)
    (m : Heap) : Prop where
  carries : h.Carries form.parts (others ++ call :: spine) [p] m
  roots : m.roots = h.roots.push call
  current : m.currentEnv = env
  apart : ∀ u ∈ others, u ∉ call :: spine
  closed : ∀ u ∈ others, ∀ d, m.object? u = some d →
    ∀ c ∈ d.children, h.Reachable form.parts c ∨ c ∈ others
  known : h.Reachable form.parts env ∨ env ∈ others
  mem : p ∈ others
  closure : ∃ params names, m.object? p = some (.closure env params form.body) ∧
    m.Row .emptyList form.vars names params

/-- A body of two expressions comes to the second one after the first has been evaluated. -/
lemma step_body_two (hs : z.HasSentinels) (hseq : z.object? seq = some (.pair v w))
    (hw : z.object? w = some (.pair u .emptyList))
    (hrun : Evaluator.nestedEval ctx (b + 2) v z = .ok p l)
    (hw' : l.object? w = some (.pair u .emptyList)) :
    Evaluator.step ctx (Evaluator.nestedEval ctx (b + 2)) (b + 2) .body seq z =
      .ok (.eval u) l := by
  have hnil : w ≠ .emptyList := by
    rintro rfl
    cases hs.emptyList.symm.trans hw
  have hend : Step.ofBody (Evaluator.nestedEval ctx (b + 2)) (b + 1) w l = .ok (.eval u) l :=
    bind_of_ok (asPair_apply hw')
  refine (bind_of_ok (asPair_apply hseq)).trans ?_
  change (if w = .emptyList then pure (Step.eval v) else do
    let _ ← Evaluator.nestedEval ctx (b + 2) v
    Step.ofBody (Evaluator.nestedEval ctx (b + 2)) (b + 1) w : EvalM Step) z = _
  rw [if_neg hnil, bind_of_ok hrun, hend]

/-- The frame `f` binds the name of the form to the procedure `p`, which is a closure of that frame,
and the call of the procedure is there. -/
structure Named (h : Heap) (form : Form) (name f p params call inits ns vs : Handle)
    (names spine : List Handle) (l : Heap) : Prop where
  current : l.currentEnv = f
  frame : l.object? f = some (.frame (some h.currentEnv) ns vs)
  symbols : l.Row .emptyList [name] [ns] ns
  values : l.Row .emptyList [p] [vs] vs
  closure : l.object? p = some (.closure f params form.body)
  parameters : l.Row .emptyList form.vars names params
  call : l.Row .emptyList (name :: form.inits) (call :: spine) call

namespace Named

variable {params call inits ns vs : Handle} {names spine : List Handle}
  (hd : h.Named form name f p params call inits ns vs names spine l) (hname : form.name = some name)
include hd hname

/-- The procedure and the objects of the frame refer to nothing else that is new. -/
lemma closed : ∀ u ∈ p :: f :: ns :: vs :: names, ∀ d, l.object? u = some d → ∀ c ∈ d.children,
    h.Reachable form.parts c ∨ c ∈ p :: f :: ns :: vs :: names := by
  have hpart : ∀ {u}, u ∈ form.parts → h.Reachable form.parts u := .of_extra
  have hnil : h.Reachable form.parts .emptyList := .sentinel (by decide)
  intro u hu d hd' c hcd
  have hrow : ∀ {v cells w}, l.Row .emptyList v cells w → u ∈ cells →
    (∀ x ∈ v, h.Reachable form.parts x ∨ x = p) →
      (∀ x ∈ cells, x ∈ p :: f :: ns :: vs :: names) →
      h.Reachable form.parts c ∨ c ∈ p :: f :: ns :: vs :: names := fun hr hm hv hcells => by
    rcases hr.closed u hm d hd' c hcd with hc | hc | rfl
    · exact .inr (hcells c hc)
    · exact (hv c hc).imp_right fun he => by simp [he]
    · exact .inl hnil
  simp only [List.mem_cons] at hu
  rcases hu with rfl | rfl | rfl | rfl | hu
  · obtain rfl := Option.some.inj (hd.closure.symm.trans hd')
    rcases (by simpa [Datum.children] using hcd : c = f ∨ c = params ∨ c = form.body) with
      rfl | rfl | rfl
    · exact .inr (by simp)
    · exact hd.parameters.start.imp (fun he : c = .emptyList => he ▸ hnil) fun hm => by simp [hm]
    · exact .inl (hpart (by simp [Form.parts]))
  · obtain rfl := Option.some.inj (hd.frame.symm.trans hd')
    rcases (by simpa [Datum.children] using hcd : c = h.currentEnv ∨ c = ns ∨ c = vs) with
      rfl | rfl | rfl
    · exact .inl (.anchor .current)
    · exact .inr (by simp)
    · exact .inr (by simp)
  · exact hrow hd.symbols (by simp) (by simpa using .inl (hpart (by simp [Form.parts, hname])))
      (by simp)
  · exact hrow hd.values (by simp) (by simp) (by simp)
  · exact hrow hd.parameters hu (fun x hx => .inl (hpart (by simp [Form.parts, hx]))) fun x hx => by
      simp [hx]

/-- Neither does the call. -/
lemma closed_call : ∀ u ∈ call :: spine, ∀ d, l.object? u = some d → ∀ c ∈ d.children,
    h.Reachable form.parts c ∨ c ∈ call :: spine := by
  intro u hu d hd' c hcd
  rcases hd.call.closed u hu d hd' c hcd with hm | hm | rfl
  · exact .inr hm
  · refine .inl (.of_extra ?_)
    rcases List.mem_cons.mp hm with rfl | hm
    · simp [Form.parts, hname]
    · simp [Form.parts, hm]
  · exact .inl (.sentinel (by decide))

/-- The call in a slot and the procedure lead to all of them, and to the parts of the form. -/
lemma reachable (hcall : l.Reachable [p] call) :
    ∀ u ∈ h.currentEnv :: (form.parts ++ (p :: f :: ns :: vs :: names ++ call :: spine)),
      l.Reachable [p] u := by
  have hf : l.Reachable [p] f := hd.current ▸ .anchor .current
  have hp : l.Reachable [p] p := .of_extra List.mem_cons_self
  have hparams := hd.parameters.reachable (.child hp hd.closure (by simp [Datum.children]))
  obtain ⟨hspine, hinits, -⟩ := hd.call.reachable hcall
  obtain ⟨hnamed, hinits⟩ := List.forall_mem_cons.mp hinits
  refine List.forall_mem_cons.mpr
    ⟨.child hf hd.frame (by simp [Datum.children]), List.forall_mem_append.mpr ⟨?_, ?_⟩⟩
  · intro u hu
    simp only [Form.parts, hname, List.mem_cons, List.mem_append, Option.toList_some,
      List.not_mem_nil, or_false] at hu
    rcases hu with rfl | (hu | hu) | rfl
    exacts [.child hp hd.closure (by simp [Datum.children]), hparams.2.1 u hu, hinits u hu, hnamed]
  · simp only [List.cons_append, List.forall_mem_cons, List.forall_mem_append]
    exact ⟨hp, hf, .child hf hd.frame (by simp [Datum.children]),
      .child hf hd.frame (by simp [Datum.children]), hparams.1, List.forall_mem_cons.mp hspine⟩

end Named

/-- In the third turn the name is bound in the new frame. -/
lemma exists_third_turn (hs : h.HasSentinels) (hn : ctx.keywords.heads.Nodup)
    (hname : form.name = some name) (hsym : h.findSymbol s = some name)
    (hvars : ∀ v ∈ form.vars, h.IsSymbol v) (hbody : (h.pairAt form.body).isSome)
    (hz : h.Enframed ctx.keywords form name f seq cells z) (hroom : h.roots.size + 6 ≤ h.rootSlots)
    (hcap : cells.length + 4 + h.usedWith form.parts ≤ h.capacity) :
    ∃ p call inits spine others l, Evaluator.step ctx (Evaluator.nestedEval ctx (b + 2))
      (b + 2) .body seq z =
        .ok (.eval call) l ∧ l.roots = h.roots.push seq ∧
      h.Poised form call f p spine others { l with roots := h.roots.push call } ∧
      l.object? call = some (.pair name inits) ∧ l.Row .emptyList form.inits spine inits ∧
      ∃ ns vs, l.object? f = some (.frame (some h.currentEnv) ns vs) ∧
        l.object? ns = some (.pair name .emptyList) ∧
        l.object? vs = some (.pair p .emptyList) := by
  obtain ⟨hc, hroots, hcur, hframe, hshow, hnodup⟩ := hz
  obtain ⟨hfc, hcn⟩ := List.nodup_cons.mp hnodup
  obtain ⟨defn, tail, call, operands, rest, procedure, inits, made, spine, hseq, htail, hdefn,
    hoperands, hrest, hproc, hcall, hinits, hsub, hmem⟩ := hshow.sequel
  have hzs := hc.hasSentinels hs
  have hknown : ∀ {u}, h.Reachable form.parts u ∨ u ∈ f :: cells → z.Reachable [] u :=
    fun hu => (hc.reachable_iff _).mpr hu
  have hcell : ∀ {u}, u ∈ cells → z.Reachable [] u :=
    fun hu => hknown (.inr (List.mem_cons_of_mem f hu))
  have hpart : ∀ {u}, u ∈ form.parts → h.Reachable form.parts u := .of_extra
  have hvar : ∀ {u}, u ∈ form.vars → h.Reachable form.parts u :=
    fun hu => hpart (by simp [Form.parts, hu])
  have hbodyr : h.Reachable form.parts form.body := hpart (by simp [Form.parts])
  obtain ⟨params, names, hlam, hnames, hnm⟩ := hproc.isLambda
    (fun v hv => (hvars v hv).transfer hc.kept (hvar hv)) (by rwa [pairAt, hc.kept _ hbodyr])
  have hmade : ∀ {u}, u ∈ made → u ∈ cells := fun hu => hsub.subset (List.mem_append_left _ hu)
  have hspine : ∀ {u}, u ∈ call :: spine → u ∈ cells :=
    fun hu => hsub.subset (List.mem_append_right _ hu)
  -- the definition is evaluated in the new frame
  have hused := hc.usedWith_le
  have hcapz : z.capacity = h.capacity := hc.frame.capacity
  have hslotsz : z.rootSlots = h.rootSlots := hc.frame.rootSlots
  have hsizez : z.roots.size = h.roots.size + 1 := by rw [hroots, Array.size_push]
  rw [List.length_cons] at hused
  have hsymz : z.findSymbol s = some name := by
    have hsymbols : z.symbols = h.symbols := hc.frame.symbols
    rwa [findSymbol, hsymbols]
  obtain ⟨p, l, hrun, k, hp, hk, hkr, hpre⟩ := (nested_definition_peaks (b := b) hc.wellFormed hzs
    (hcur ▸ lacks_of_empty hzs hframe) (ofPair_of_nodup hn).2.1
    (ofPair_of_nodup hn).2.2 hdefn hoperands
    (.cons hrest .nil) hlam (hcell (hmem defn (by simp))) hsymz (by omega) (by omega)).exists_ok
      (by omega)
  rw [hcur] at hp hpre
  obtain ⟨parent, ns₀, vs₀, ns, vs, hf₀, hf, hns, hvs, hne, hfresh⟩ := hpre.binding
  obtain ⟨rfl, rfl, rfl⟩ : parent = some h.currentEnv ∧ ns₀ = .emptyList ∧ vs₀ = .emptyList := by
    have hd := (hk.kept f (hknown (.inr List.mem_cons_self))).trans hframe
    obtain ⟨h1, h2, h3⟩ := Datum.frame.inj (Option.some.inj (hf₀.symm.trans hd))
    exact ⟨h1, h2, h3⟩
  -- but for the frame all is as it was
  have hkz : ∀ {u}, z.Reachable [] u → k.Reachable [f, p] u :=
    fun hu => .of_nil (hk.toSaves.reachable (by simp) hu)
  have hkept : ∀ {u}, z.Reachable [] u → u ≠ f → l.object? u = z.object? u := fun hu hne =>
    (hpre.kept _ (hkz hu) hne).trans (hk.kept _ hu)
  have hold : ∀ {u}, h.Reachable form.parts u → u ≠ f :=
    fun hu he => (hc.fresh f List.mem_cons_self).2 (he ▸ hu)
  have hcellf : ∀ {u}, u ∈ cells → u ≠ f := fun hu he => hfc (he ▸ hu)
  have hpf := hk.fresh p List.mem_cons_self
  have hpl : l.object? p = some (.closure f params form.body) :=
    (hpre.kept p (.of_extra (by simp)) fun he => hpf.2
      (he ▸ hknown (.inr List.mem_cons_self))).trans hp
  have hlroots : l.roots = h.roots.push seq := (hpre.frame.roots.trans hkr).trans hroots
  have hlcur : l.currentEnv = f := (hpre.frame.currentEnv.trans hk.currentEnv).trans hcur
  have hcall' : l.object? call = some (.pair name inits) :=
    (hkept (hcell (hspine List.mem_cons_self)) (hcellf (hspine List.mem_cons_self))).trans hcall
  have hinits' : l.Row .emptyList form.inits spine inits := hinits.congr fun u hu =>
    hkept (hcell (hspine (List.mem_cons_of_mem call hu)))
      (hcellf (hspine (List.mem_cons_of_mem call hu)))
  have hnames' : l.Row .emptyList form.vars names params := hnames.congr fun u hu =>
    hkept (hcell (hmade (hnm u hu))) (hcellf (hmade (hnm u hu)))
  have htail' := (hkept (hcell (hmem tail (by simp))) (hcellf (hmem tail (by simp)))).trans htail
  refine ⟨p, call, inits, spine, p :: f :: ns :: vs :: names, l,
    step_body_two hzs hseq htail hrun htail', hlroots, ?_, hcall', hinits', ns, vs, hf, hns, hvs⟩
  set m : Heap := { l with roots := h.roots.push call } with hm
  have hd : h.Named form name f p params call inits ns vs names spine m :=
    ⟨hlcur, hf, .cons hns .nil, .cons hvs .nil, hpl, hnames'.congr fun _ _ => rfl,
      .cons hcall' (hinits'.congr fun _ _ => rfl)⟩
  -- the names of the procedure and the objects of the frame are new, and they do not lead to the
  -- call
  have hlast : ∀ u ∈ [ns, vs], ¬ z.Reachable [] u := fun u hu hr => (hfresh u hu).2 (hkz hr)
  have hfreshp : h.Collectible p.index ∧ ¬ h.Reachable form.parts p :=
    ⟨hc.frame.collectible.mp hpf.1, fun hr => hpf.2 (hc.reachable hr)⟩
  have hfreshl : ∀ u ∈ [ns, vs], h.Collectible u.index ∧ ¬ h.Reachable form.parts u := fun u hu =>
    ⟨hc.frame.collectible.mp (hk.toSaves.collectible.mp (hfresh u hu).1),
      fun hr => hlast u hu (hc.reachable hr)⟩
  have hfreshc : ∀ u ∈ cells, h.Collectible u.index ∧ ¬ h.Reachable form.parts u := fun u hu =>
    hc.fresh u (List.mem_cons_of_mem f hu)
  have hmcall : m.Reachable [p] call := .of_slot (i := h.roots.size) Array.getElem?_push_size
  refine ⟨.of_closed ?_ ?_ (fun u hu => (hkept (hc.reachable hu) (hold hu)).trans (hc.kept u hu)) ?_
    (fun u hu d hud c hcd => ?_) rfl ?_ (hd.reachable hname hmcall), rfl, hlcur, ?_,
    hd.closed hname, .inr (by simp), List.mem_cons_self, params, names, hpl, hd.parameters⟩
  · exact hpre.wellFormed.replace hlroots (isLive_of_object? hcall')
  · exact hc.frame.relocate (l := l) ((hk.sameFrame hkr).trans hpre.frame)
  · simp only [List.cons_append, List.forall_mem_cons, List.forall_mem_append]
    exact ⟨hfreshp, hc.fresh f List.mem_cons_self, hfreshl ns (by simp), hfreshl vs (by simp),
      fun u hu => hfreshc u (hmade (hnm u hu)), hfreshc call (hspine List.mem_cons_self),
      fun u hu => hfreshc u (hspine (List.mem_cons_of_mem call hu))⟩
  · rcases List.mem_append.mp hu with hu | hu
    · exact (hd.closed hname u hu d hud c hcd).imp_right (List.mem_append_left _)
    · exact (hd.closed_call hname u hu d hud c hcd).imp_right (List.mem_append_right _)
  · simp [hm, hlcur]
  · have hdisj := (List.nodup_append.mp (hcn.sublist hsub)).2.2
    simp only [List.forall_mem_cons]
    refine ⟨fun hu => hpf.2 (hcell (hspine hu)), fun hu => hfc (hspine hu),
      fun hu => hlast ns (by simp) (hcell (hspine hu)), fun hu =>
        hlast vs (by simp) (hcell (hspine hu)), fun u hu hu' => hdisj u (hnm u hu) u hu' rfl⟩

end Heap

end ArenaScheme
