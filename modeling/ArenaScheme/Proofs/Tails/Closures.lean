/-
# Expressions of one turn

A `lambda` expression comes to a new closure of the current frame.  A definition whose value is such
an expression makes the closure while the definition is held, and then it is bound, by two new
pairs.  A symbol comes to what it is bound to.  Each of these is done in one turn.
-/
import ArenaScheme.Proofs.Calls.Frames
import ArenaScheme.Proofs.Tails.Depths

namespace ArenaScheme

open Heap HeapM Evaluator

namespace Heap

variable {h k l : Heap} {ctx : Context} {kw : Keywords} {name : String} {b budget : Nat}
  {c e f v env symbol params body operands rest procedure : Handle}

/-- The expression is a `lambda` expression with these parameters and this body. -/
structure IsLambda (h : Heap) (kw : Keywords) (e params body : Handle) : Prop where
  form : ∃ operands, h.object? e = some (.pair kw.lambda operands) ∧
    h.object? operands = some (.pair params body)
  parameters : ∃ ns last, h.Specifies params ns last
  body : (h.pairAt body).isSome

lemma IsLambda.reachable {extra : List Handle} (hl : h.IsLambda kw e params body)
    (hr : h.Reachable extra e) :
    h.Reachable extra params ∧ h.Reachable extra body := by
  obtain ⟨operands, hd, hd'⟩ := hl.form
  exact ⟨(hr.tail hd).head hd', (hr.tail hd).tail hd'⟩

lemma IsLambda.congr (hl : h.IsLambda kw e params body) (hc : ∀ u, k.object? u = h.object? u) :
    k.IsLambda kw e params body := by
  obtain ⟨⟨operands, hd, hd'⟩, ⟨ns, last, ⟨cells, hrow⟩, hsym, hend⟩, hsome⟩ := hl
  have hspec : k.Specifies params ns last :=
    ⟨⟨cells, hrow.congr fun u _ => hc u⟩, by simpa only [hc] using hsym,
      by simpa only [hc] using hend⟩
  exact ⟨⟨operands, (hc _).trans hd, (hc _).trans hd'⟩, ⟨ns, last, hspec⟩, by rwa [pairAt, hc]⟩

/-- While an expression is evaluated, it is held, and so is the current frame. -/
lemma Adds.activate (hw : h.WellFormed) (hr : h.Reachable [] e) :
    h.Adds [] [] { h with roots := (h.roots.push h.currentEnv).push e } :=
  ((Adds.refl hw (by simp)).push (.inl (.anchor .current)) hw.current).push (.inl hr)
    (hw.isLive_of_reachable (by simp) hr)

lemma IsFrame.congr {f' : Handle} (hf : h.IsFrame f) (he : k.object? f' = h.object? f) :
    k.IsFrame f' := by
  obtain ⟨p, names, values, hd⟩ := hf
  exact ⟨p, names, values, he.trans hd⟩

/-! ## Closures -/

/-- A closure is made if there is room for a cell. -/
lemma exists_closeOver (hw : h.WellFormed) (hs : h.HasSentinels) (hp : h.Reachable [] params)
    (hb : h.Reachable [] body) (hspec : ∃ ns last, h.Specifies params ns last)
    (hsome : (h.pairAt body).isSome) (hcap : 1 + h.usedWith [] ≤ h.capacity) :
    ∃ c k, Form.closeOver params body h = .ok c k ∧
      k.object? c = some (.closure h.currentEnv params body) ∧ k.roots = h.roots ∧
      h.Adds [] [c] k := by
  have hx : ∀ v ∈ [h.currentEnv, params, body], h.Reachable [] v := by
    simp [hp, hb, show h.Reachable [] h.currentEnv from .anchor .current]
  have hused : h.usedWith [h.currentEnv, params, body] ≤ h.usedWith [] :=
    usedWith_le_of_reachable rfl fun v _ hv => hv.mono hx
  have hfinish := closeOver_finishes hw hs (hw.isLive_of_reachable (by simp) hp)
    (hw.isLive_of_reachable (by simp) hb)
  cases hrun : Form.closeOver params body h with
  | halt c =>
    rw [hrun] at hfinish
    exact hfinish.elim
  | error err k =>
    rw [hrun] at hfinish
    rcases hfinish with ⟨hnot, -⟩ | ⟨-, -, -, hfull⟩
    · exact absurd ⟨hspec, hsome⟩ hnot
    · omega
  | ok c k =>
    rw [hrun] at hfinish
    obtain ⟨-, -, hc, hroots, hk⟩ := hfinish
    exact ⟨c, k, rfl, hc, hroots, (Adds.refl hw (by simp)).trans hk (by simp) (by simp) fun v hv =>
      .inl (hx v hv)⟩

/-- The value of a `lambda` expression is a new closure. -/
lemma lambda_peaks (hw : h.WellFormed) (hs : h.HasSentinels) (hf : h.IsFrame h.currentEnv)
    (hkw : ∀ nested budget operands, Step.ofPair ctx nested budget ctx.keywords.lambda operands =
      Form.lambda operands)
    (he : h.IsLambda ctx.keywords e params body) (hr : h.Reachable [] e)
    (hcap : 1 + h.usedWith [] ≤ h.capacity) :
    (nestedEval ctx (b + 1) e h).Peaks h.rootSlots (h.roots.size + 2) fun c k =>
      k.object? c = some (.closure h.currentEnv params body) ∧ h.Adds [] [c] k ∧
      k.roots = h.roots := by
  obtain ⟨hrp, hrb⟩ := he.reachable hr
  have hadd := Adds.activate hw hr
  set k : Heap := { h with roots := (h.roots.push h.currentEnv).push e } with hkdef
  have hks : k.HasSentinels := hs
  have hkcap : k.capacity = h.capacity := rfl
  have hused : k.usedWith [] ≤ h.usedWith [] := hadd.usedWith_le (by simp)
  obtain ⟨⟨operands, hd, hd'⟩, hspec, hsome⟩ := he.congr (k := k) fun _ => rfl
  obtain ⟨c, l, hrun, hc, hroots, hl⟩ :=
    exists_closeOver hadd.wellFormed hks (hadd.toSaves.reachable (by simp) hrp)
    (hadd.toSaves.reachable (by simp) hrb) hspec hsome (by omega)
  have hstep : step ctx (nestedEval ctx b) b .expr e k = .ok (.done c) l := by
    rw [step, Step.ofExpr, bind_of_ok (datum_apply (h := k) hd)]
    dsimp only
    rw [hkw, Form.lambda, bind_of_ok (asPair_apply (h := k) hd')]
    change (Form.closeOver params body >>= fun c => pure (Step.done c)) k = _
    rw [bind_of_ok hrun]
    rfl
  have hslot : k.roots[h.roots.size + 1]? = some e := getElem?_push_push _ _ _
  have hall : h.Adds [] [c] l := hadd.trans hl (by simp) (by simp) (by simp)
  have hpop : l.roots.pop.pop = h.roots := by rw [hroots, hkdef, Array.pop_push, Array.pop_push]
  have hcurrent : l.currentEnv = h.currentEnv := hall.currentEnv
  rw [← Nat.max_zero (h.roots.size + 2)]
  refine peaks_nestedEval rfl (peaks_loop_done hslot
    (peaks_of_ok hstep ⟨c, rfl, by simp [hroots, hkdef], ?_, hc, ?_, hpop⟩))
  · exact hf.congr (hall.kept _ (.anchor .current))
  · rw [hpop, ← hcurrent]
    exact hall.dropRoots

/-! ## Definitions -/

/-- A symbol that the frame does not bind can be bound if there is room for two cells. -/
lemma Lacks.exists_define (hl : h.Lacks env symbol) (hw : h.WellFormed)
    (hsym : h.findSymbol name = some symbol) (hv : h.isLive v = true)
    (hroom : h.roots.size + 3 ≤ h.rootSlots) (hcap : 2 + h.usedWith [env, v] ≤ h.capacity) :
    ∃ k, define env symbol v h = .ok v k ∧ h.Prepends env symbol v k := by
  have hdefine := define_finishes hw hl hsym hv hroom
  cases hrun : define env symbol v h with
  | halt c =>
    rw [hrun] at hdefine
    exact hdefine.elim
  | error err k =>
    rw [hrun] at hdefine
    have hfull := hdefine.1
    omega
  | ok r k =>
    rw [hrun] at hdefine
    obtain ⟨-, rfl, hp⟩ := hdefine
    exact ⟨k, rfl, hp⟩

/-- The frame lacks the symbol as long as what can be reached is as it was. -/
lemma Lacks.saved {extra : List Handle} (hl : h.Lacks env symbol) (hs : h.Saves extra k)
    (hr : h.Reachable extra env) :
    k.Lacks env symbol := by
  obtain ⟨p, names, values, hd, hf⟩ := hl
  refine ⟨p, names, values, (hs.kept env hr).trans hd, ?_⟩
  have hnames : h.Reachable extra names := .child hr hd (by simp [Datum.children])
  have hvalues : h.Reachable extra values := .child hr hd (by simp [Datum.children])
  have hpair : ∀ {u}, h.Reachable extra u → k.pairAt u = h.pairAt u := fun hu => by
    rw [pairAt, pairAt, hs.kept _ hu]
  have hlive : ∀ {u}, h.Reachable extra u → k.isLive u = h.isLive u := fun hu => by
    rw [isLive_eq_isSome, isLive_eq_isSome, hs.kept _ hu]
  clear hd
  generalize (none : Option Handle) = found at hf ⊢
  induction hf with
  | here hn hv => exact .here ((hpair hnames).trans hn) ((hpair hvalues).trans hv)
  | there hn hne hv _ ih =>
    exact .there ((hpair hnames).trans hn) hne ((hpair hvalues).trans hv)
      (ih (hnames.tail (pairAt_eq_some.mp hn)) (hvalues.tail (pairAt_eq_some.mp hv)))
  | stop hn hv hp =>
    rw [← hpair hnames, ← hpair hvalues] at hp
    exact .stop ((hlive hnames).trans hn) ((hlive hvalues).trans hv) hp

/-- The value of a `lambda` expression is bound in the current frame. -/
lemma definition_step_peaks (hw : h.WellFormed) (hs : h.HasSentinels) (hl : h.Lacks h.currentEnv f)
    (hdef : ∀ nested budget operands,
      Step.ofPair ctx nested budget ctx.keywords.definition operands =
      Form.definition nested operands)
    (hkw : ∀ nested budget operands, Step.ofPair ctx nested budget ctx.keywords.lambda operands =
      Form.lambda operands)
    (hd : h.object? e = some (.pair ctx.keywords.definition operands))
    (hd' : h.object? operands = some (.pair f rest))
    (hrow : h.Row .emptyList [procedure] [rest] rest)
    (hp : h.IsLambda ctx.keywords procedure params body)
    (hr : h.Reachable [] e) (hsym : h.findSymbol name = some f)
    (hroom : h.roots.size + 3 ≤ h.rootSlots) (hcap : 3 + h.usedWith [] ≤ h.capacity) :
    (step ctx (nestedEval ctx (b + 1)) budget .expr e h).Peaks h.rootSlots
    (h.roots.size + 2) fun st l => ∃ c k,
      st = .done c ∧ k.object? c = some (.closure h.currentEnv params body) ∧ h.Adds [] [c] k ∧
      k.roots = h.roots ∧
      k.Prepends h.currentEnv f c l := by
  have hdf : h.object? f = some (.symbol name) := (hw.table _ _ hsym).2
  have hcur : h.Reachable [] h.currentEnv := .anchor .current
  have hrest : h.Reachable [] rest := (hr.tail hd).tail hd'
  have hrp : h.Reachable [] procedure := (hrow.reachable hrest).2.1 procedure List.mem_cons_self
  have hframe : h.IsFrame h.currentEnv := by
    obtain ⟨p, names, values, hf, -⟩ := hl
    exact ⟨p, names, values, hf⟩
  rw [← Nat.max_zero (h.roots.size + 2), step, Step.ofExpr]
  refine peaks_bind_of_ok (datum_apply hd) ?_
  dsimp only
  rw [hdef, Form.definition]
  refine peaks_bind_of_ok (asPair_apply hd') ?_
  refine peaks_bind_of_ok (asPair_apply hdf) ?_
  change ((Form.variableDefinition (nestedEval ctx (b + 1)) f rest) h).Peaks _ _ _
  rw [Form.variableDefinition]
  refine peaks_bind_of_ok (hasType_apply hdf .symbol) ?_
  rw [if_pos (show ((Datum.symbol name).type == DatumType.symbol) = true from rfl)]
  refine peaks_bind_of_ok (items?_of_row hs hrow) ?_
  refine peaks_bind (lambda_peaks (b := b) hw hs hframe hkw hp hrp (by omega)) fun c k hk => ?_
  obtain ⟨hc, hk, hroots⟩ := hk
  -- there is room for two pairs beside the closure
  have hused : k.usedWith [h.currentEnv, c] ≤ h.usedWith [] + [c].length :=
    hk.usedWith_le (by simp [hcur])
  have hcapk := hk.capacity
  have hslots := hk.rootSlots
  rw [List.length_singleton] at hused
  obtain ⟨l, hrun, hpre⟩ := (hl.saved hk.toSaves hcur).exists_define (v := c) hk.wellFormed
    (hk.symbols _ _ hsym)
    (hk.held c List.mem_cons_self) (by rw [hroots]; omega) (by omega)
  refine peaks_of_ok (a := .done c) (k := l) ?_ ⟨c, k, rfl, hc, hk, hroots, hpre⟩
  rw [← hk.currentEnv] at hrun
  rw [Form.bindHere, bind_of_ok
    (show (HeapM.currentEnv : EvalM Handle) k = .ok k.currentEnv k from rfl), bind_of_ok hrun]
  rfl

/-- What can be reached with fewer root slots can be reached. -/
lemma Reachable.of_fewer {extra : List Handle} {roots : Array Handle}
    (hr : ({ h with roots } : Heap).Reachable extra v)
    (hroots : ∀ u ∈ roots.toList, u ∈ h.roots.toList) :
    h.Reachable extra v :=
  hr.transport (k := h) rfl rfl rfl rfl (fun u hu => .anchor (.root (hroots u hu)))
    fun _ _ hd hu _ hc => .child hu hd hc

/-- Slots that are given up do not matter for a binding. -/
lemma Prepends.setRoots {roots : Array Handle} (hp : h.Prepends env symbol v k)
    (hr : ∀ u ∈ roots.toList, u ∈ h.roots.toList) :
    ({ h with roots } : Heap).Prepends env symbol v { k with roots } := by
  obtain ⟨hw, hframe, ⟨p, names, values, c, c', hd, hd', hc, hc', hne, hnew⟩, hkept⟩ := hp
  refine ⟨hw.setRoots fun u hu => hw.root u (hframe.roots ▸ hr u hu),
    { hframe with roots := rfl }, ⟨p, names, values, c, c', hd, hd', hc, hc', hne, fun u hu => ?_⟩,
    fun u hu hue => ?_⟩
  · exact ⟨(hnew u hu).1, fun hreach => (hnew u hu).2 (hreach.of_fewer hr)⟩
  · exact hkept u (hu.of_fewer hr) hue

/-- The definition evaluated as a part of something else. -/
lemma nested_definition_peaks (hw : h.WellFormed) (hs : h.HasSentinels)
    (hl : h.Lacks h.currentEnv f) (hdef : ∀ nested budget operands,
      Step.ofPair ctx nested budget ctx.keywords.definition operands =
      Form.definition nested operands)
    (hkw : ∀ nested budget operands, Step.ofPair ctx nested budget ctx.keywords.lambda operands =
      Form.lambda operands)
    (hd : h.object? e = some (.pair ctx.keywords.definition operands))
    (hd' : h.object? operands = some (.pair f rest))
    (hrow : h.Row .emptyList [procedure] [rest] rest)
    (hp : h.IsLambda ctx.keywords procedure params body)
    (hr : h.Reachable [] e) (hsym : h.findSymbol name = some f)
    (hroom : h.roots.size + 5 ≤ h.rootSlots) (hcap : 3 + h.usedWith [] ≤ h.capacity) :
    (nestedEval ctx (b + 2) e h).Peaks h.rootSlots (h.roots.size + 4) fun c l => ∃ k,
      k.object? c = some (.closure h.currentEnv params body) ∧ h.Adds [] [c] k ∧ k.roots = h.roots ∧
      k.Prepends h.currentEnv f c l := by
  have hadd := Adds.activate hw hr
  set k : Heap := { h with roots := (h.roots.push h.currentEnv).push e } with hkdef
  have hsize : k.roots.size = h.roots.size + 2 := by simp [hkdef]
  have hslots : k.rootSlots = h.rootSlots := rfl
  have hkcap : k.capacity = h.capacity := rfl
  have hused : k.usedWith [] ≤ h.usedWith [] := hadd.usedWith_le (by simp)
  have hslot : k.roots[h.roots.size + 1]? = some e := getElem?_push_push _ _ _
  have hpk : k.IsLambda ctx.keywords procedure params body := hp.congr fun _ => rfl
  have hlk : k.Lacks k.currentEnv f := hl.saved hadd.toSaves (.anchor .current)
  have hdepth : h.roots.size + 4 = max (h.roots.size + 2) (k.roots.size + 2) := by omega
  rw [hdepth]
  refine peaks_nestedEval rfl (peaks_loop_done hslot
    ((definition_step_peaks (b := b) hadd.wellFormed hs hlk hdef hkw hd
    hd' (hrow.congr fun _ _ => rfl) hpk (hadd.toSaves.reachable (by simp) hr) hsym (by omega)
    (by omega)).mono
    fun st l hl => ?_))
  obtain ⟨c, m, rfl, hc, hm, hroots, hpre⟩ := hl
  have hlroots : l.roots = (h.roots.push h.currentEnv).push e := hpre.frame.roots.trans hroots
  have hlcur : l.currentEnv = h.currentEnv := hpre.frame.currentEnv.trans hm.currentEnv
  have hpop : l.roots.pop.pop = h.roots := by rw [hlroots, Array.pop_push, Array.pop_push]
  have hsame : ({ l with roots := h.roots, currentEnv := h.currentEnv } : Heap) =
      { l with roots := h.roots } := by
    rw [← hlcur]
  refine ⟨c, rfl, by simp [hlroots], ?_, { m with roots := h.roots }, hc, ?_, rfl, ?_⟩
  · obtain ⟨p, _, _, _, _, -, hframe, -⟩ := hpre.binding
    exact ⟨p, _, _, hframe⟩
  · exact (hadd.trans hm (by simp) (by simp) (by simp)).dropRoots
  · rw [hpop, hsame]
    refine hpre.setRoots fun u hu => ?_
    rw [hroots, hkdef]
    simp [Array.mem_toList_iff.mp hu]

/-! ## Symbols -/

/-- The value of a symbol that the current frame binds. -/
lemma nestedEval_symbol {names values : Handle} {parent : Option Handle} {l : Bindings}
    (hw : k.WellFormed) (hn : k.object? symbol = some (.symbol name))
    (hf : k.object? k.currentEnv = some (.frame parent names values)) (hz : k.Zips names values l)
    (hl : l.lookup symbol = some v) (hroom : k.roots.size + 2 ≤ k.rootSlots) :
    Evaluator.nestedEval ctx (b + 1) symbol k = .ok v k := by
  set m : Heap := { k with roots := (k.roots.push k.currentEnv).push symbol } with hm
  have hslot : m.roots[k.roots.size + 1]? = some symbol := getElem?_push_push _ _ _
  have hwm : m.WellFormed := (hw.push hw.current).push (isLive_of_object? hn)
  have hzm : m.Zips names values l := hz.congr (fun _ _ => rfl) fun _ _ => rfl
  have hfind : (find? k.currentEnv symbol : EvalM (Option Handle)) m = .ok (some v) m := by
    rcases hzm.search hwm.toClosed hf symbol with ⟨-, hno⟩ | ⟨slot, x, rest, hfind, hp, hx⟩
    · rw [hl] at hno
      cases hno
    · obtain rfl := Option.some.inj (hl.symm.trans hx)
      have hnear : m.nearestSlot k.currentEnv symbol = .ok (some slot) :=
        (Finds.here (h := m) hf hfind).nearestSlot_eq
      simp only [HeapM.find?, bind_apply, inspect, hnear]
      exact bind_of_ok (car_apply hp)
  have hstep : Evaluator.step ctx (Evaluator.nestedEval ctx b) b .expr symbol m =
      .ok (.done v) m := by
    rw [Evaluator.step, Step.ofExpr, bind_of_ok (datum_apply (h := m) hn)]
    dsimp only
    rw [bind_of_ok (show (HeapM.currentEnv : EvalM Handle) m = .ok k.currentEnv m from rfl),
      HeapM.lookup, bind_assoc, bind_of_ok hfind]
    rfl
  have hpeaks : (Evaluator.nestedEval ctx (b + 1) symbol k).Peaks k.rootSlots
    (max (k.roots.size + 2) 0)
      fun w z => w = v ∧ z = k := by
    refine peaks_nestedEval rfl (peaks_loop_done hslot
      (peaks_of_ok hstep ⟨v, rfl, by simp [hm], ⟨_, _, _, hf⟩, rfl, ?_⟩))
    simp [hm]
  obtain ⟨_, _, hrun, rfl, rfl⟩ := hpeaks.exists_ok (by omega)
  exact hrun

end Heap

end ArenaScheme
