/-
# Calls in bounded room

A call of a built-in procedure is over when its value is there, and leaves the list of the operands
to the collector.  A call of a closure leaves a frame and the body to be evaluated, but no root
slot: the values are held by the frame, and the frame by being the current one.
-/
import ArenaScheme.Proofs.Tails.Operands

namespace ArenaScheme

open Heap HeapM

namespace Heap

variable {h k l m : Heap} {extra made new base more hand vs es cells spine : List Handle}
  {u v w e p env params body call args operator operands : Handle} {d d' : Datum} {r : Worth}
  {rs qs : List Worth} {ctx : Context} {up cost n budget : Nat} {b : Builtin}

/-! ## Giving up what has been made -/

/-- Giving up the root slots that have come since `k`. -/
lemma Adds.dropTo (ha : h.Adds [] made l) (hs : k.Saves [] l) (hd : h.roots.size ≤ k.roots.size) :
    h.Adds [] made { l with roots := k.roots } := by
  refine ha.setRoots hs.dropRoots.wellFormed hd
    (fun i hi => (hs.below i (by omega)).symm) fun i v hi hv => ?_
  have hlt := (Array.getElem?_eq_some_iff.mp hv).1
  exact ha.above i v hi ((hs.below i hlt).trans hv)

/-- The roots being as they were, only the value has come into use. -/
lemma Retains.restore (more : List Handle) (hk : h.Retains base [] k)
    (ha : h.Adds [] (new ++ (more ++ base)) l) (hroots : l.roots = k.roots) (hs : k.Saves [] l)
    (hnew : h.Adopts new v l) :
    h.Retains (new ++ base) [v] l := by
  have hbase : ∀ {u}, u ∈ base → l.object? u = k.object? u := fun hu => hs.kept _ (hk.within _ hu)
  refine ⟨ha.restrict ((List.Sublist.refl new).append (List.sublist_append_right more base))
    (fun i w hi hw => ?_)
    fun u hu d hd c hc => ?_, fun u hu => ?_⟩
  · rw [hroots] at hw
    exact (hk.above i w hi hw).imp_right (List.mem_append_right new)
  · rcases List.mem_append.mp hu with hu | hu
    · rcases hnew with ⟨rfl, -⟩ | ⟨rfl, d', hd', hc'⟩
      · cases hu
      · obtain rfl := List.mem_singleton.mp hu
        obtain rfl := Option.some.inj (hd'.symm.trans hd)
        rw [hc'] at hc
        cases hc
    · rw [hbase hu] at hd
      exact (hk.closed u hu d hd c hc).imp_right (List.mem_append_right new)
  · rcases List.mem_append.mp hu with hu | hu
    · rcases hnew with ⟨rfl, -⟩ | ⟨rfl, -⟩
      · cases hu
      · obtain rfl := List.mem_singleton.mp hu
        exact .of_extra List.mem_cons_self
    · exact .of_nil (hs.reachable (by simp) (hk.within u hu))

/-- An expression that is evaluated in one turn. -/
lemma supplies_of_step (hr : h.Reachable [] e) (hf : h.IsFrame h.currentEnv)
    (hstep : ∀ base k, h.Retains base [] k → base.length + cost + h.usedWith [] ≤ h.capacity →
      (Step.ofExpr ctx (Evaluator.nestedEval ctx n) n e k).Peaks h.rootSlots (k.roots.size + up)
        fun st l => ∃ v, st = .done v ∧ h.Supplied k base cost r v l) :
    h.Supplies (Evaluator.nestedEval ctx (n + 1)) (up + 2) cost e r := by
  intro base k hk hcap
  have hcur : h.Reachable [] k.currentEnv := hk.currentEnv ▸ .anchor .current
  have hke : k.isLive e = true := hk.toSaves.isLive hr
  have hk1 := hk.hold.push (v := k.currentEnv) (.inl hcur)
  have hk2 := hk1.hold.push (v := e) (.inl hr)
  have hs : k.Saves [] { k with roots := (k.roots.push k.currentEnv).push e } :=
    ((Saves.refl hk.wellFormed (by simp)).push hk.wellFormed.current).push hke
  have hslot : ((k.roots.push k.currentEnv).push e)[k.roots.size + 1]? = some e :=
    getElem?_push_push _ _ _
  have hdepth : k.roots.size + (up + 2) = max (k.roots.size + 2) (k.roots.size + 2 + up) := by omega
  rw [hdepth]
  refine peaks_nestedEval hk.rootSlots (peaks_loop_done hslot ?_)
  have hsize : ((k.roots.push k.currentEnv).push e).size = k.roots.size + 2 := by simp
  rw [← hsize]
  refine (hstep base _ hk2 hcap).mono fun st l hl => ?_
  obtain ⟨v, rfl, ⟨new, hlen, hl, hnew⟩, hroots, hsl, hworth⟩ := hl
  dsimp only at hroots
  have hkl : k.Saves [] l := hs.trans hsl (by simp)
  have hpop : l.roots.pop.pop = k.roots := by rw [hroots, Array.pop_push, Array.pop_push]
  have hdrop := hl.toAdds.dropTo hkl hk.depth
  refine ⟨v, rfl, by rw [hroots, hsize], ?_, ?_⟩
  · obtain ⟨p, names, values, hd⟩ := hf
    refine ⟨p, names, values, (hkl.kept _ (.anchor .current)).trans ?_⟩
    rw [hk.currentEnv]
    exact (hk.kept _ (.anchor .current)).trans hd
  · rw [hpop, ← hkl.currentEnv]
    exact ⟨⟨new, hlen, hk.restore [] hdrop rfl hkl.dropRoots hnew, hnew⟩, rfl,
      hkl.dropRoots, hworth⟩

/-! ## Built-in procedures -/

/-- On arguments that are worth `qs` the procedure comes to an object worth `r`, which is no
error. -/
def Computes (h : Heap) (b : Builtin) (qs : List Worth) (r : Worth) : Prop :=
  ∀ made k args vs cells, h.Retains made [] k → made.length + h.usedWith [] < h.capacity →
    k.Row .emptyList vs cells args → List.Forall₂ k.IsWorth qs vs →
    ∃ v l, b.call args k = .ok v l ∧ h.Supplied k made 1 r v l ∧
      ∃ d, l.object? v = some d ∧ d.type ≠ .error

/-- The objects of integers are numbers. -/
lemma numbers_apply {least : Nat} {ns : List Int64} (hs : k.HasSentinels)
    (hrow : k.Row .emptyList vs cells args) (hv : List.Forall₂ k.IsWorth (ns.map .int) vs)
    (hl : least ≤ ns.length) :
    b.numbers least args k = .ok (ns.map .int) k := by
  replace hv : List.Forall₂ (fun n v => k.object? v = some (.int n)) ns vs :=
    List.forall₂_map_left_iff.mp hv
  have hargs : (Builtin.arguments args : EvalM (List Handle)) k = .ok vs k := by
    rw [Builtin.arguments, bind_of_ok (items?_of_row hs hrow)]
    rfl
  have herrors : Builtin.passErrors vs k = .ok () k := by
    clear hrow hargs hl
    induction hv with
    | nil => rfl
    | cons hw _ ih =>
      rw [Builtin.passErrors, List.forM_eq_forM, List.forM_cons, ← List.forM_eq_forM, bind_assoc,
        bind_of_ok (hasType_apply hw .error)]
      exact ih
  have hmany : b.manyArguments least args k = .ok vs k := by
    rw [Builtin.manyArguments, bind_of_ok hargs, if_neg (by rw [← hv.length_eq]; omega),
      bind_of_ok herrors]
    rfl
  rw [Builtin.numbers, bind_of_ok hmany]
  clear hrow hargs hl herrors hmany
  induction hv with
  | nil => rfl
  | @cons n v ns vs hw _ ih =>
    have hnum : b.numberArgument v k = .ok (.int n) k := by
      rw [Builtin.numberArgument, bind_of_ok (datum_apply hw)]
      rfl
    rw [List.mapM_cons, bind_of_ok hnum, bind_of_ok ih]
    rfl

/-- Comparing makes nothing. -/
lemma computes_compare (relation : Comparison) (ns : List Int64) (hs : h.HasSentinels)
    (hl : 1 ≤ ns.length) :
    h.Computes (.compare relation) (ns.map .int)
      (.old (.ofBool (relation.holds (ns.map .int)))) := by
  intro made k args vs cells hk _ hrow hv
  have hrun : (Builtin.compare relation).call args k =
      .ok (.ofBool (relation.holds (ns.map .int))) k := by
    change ((Builtin.compare relation).numbers 1 args >>= fun xs => pure
      (Handle.ofBool (relation.holds xs))) k = _
    rw [bind_of_ok (numbers_apply (hk.hasSentinels hs) hrow hv hl)]
    rfl
  have hlt := index_ofBool (relation.holds (ns.map .int))
  refine ⟨_, k, hrun, ⟨⟨[], by simp, hk.hold, .inl ⟨rfl, .sentinel hlt⟩⟩, rfl,
    .refl hk.wellFormed (by simp), rfl⟩, .bool (relation.holds (ns.map .int)), ?_,
      by simp [Datum.type]⟩
  rw [hk.hasSentinels hs _ hlt]
  cases relation.holds (ns.map .int) <;> rfl

/-- Adding makes the sum. -/
lemma computes_add (ns : List Int64) (hs : h.HasSentinels) {sum : Int64}
    (hsum : Num.sum (ns.map .int) = .ok (.int sum)) : h.Computes .add (ns.map .int) (.int sum) := by
  intro made k args vs cells hk hcap hrow hv
  obtain ⟨v, l, hrun, hl, hd, hroots, hkl⟩ :=
    hk.alloc (d := .int sum) rfl (by simp [Datum.children])
    (by simp) hcap
  refine ⟨v, l, ?_, ⟨⟨[v], by simp, hl, .inr ⟨rfl, _, hd, rfl⟩⟩, hroots, hkl.toSaves, hd⟩, _, hd,
    by simp [Datum.type]⟩
  change (Builtin.add.numbers 0 args >>= fun xs => Builtin.add.makeNumber (Num.sum xs)) k = _
  rw [bind_of_ok (numbers_apply (hk.hasSentinels hs) hrow hv (Nat.zero_le _)), hsum]
  exact hrun

/-! ## Combinations -/

/-- A combination: an operator that is no keyword, and a list of operands. -/
structure Combines (h : Heap) (ctx : Context) (e operator : Handle) (es : List Handle) : Prop where
  parts : ∃ operands spine, h.object? e = some (.pair operator operands) ∧
    h.Row .emptyList es spine operands
  form : ∀ nested budget operands, Step.ofPair ctx nested budget operator operands =
    Application.ofCombination ctx.host nested budget operator operands
  reachable : h.Reachable [] e

/-- A combination whose operator has a value: the list of all values, and then the call. -/
lemma Combines.step_peaks {depth : Nat} {P : Step → Heap → Prop} (hc : h.Combines ctx e operator es)
    (hk : h.Retains base [] k) (hs : h.HasSentinels)
    (hop : h.Supplies (Evaluator.nestedEval ctx n) 2 0 operator (.old p)) (hp : h.Reachable [] p)
    (hne : es ≠ [])
    (hes : List.Forall₂ (h.Supplies (Evaluator.nestedEval ctx n) up cost) es qs) (hup : 0 < up)
    (hb : es.length < budget)
    (hcap : base.length + 1 + es.length * (cost + 1) + h.usedWith [] ≤ h.capacity)
    (hcall : ∀ more call args vs cells l, more.length ≤ 1 + es.length * (cost + 1) →
      h.Retains (more ++ base) [] { l with roots := l.roots.push call } → l.roots = k.roots →
      k.Saves [] l →
      call ∈ more ++ base → l.object? call = some (.pair p args) → l.Row .emptyList vs cells args →
      List.Forall₂ l.IsWorth qs vs →
      (Application.apply ctx.host p args { l with roots := l.roots.push call }).Peaks
        h.rootSlots depth
        fun st m => m.roots.size = l.roots.size + 1 ∧ P st { m with roots := m.roots.pop }) :
    (Step.ofExpr ctx (Evaluator.nestedEval ctx n) budget e k).Peaks h.rootSlots
      (max (k.roots.size + 1 + up) depth) P := by
  obtain ⟨operands, spine, hd, hops⟩ := hc.parts
  have hdepth : max (k.roots.size + 1 + up) depth =
      max (k.roots.size + 1 + up) (max (k.roots.size + 1) depth) := by omega
  rw [Step.ofExpr, hdepth]
  refine peaks_bind_of_ok (datum_apply ((hk.kept e hc.reachable).trans hd)) ?_
  dsimp only
  rw [hc.form, Application.ofCombination]
  refine peaks_bind (evalCombination_peaks hk hs hop hp hops
    (hc.reachable.tail hd) hne hes hup hb hcap)
    fun call l hl => ?_
  obtain ⟨more, args, vs, cells, hmore, hmem, hl, hroots, hkl, hpair, hrow, hworths⟩ := hl
  rw [← hroots]
  refine peaks_rooted hl.rootSlots ?_
  refine peaks_bind_of_ok
    (pairParts_apply (h := { l with roots := l.roots.push call }) (v := call) (x := p)
    (c := args) (pairAt_eq_some.mpr hpair)) ?_
  exact hcall more call args vs cells l hmore
    (hl.push (.inr hmem)) hroots hkl hmem hpair hrow hworths

/-- Calling a built-in procedure. -/
lemma Combines.supplies {name : String} (hc : h.Combines ctx e operator es) (hs : h.HasSentinels)
    (hf : h.IsFrame h.currentEnv)
    (hop : h.Supplies (Evaluator.nestedEval ctx n) 2 0 operator (.old p)) (hp : h.Reachable [] p)
    (hd : h.object? p = some (.foreign name (.builtin b))) (hne : es ≠ [])
    (hes : List.Forall₂ (h.Supplies (Evaluator.nestedEval ctx n) up cost) es qs) (hup : 0 < up)
    (hb : es.length < n) (hcompute : h.Computes b qs r) :
    h.Supplies (Evaluator.nestedEval ctx (n + 1)) (up + 3) (2 + es.length * (cost + 1)) e r := by
  refine supplies_of_step hc.reachable hf fun base k hk hcap => ?_
  have hdepth : k.roots.size + (up + 1) = max (k.roots.size + 1 + up) 0 := by omega
  rw [hdepth]
  refine hc.step_peaks hk hs hop hp hne hes hup hb (by omega)
    fun more call args vs cells l hmore hl hroots hkl hmem hpair hrow hworths => ?_
  obtain ⟨v, m, hrun, ⟨⟨new, hlen, hm, hnew⟩, hmroots, hlm, hworth⟩, d, hmd, ht⟩ :=
    hcompute (more ++ base) { l with roots := l.roots.push call } args vs cells hl
      (by rw [List.length_append]; omega) (hrow.congr fun _ _ => rfl)
      (forall₂_isWorth_congr hworths fun _ _ _ hn => hn)
  have hdp : ({ l with roots := l.roots.push call } : Heap).object? p =
    some (.foreign name (.builtin b)) :=
    (hl.kept p hp).trans hd
  have hnative : (recover (Application.callNative ctx.host (.builtin b) args) id : EvalM Handle)
      { l with roots := l.roots.push call } = .ok v m := by
    rw [recover, Application.callNative, hrun]
  have hstep : Application.apply ctx.host p args { l with roots := l.roots.push call } =
      .ok (.done v) m := by
    rw [Application.apply, bind_of_ok (datum_apply hdp)]
    dsimp only
    rw [Application.applyForeign, bind_of_ok hnative,
      bind_of_ok (hasType_apply hmd .error), beq_eq_false_iff_ne.mpr ht]
    rfl
  dsimp only at hmroots
  have hpop : m.roots.pop = k.roots := by rw [hmroots, Array.pop_push, hroots]
  have hkm : k.Saves [] m := (hkl.push (hl.isLive (.inr hmem))).trans hlm (by simp)
  refine peaks_of_ok hstep ⟨by rw [hmroots, Array.size_push], v, rfl, ?_⟩
  rw [hpop]
  have hdrop := hm.toAdds.dropTo hkm hk.depth
  exact ⟨⟨new, by omega, hk.restore more hdrop rfl hkm.dropRoots hnew, hnew⟩, rfl,
    hkm.dropRoots, hworth⟩

/-! ## Closures -/

/-- A call has been entered: in the new frame the parameters are bound to objects worth `rs`.  What
can be reached from `env` is as it was, and so is the root stack. -/
structure Entered (h : Heap) (env params : Handle) (rs : List Worth) (l : Heap) : Prop where
  saves : ({ h with currentEnv := env } : Heap).Saves [] { l with currentEnv := env }
  size_eq : l.cells.size = h.cells.size
  roots : l.roots = h.roots
  frame : ∃ args vs cells, l.object? l.currentEnv = some (.frame (some env) params args) ∧
    l.Row .emptyList vs cells args ∧ List.Forall₂ l.IsWorth rs vs

/-- A new frame is made while the names and the values are held. -/
lemma pushFrame_peaks {names values : Handle} (hk : h.Retains made [] k) (hf : h.IsFrame env)
    (he : h.Reachable [] env) (hn : h.Reachable [] names ∨ names ∈ made)
    (hv : h.Reachable [] values ∨ values ∈ made) (hcap : made.length + h.usedWith [] < h.capacity) :
    ((rooted names fun _ => rooted values fun _ => do
        setCurrentEnv env
        let _ ← pushFrame names values : EvalM Unit) k).Peaks h.rootSlots (k.roots.size + 2)
      fun _ x => ∃ l c, x = { l with roots := k.roots, currentEnv := c } ∧
        l.object? c = some (.frame (some env) names values) ∧ l.cells.size = h.cells.size ∧
        ({ h with currentEnv := env } : Heap).Saves [] l ∧
        ∀ u, ({ k with currentEnv := env } : Heap).Reachable [names, values] u →
          l.object? u = k.object? u := by
  have hk2 := (hk.hold.push hn).hold.push hv
  have hdepth : k.roots.size + 2 = max (k.roots.size + 1) (max (k.roots.size + 1 + 1) 0) := by omega
  rw [hdepth]
  refine peaks_rooted hk.rootSlots ?_
  have hsize : (k.roots.push names).size = k.roots.size + 1 := Array.size_push _
  rw [← hsize]
  refine peaks_rooted (h := { k with roots := k.roots.push names }) hk.rootSlots ?_
  -- the heap in which the frame is made
  set m : Heap := { k with roots := (k.roots.push names).push values, currentEnv := env } with hm
  have hset : (HeapM.setCurrentEnv env : EvalM Unit)
      { k with roots := (k.roots.push names).push values } = .ok () m := by
    obtain ⟨p, ns, ws, hd⟩ := hf
    exact setCurrentEnv_frame ((hk.kept env he).trans hd)
  have hsaves : ({ h with currentEnv := env } : Heap).Saves [] m := hk2.toSaves.switch he
  have hx : ∀ v ∈ (Datum.frame (some env) names values).children, h.Reachable [] v ∨ v ∈ made := by
    simp [Datum.children, he, hn, hv]
  rcases alloc_adds (d := .frame (some env) names values) hsaves.wellFormed rfl
      (fun v hv => hk2.isLive (hx v hv)) with ⟨c, l, hrun, ha, hd, hr⟩ | ⟨l, -, -, -, hfull⟩
  · have hbody : (do
          setCurrentEnv env
          let _ ← pushFrame names values : EvalM Unit)
            { k with roots := (k.roots.push names).push values } =
        .ok () { l with currentEnv := c } := by
      rw [bind_of_ok hset, pushFrame, bind_assoc,
        bind_of_ok (show (HeapM.currentEnv : EvalM Handle) m =
        .ok env m from rfl), bind_assoc, makeFrame, bind_of_ok hrun]
      rfl
    refine peaks_of_ok hbody ⟨by simp [hr, hm], by simp [hr, hm], l, c, by simp [hr, hm], hd, ?_,
      hsaves.trans ha.toSaves (by simp), fun u hu => ?_⟩
    · exact ha.size_eq.trans hk.size_eq
    · have hroots : ∀ w ∈ k.roots.toList, m.Reachable [names, values] w := fun w hw =>
        .anchor (.root (by simp [hm, hw]))
      have hpushed : m.Reachable [names, values] u :=
        hu.transport (k := m) rfl rfl rfl rfl hroots fun w d hd hw c hc => .child hw hd hc
      refine ha.kept u (hpushed.mono fun w hw => .of_extra ?_)
      rcases List.mem_pair.mp hw with rfl | rfl <;> simp [Datum.children]
  · have hle := hk2.toAdds.capacity_le hx fun i hi =>
      reachable_of_switch (.of_extra (by simp [Datum.children])) (hfull i hi)
    omega

/-- Calling a closure. -/
lemma Combines.enter_peaks {ns : List Handle} {pc : List Handle} (hc : h.Combines ctx e operator es)
    (hw : h.WellFormed) (hs : h.HasSentinels)
    (hop : h.Supplies (Evaluator.nestedEval ctx n) 2 0 operator (.old p)) (hp : h.Reachable [] p)
    (hd : h.object? p = some (.closure env params body)) (hparams : h.Row .emptyList ns pc params)
    (hlen : ns.length = es.length) (hf : h.IsFrame env) (hne : es ≠ [])
    (hes : List.Forall₂ (h.Supplies (Evaluator.nestedEval ctx n) up cost) es qs) (hup : 2 ≤ up)
    (hb : es.length < budget) (hcap : 1 + es.length * (cost + 1) + h.usedWith [] < h.capacity) :
    (Step.ofExpr ctx (Evaluator.nestedEval ctx n) budget e h).Peaks h.rootSlots
    (h.roots.size + 1 + up)
      fun st l => st = .body body ∧ h.Entered env params qs l := by
  have hdepth : h.roots.size + 1 + up = max (h.roots.size + 1 + up) (h.roots.size + 3) := by omega
  rw [hdepth]
  refine hc.step_peaks (Retains.refl hw) hs hop hp hne hes (by omega) hb (by simpa using hcap.le)
    fun more call args vs cells l hmore hl hroots hkl hmem hpair hrow hworths => ?_
  rw [List.append_nil] at hl hmem
  set k : Heap := { l with roots := l.roots.push call } with hkdef
  have hks : k.HasSentinels := hl.hasSentinels hs
  have hdp : k.object? p = some (.closure env params body) := (hl.kept p hp).trans hd
  have henv : h.Reachable [] env := .child hp hd (by simp [Datum.children])
  have hpar : h.Reachable [] params := .child hp hd (by simp [Datum.children])
  have hparams' : k.Row .emptyList ns pc params := hparams.saved hl.toSaves hpar
  have hrow' : k.Row .emptyList vs cells args := hrow.congr fun _ _ => rfl
  have hvs : vs.length = es.length := by rw [← hworths.length_eq, hes.length_eq]
  have hlength : ∀ {ws : List Handle} {cs v}, k.Row .emptyList ws cs v →
      (length? v : EvalM (Option Nat)) k = .ok (some ws.length) k := fun hr => by
    rw [length?, bind_of_ok (items?_of_row hks hr)]
    rfl
  have hbind : (Application.bindParameters params args : EvalM (Handle × Handle)) k =
      .ok (params, args) k := by
    rw [Application.bindParameters, bind_of_ok (hlength hrow'), bind_of_ok (hlength hparams')]
    simp only [Option.getD_some]
    rw [if_pos (hlen.trans hvs.symm)]
    rfl
  have hargs : h.Reachable [] args ∨ args ∈ more :=
    hl.closed call hmem _ hpair args (by simp [Datum.children])
  refine peaks_bind_of_ok (datum_apply hdp) ?_
  dsimp only
  rw [Application.applyClosure]
  refine peaks_bind_of_ok hbind ?_
  have hsize : h.roots.size + 3 = max (k.roots.size + 2) 0 := by
    rw [hkdef, Array.size_push, hroots]; omega
  rw [hsize]
  refine peaks_bind (pushFrame_peaks hl hf henv (.inl hpar) hargs (by omega)) fun _ x hx => ?_
  obtain ⟨m, c, rfl, hc, hms, hsm, hkept⟩ := hx
  have hpop : k.roots.pop = h.roots := by rw [hkdef, Array.pop_push, hroots]
  have hreach : ({ k with currentEnv := env } : Heap).Reachable [params, args] args :=
    .of_extra (by simp)
  have hrow'' : ({ k with currentEnv := env } : Heap).Row .emptyList vs cells args :=
    hrow.congr fun _ _ => rfl
  obtain ⟨hcells, hvals, -⟩ := hrow''.reachable hreach
  refine peaks_of_ok rfl ⟨by rw [hkdef, Array.size_push], rfl, ?_, hms, hpop, args, vs,
    cells, hc, ?_, ?_⟩
  · have hdrop := hsm.dropRoots
    have hcurrent : m.currentEnv = env := hsm.currentEnv
    have hsame : ({ m with roots := h.roots, currentEnv := env } : Heap) =
        { m with roots := h.roots } := by
      rw [← hcurrent]
    dsimp only at hdrop ⊢
    rw [hpop, hsame]
    exact hdrop
  · exact hrow'.congr fun u hu => hkept u (hcells u hu)
  · exact forall₂_isWorth_congr hworths fun v hv n hn => (hkept v (hvals v hv)).trans hn

end Heap

end ArenaScheme
