/-
# From a `let` form to its call

In the first turn a `let` form is expanded.  If it has no name, then its call takes its place at
once.  Otherwise the call of a procedure without parameters does, whose body is a definition and the
call of what it defines: so in the second turn a new frame is made, and in the third one the name is
bound there.  After that its call is in the slot, too.

Each of the turns is described by what is left after it.  The pairs of the expansion are given up
one after the other; the operands of the call, the names and the body are there until the end.
-/
import ArenaScheme.Proofs.Scopes.Carrying
import ArenaScheme.Proofs.Tails.Operands

namespace ArenaScheme

open Heap HeapM Let

namespace Let.Form

variable {kw : Keywords} {form : Form} {u : Handle}

/-- How many turns it takes until the call of the form is in the slot. -/
def turns (form : Form) : Nat := if form.name.isSome then 3 else 1

/-- The initial values of the variables. -/
def inits (form : Form) : List Handle := form.bindings.map Prod.snd

/-- The variables. -/
def vars (form : Form) : List Handle := form.bindings.map Prod.fst

/-- The objects of a form that its expansion is made of. -/
def parts (form : Form) : List Handle := form.body :: (form.vars ++ form.inits ++ form.name.toList)

/-- What a form with a name comes to: the name is bound to the procedure, and then this is
called. -/
def sequel (kw : Keywords) (form : Form) (name : Handle) : Built :=
  .list [.list [.same kw.definition, .same name, form.procedure kw],
    .pair (.same name) form.initials]

lemma mem_leaves_procedure : u ∈ (form.procedure kw).leaves ↔
    u ∈ [kw.lambda, .emptyList, form.body] ∨ u ∈ form.vars := by
  simp only [procedure, Built.leaves, Built.leaves_list_same, vars, List.mem_append, List.mem_cons,
    List.not_mem_nil]
  tauto

lemma mem_leaves_initials : u ∈ form.initials.leaves ↔ u ∈ form.inits ∨ u = .emptyList := by
  simp only [initials, Built.leaves_list_same, inits, List.mem_append, List.mem_singleton]

lemma mem_leaves_sequel {name : Handle} : u ∈ (form.sequel kw name).leaves ↔
    u ∈ [kw.lambda, .emptyList, form.body] ∨ u ∈ form.vars ∨ u ∈ form.inits ∨ u = kw.definition ∨
    u = name := by
  simp only [sequel, Built.leaves, Built.leaves_list, List.flatMap_cons, List.flatMap_nil,
    List.mem_append, mem_leaves_procedure, mem_leaves_initials, List.mem_cons, List.not_mem_nil]
  grind

lemma mem_leaves : u ∈ (form.expansion kw).leaves ↔
    u ∈ [kw.lambda, .emptyList, form.body] ∨ u ∈ form.vars ∨ u ∈ form.inits ∨
      ∃ name, form.name = some name ∧ (u = kw.definition ∨ u = name) := by
  cases hn : form.name with
  | none =>
    simp only [expansion, hn, Built.leaves, List.mem_append, mem_leaves_procedure,
      mem_leaves_initials, List.mem_cons, List.not_mem_nil, reduceCtorEq, false_and, exists_false]
    grind
  | some name =>
    have hleaves : u ∈ (form.expansion kw).leaves ↔ u ∈ [kw.lambda, .emptyList] ∨
        u ∈ (form.sequel kw name).leaves := by
      simp only [expansion, sequel, hn, Built.leaves, Built.leaves_list, List.flatMap_cons,
        List.flatMap_nil, List.mem_append, List.mem_cons, List.not_mem_nil]
      grind
    simp only [hleaves, mem_leaves_sequel, List.mem_cons, List.not_mem_nil, Option.some.injEq,
      exists_eq_left']
    grind

lemma mem_leaves_of_mem_parts (hu : u ∈ form.parts) : u ∈ (form.expansion kw).leaves := by
  simp only [parts, List.mem_cons, List.mem_append, Option.mem_toList] at hu
  rw [mem_leaves]
  grind

lemma reachable_of_mem_leaves {h : Heap} (hl : h.Reachable [] kw.lambda)
    (hd : h.Reachable [] kw.definition)
    (hu : u ∈ (form.expansion kw).leaves) : h.Reachable form.parts u := by
  have hpart : u = kw.lambda ∨ u = .emptyList ∨ u = kw.definition ∨ u ∈ form.parts := by
    simp only [parts, List.mem_cons, List.mem_append, Option.mem_toList]
    rw [mem_leaves] at hu
    grind
  rcases hpart with rfl | rfl | rfl | hu
  exacts [.of_nil hl, .sentinel (by decide), .of_nil hd, .of_extra hu]

end Let.Form

namespace Heap

variable {h k l m z : Heap} {cells : List Handle} {expr operands u v w p q seq : Handle}
  {form : Form} {kw : Keywords} {ctx : Context} {n b : Nat}

/-! ## The parts of a form -/

lemma AreBindings.isSymbol {bindings : List (Handle × Handle)} (hbs : h.AreBindings v bindings) :
    ∀ binding ∈ bindings, h.IsSymbol binding.1 := by
  obtain ⟨entries, spine, -, hall⟩ := hbs
  induction hall with
  | nil => simp
  | cons hb _ ih => exact List.forall_mem_cons.mpr ⟨hb.1, ih⟩

lemma Forms.isSymbol (hf : h.Forms operands form) : ∀ v ∈ form.vars, h.IsSymbol v := by
  have hall : ∀ binding ∈ form.bindings, h.IsSymbol binding.1 := by
    cases hf with
    | plain _ _ hbs => exact hbs.isSymbol
    | named _ _ _ _ hbs => exact hbs.isSymbol
  exact List.forall_mem_map.mpr hall

lemma Forms.body (hf : h.Forms operands form) : (h.pairAt form.body).isSome := by
  cases hf with
  | plain _ hb _ => exact hb
  | named _ _ _ hb _ => exact hb

/-- What the expansion refers to can be reached from the form. -/
lemma Forms.reachable_leaves {extra : List Handle} (hf : h.Forms operands form)
    (hr : h.Reachable extra operands) (hl : h.Reachable extra kw.lambda)
    (hd : h.Reachable extra kw.definition) :
    ∀ u ∈ (form.expansion kw).leaves, h.Reachable extra u := by
  have hall : h.Reachable extra form.body ∧
    (∀ b ∈ form.bindings, h.Reachable extra b.1 ∧ h.Reachable extra b.2) ∧
      ∀ name, form.name = some name → h.Reachable extra name := by
    cases hf with
    | plain ho _ hbs =>
      have hp := pairAt_eq_some.mp ho
      exact ⟨hr.tail hp, hbs.reachable (hr.head hp), by simp⟩
    | named ho _ hrest _ hbs =>
      have hp := pairAt_eq_some.mp ho
      have hp' := pairAt_eq_some.mp hrest
      exact ⟨(hr.tail hp).tail hp', hbs.reachable ((hr.tail hp).head hp'),
        by simpa using hr.head hp⟩
  obtain ⟨hbody, hbindings, hname⟩ := hall
  intro u hu
  rcases Form.mem_leaves.mp hu with hu | hu | hu | ⟨name, hn, rfl | rfl⟩
  · simp only [List.mem_cons, List.not_mem_nil, or_false] at hu
    rcases hu with rfl | rfl | rfl
    · exact hl
    · exact .sentinel (by decide)
    · exact hbody
  · obtain ⟨b, hb, rfl⟩ := List.mem_map.mp hu
    exact (hbindings b hb).1
  · obtain ⟨b, hb, rfl⟩ := List.mem_map.mp hu
    exact (hbindings b hb).2
  · exact hd
  · exact hname _ hn

/-- The procedure of the expansion is a `lambda` expression. -/
lemma Shows.isLambda (hs : k.Shows (form.procedure kw) cells v)
    (hsym : ∀ v ∈ form.vars, k.IsSymbol v) (hb : (k.pairAt form.body).isSome) :
    ∃ params names, k.IsLambda kw v params form.body ∧
      k.Row .emptyList form.vars names params ∧ (∀ u ∈ names, u ∈ cells) := by
  cases hs with
  | pair hv hl hrest =>
    cases hl
    cases hrest with
    | @pair _ params _ _ _ names _ hd hparams hbody =>
      cases hbody
      have hrow : k.Row .emptyList form.vars names params := hparams.row
      exact ⟨params, names,
        ⟨⟨_, hv, hd⟩, ⟨form.vars, .emptyList, ⟨names, hrow⟩, hsym, .inl rfl⟩, hb⟩, hrow, by
        simp +contextual⟩

/-! ## Turns -/

/-- What the keywords of the expansion stand for. -/
lemma ofPair_of_nodup (hn : ctx.keywords.heads.Nodup) :
    (∀ nested budget operands, Step.ofPair ctx nested budget ctx.keywords.binding operands =
      (do return .eval (← Let.expand ctx.keywords operands))) ∧
    (∀ nested budget operands, Step.ofPair ctx nested budget ctx.keywords.definition operands =
      Form.definition nested operands) ∧
    ∀ nested budget operands, Step.ofPair ctx nested budget ctx.keywords.lambda operands =
      Form.lambda operands := by
  simp only [Keywords.heads, List.nodup_cons, List.mem_cons, List.not_mem_nil, or_false, not_or]
    at hn
  refine ⟨fun _ _ _ => ?_, fun _ _ _ => ?_, fun _ _ _ => ?_⟩ <;> simp [Step.ofPair, hn, Ne.symm]

end Heap

open Activation

/-- What a step says is to be evaluated takes the place of what has been evaluated. -/
lemma Activation.Leads.step {ctx : Context} {a : Activation} {n : Nat} {focus : Focus}
    (focus' : Focus) {v w : Handle} {roots : Array Handle} {z k : Heap}
    (hz : Leads ctx a ⟨n + 1, ⟨roots.size⟩, focus, z⟩) (hr : z.roots = roots.push v)
    (hs : Evaluator.step ctx (Evaluator.nestedEval ctx (n + 1)) (n + 1) focus v z =
      .ok (focus'.next w) k)
    (hk : k.roots = roots.push v) :
    Leads ctx a ⟨n, ⟨roots.size⟩, focus', { k with roots := roots.push w }⟩ := by
  refine hz.again rfl ?_
  have hv : z.roots[roots.size]? = some v := by rw [hr, Array.getElem?_push_size]
  have hw : (store ⟨roots.size⟩ w : EvalM Unit) k = .ok () { k with roots := roots.push w } := by
    rw [store_apply (by rw [hk, Array.size_push]; omega), hk, setIfInBounds_push]
  rw [Activation.turn, Evaluator.turn]
  refine (bind_of_ok (contents_apply hv)).trans ((bind_of_ok hs).trans ?_)
  cases focus' <;> exact bind_of_ok hw

namespace Heap

variable {h k l m z : Heap} {cells : List Handle} {expr operands u v w p q seq : Handle}
  {form : Form} {kw : Keywords} {ctx : Context} {n b : Nat}

/-- The form is expanded. -/
lemma exists_expand (hw : h.WellFormed) (hs : h.HasSentinels)
    (he : h.object? expr = some (.pair kw.binding operands)) (hf : h.Forms operands form)
    (hl : h.Reachable [] kw.lambda) (hd : h.Reachable [] kw.definition)
    (hroom : h.roots.size + 1 + form.slots ≤ h.rootSlots)
    (hcap : (form.expansion kw).pairs + h.usedWith [expr] ≤ h.capacity) :
    ∃ v k cells, Let.expand kw operands { h with roots := h.roots.push expr } = .ok v k ∧
      k.roots = h.roots.push expr ∧ k.currentEnv = h.currentEnv ∧ cells.Nodup ∧
      h.Carries form.parts cells [] { k with roots := h.roots.push v } ∧
      k.Shows (form.expansion kw) cells v := by
  have hlive : h.isLive expr = true := isLive_of_object? he
  set h₁ : Heap := { h with roots := h.roots.push expr } with hh₁
  have hexpr : h₁.Reachable [] expr := .of_slot (i := h.roots.size) Array.getElem?_push_size
  have hpush : ∀ {u}, h.Reachable [expr] u → h₁.Reachable [] u := Drafting.reachable_push
  have hback : ∀ {u}, h₁.Reachable [] u → h.Reachable [expr] u := reachable_of_push
  have hf₁ : h₁.Forms operands form := Forms.transfer (h := h) (k := h₁) (S := fun _ => True)
    (fun _ _ => rfl) (fun _ _ _ _ _ _ => trivial) trivial hf
  have hused : h₁.usedWith [] ≤ h.usedWith [expr] :=
    usedWith_le_of_reachable rfl fun u _ hu => hback hu
  have hfin := expand_makes (h := h₁) (hw.push hlive) hs (hexpr.tail (h := h₁) he)
    (hpush (.of_nil hl))
    (hpush (.of_nil hd)) hf₁ (by simp only [hh₁, Array.size_push]; omega)
  rcases Outcome.Finishes.cases hfin with
    ⟨_, k, hrun, _, ⟨piece, rfl, hp, rfl⟩, hk, hroots⟩ | ⟨e, k, -, -, -, -, hlt⟩
  swap
  · have hcap₁ : h₁.capacity = h.capacity := rfl
    omega
  have hadds : h₁.Adds [] piece.cells k := by simpa using hk.adds
  have hshow : k.Shows (form.expansion kw) piece.cells piece.handle :=
    hp ▸ hk.shows piece List.mem_cons_self
  refine ⟨piece.handle, k, piece.cells, hrun, hroots, hadds.currentEnv, hadds.nodup, ?_, hshow⟩
  -- what is left is what the expansion is made of
  have hparts : ∀ u ∈ form.parts, h.Reachable [expr] u := fun u hu => hf.reachable_leaves
    ((Reachable.of_extra List.mem_cons_self).tail he) (.of_nil hl) (.of_nil hd) u
    (Form.mem_leaves_of_mem_parts hu)
  have hleaves : ∀ {u}, u ∈ (form.expansion kw).leaves → h.Reachable form.parts u :=
    Form.reachable_of_mem_leaves hl hd
  have hold : ∀ {u}, h.Reachable form.parts u → h₁.Reachable [] u :=
    fun hu => hpush (hu.mono hparts)
  have hv : ({ k with roots := h.roots.push piece.handle } : Heap).Reachable [] piece.handle :=
    .of_slot (i := h.roots.size) Array.getElem?_push_size
  have hshow' : ({ k with roots := h.roots.push piece.handle } : Heap).Shows
    (form.expansion kw) piece.cells
    piece.handle := hshow.congr fun _ _ => rfl
  have hknown : h.Reachable form.parts piece.handle ∨ piece.handle ∈ piece.cells :=
    hshow.head_mem.symm.imp_left hleaves
  have hkw : k.WellFormed := hadds.wellFormed
  have hroot : ∀ u ∈ h.roots.toList, k.isLive u = true := fun u hu =>
    hkw.root u (by rw [hroots, hh₁]; simp [Array.mem_toList_iff.mp hu])
  have hlivev : k.isLive piece.handle = true := hk.isLive List.mem_cons_self
  refine .of_closed ?_ ?_ (fun u hu => hadds.kept u (hold hu)) (fun u hu => ?_)
    (fun u hu d hd c hc => ?_) rfl ?_ ?_
  · refine hkw.setRoots fun u hu => ?_
    rw [Array.toList_push, List.mem_append, List.mem_singleton] at hu
    rcases hu with hu | rfl
    exacts [hroot u hu, hlivev]
  · exact ⟨hadds.size_eq, hadds.capacity, rfl, hadds.rootSlots, hadds.symbols_eq, hadds.baseEnv,
      rfl, hadds.audited⟩
  · exact ⟨(hadds.fresh u hu).1, fun hr => (hadds.fresh u hu).2 (hold hr)⟩
  · exact (hshow.closed u hu d hd c hc).symm.imp_left hleaves
  · have hcur : k.currentEnv = h.currentEnv := hadds.currentEnv
    simp only [List.forall_mem_cons, List.not_mem_nil, false_implies, implies_true, and_true]
    exact ⟨hknown, .inl (hcur ▸ .anchor .current)⟩
  · have hcur : k.currentEnv = h.currentEnv := hadds.currentEnv
    refine List.forall_mem_cons.mpr ⟨hcur ▸ .anchor .current, List.forall_mem_append.mpr ⟨?_, ?_⟩⟩
    · exact fun u hu => hshow'.reachable_leaves hv u (Form.mem_leaves_of_mem_parts hu)
    · exact hshow'.reachable hv

/-! ### A procedure without parameters -/

open Application

/-- It goes on with its body, in a new frame that binds nothing. -/
lemma exists_applyClosure (seq : Handle) (hw : k.WellFormed) (hs : k.HasSentinels)
    (hf : k.IsFrame k.currentEnv) (hroom : k.roots.size + 2 ≤ k.rootSlots)
    (hcap : 1 + k.usedWith [] ≤ k.capacity) :
    ∃ f l, applyClosure k.currentEnv .emptyList seq .emptyList k =
      .ok (.body seq) { l with currentEnv := f } ∧
      k.Adds [] [f] l ∧ l.object? f = some (.frame (some k.currentEnv) .emptyList .emptyList) ∧
      l.roots = k.roots := by
  have hnil : k.Reachable [] .emptyList ∨ Handle.emptyList ∈ ([] : List Handle) :=
    .inl (.sentinel (by decide))
  have hk₂ : k.Retains [] [] { k with roots := (k.roots.push .emptyList).push .emptyList } :=
    ((Retains.refl hw).hold.push hnil).hold.push hnil
  have hchildren : ∀ v ∈ (Datum.frame (some k.currentEnv) .emptyList .emptyList).children,
      k.Reachable [] v ∨ v ∈ ([] : List Handle) := by
    simp only [Datum.children, Option.toList_some, List.singleton_append, List.forall_mem_cons,
      hnil, true_and]
    exact ⟨.inl (.anchor .current), by simp⟩
  obtain ⟨f, l, hrun, hl, hframe, hroots, -⟩ := hk₂.alloc rfl hchildren (by simp)
    (by simp only [List.length_nil]; omega)
  have hbind : (bindParameters .emptyList .emptyList : EvalM (Handle × Handle)) k =
      .ok (.emptyList, .emptyList) k := by
    rw [bindParameters_fixed hs ⟨⟨[], .nil⟩, by simp, .inl rfl⟩ .nil rfl]
    rfl
  -- the current frame is the parent, and so nothing is switched before
  have henter : (do
        setCurrentEnv k.currentEnv
        let _ ← pushFrame .emptyList .emptyList : EvalM Unit)
      { k with roots := (k.roots.push .emptyList).push .emptyList } = .ok ()
        { l with currentEnv := f } := by
    obtain ⟨parent, names, values, hd⟩ := hf
    rw [bind_of_ok
      (setCurrentEnv_frame (h := { k with roots := (k.roots.push .emptyList).push .emptyList }) hd),
      pushFrame, bind_assoc, bind_of_ok (show (HeapM.currentEnv : EvalM Handle)
        { k with roots := (k.roots.push .emptyList).push .emptyList } = .ok k.currentEnv _ from
        rfl), bind_assoc,
      makeFrame, bind_of_ok hrun]
    rfl
  have hlroots : l.roots = (k.roots.push .emptyList).push .emptyList := hroots
  have hheld : (rooted .emptyList fun _ => rooted .emptyList fun _ => do
        setCurrentEnv k.currentEnv
        let _ ← pushFrame .emptyList .emptyList : EvalM Unit) k =
            .ok () { l with roots := k.roots, currentEnv := f } := by
    rw [rooted_of_ok (by omega)
      (rooted_of_ok (by simp only [Array.size_push]; omega) henter (by simp [hlroots]))
      (by simp [hlroots])]
    simp [hlroots]
  refine ⟨f, { l with roots := k.roots }, ?_, hl.toAdds.dropRoots, hframe, rfl⟩
  rw [applyClosure, bind_of_ok hbind]
  exact bind_of_ok hheld

/-- The call of a procedure without parameters. -/
lemma exists_thunk_step (hw : k.WellFormed) (hs : k.HasSentinels) (hf : k.IsFrame k.currentEnv)
    (hkw : ∀ nested budget operands, Step.ofPair ctx nested budget ctx.keywords.lambda operands =
      Form.lambda operands)
    (hv : k.object? v = some (.pair q .emptyList)) (hq : q ∉ ctx.keywords.heads)
    (he : k.IsLambda ctx.keywords q .emptyList seq) (hr : k.Reachable [] v)
    (hroom : k.roots.size + 3 ≤ k.rootSlots) (hcap : 3 + k.usedWith [] ≤ k.capacity) :
    ∃ f l made, Evaluator.step ctx (Evaluator.nestedEval ctx (b + 1)) (b + 1) .expr v k =
        .ok (.body seq) { l with currentEnv := f } ∧ k.Adds [] made l ∧ f ∈ made ∧ made.length = 3 ∧
      l.object? f = some (.frame (some k.currentEnv) .emptyList .emptyList) ∧
      l.roots = k.roots := by
  obtain ⟨p, k₁, hrun, hp, hk₁, hr₁⟩ :=
    (lambda_peaks (b := b) hw hs hf hkw he (hr.head hv) (by omega)).exists_ok
    (by omega)
  have hcur₁ : k₁.IsFrame k₁.currentEnv := by
    obtain ⟨parent, names, values, hd⟩ := hf
    exact ⟨parent, names, values, hk₁.currentEnv ▸ (hk₁.kept _ (.anchor .current)).trans hd⟩
  have hpk : k₁.isLive p = true := isLive_of_object? hp
  have hused₁ : k₁.usedWith [p] ≤ k.usedWith [] + 1 := hk₁.usedWith_le (by simp)
  -- the list of the value of the operator
  have hcomb := evalCombination_finishes hrun hk₁.wellFormed hpk (hk₁.hasSentinels hs) hcur₁
    (by rw [hr₁, hk₁.rootSlots]; omega) .nil (.sentinel (by decide)) .nil
    (show 0 < b + 1 from Nat.succ_pos b)
  rcases Outcome.Finishes.cases hcomb with
    ⟨call, k₂, hrun₂, args, cells, hk₂, hr₂, hcall, hargs⟩ | ⟨e, l, -, -, -, -, hlt⟩
  swap
  · have hcap₁ := hk₁.capacity
    simp only [List.length_nil] at hlt
    omega
  cases hargs
  have hall : k.Adds [] ([call] ++ [p]) k₂ :=
    hk₁.trans hk₂ (by simp) (List.forall_mem_singleton.mpr (.of_extra List.mem_cons_self)) (by simp)
  have hcallk : k₂.isLive call = true := isLive_of_object? hcall
  have hk₃ := hall.push (v := call) (.inr (by simp)) hcallk
  set k₃ : Heap := { k₂ with roots := k₂.roots.push call } with hk₃def
  have hheld : ∀ u ∈ [call] ++ [p], k₃.Reachable [] u := by
    have hself : k₃.Reachable [] call := .of_slot (i := k₂.roots.size) Array.getElem?_push_size
    simpa using ⟨hself, hself.head (h := k₃) hcall⟩
  have hcur₃ : k₃.currentEnv = k.currentEnv := hk₃.currentEnv
  have hf₃ : k₃.IsFrame k₃.currentEnv := by
    obtain ⟨parent, names, values, hd⟩ := hf
    exact ⟨parent, names, values, hcur₃ ▸ (hk₃.kept _ (.anchor .current)).trans hd⟩
  have hused₃ : k₃.usedWith [] ≤ k.usedWith [] + ([call] ++ [p]).length := hk₃.usedWith_le (by simp)
  have hcap₃ := hk₃.capacity
  have hslots₃ := hk₃.rootSlots
  have hsize₃ : k₃.roots.size = k.roots.size + 1 := by rw [hk₃def, Array.size_push, hr₂, hr₁]
  obtain ⟨f, l, hrun₃, hl, hframe, hroots⟩ :=
    exists_applyClosure seq hk₃.wellFormed (hk₃.hasSentinels hs) hf₃
    (by omega) (by simp only [List.length_append, List.length_singleton] at hused₃; omega)
  have hp₃ : k₃.object? p = some (.closure k.currentEnv .emptyList seq) :=
    (hk₂.kept p (.of_extra List.mem_cons_self)).trans hp
  have happly : apply ctx.host p .emptyList k₃ = .ok (.body seq) { l with currentEnv := f } := by
    rw [apply, bind_of_ok (datum_apply hp₃)]
    exact hcur₃ ▸ hrun₃
  have hfinal := hk₃.trans hl (by simp) hheld (by simp)
  have hlroots : l.roots = k.roots.push call := by rw [hroots, hk₃def, hr₂, hr₁]
  refine ⟨f, { l with roots := k.roots }, _, ?_, hfinal.dropRoots, by simp, by simp,
    hcur₃ ▸ hframe, rfl⟩
  simp only [Keywords.heads, List.mem_cons, List.not_mem_nil, or_false, not_or] at hq
  rw [Evaluator.step, Step.ofExpr, bind_of_ok (datum_apply hv)]
  simp only [Step.ofPair, hq, if_false]
  rw [ofCombination, bind_of_ok hrun₂]
  refine (rooted_of_ok (by rw [hr₂, hr₁, hk₂.rootSlots, hk₁.rootSlots]; omega)
    ((bind_of_ok (pairParts_apply (h := k₃) (pairAt_eq_some.mpr hcall))).trans happly) ?_).trans ?_
  · simp [hlroots, hr₂, hr₁]
  · simp [hlroots]

end Heap

end ArenaScheme
