/-
# A procedure that calls itself

The procedure that counts down to zero calls itself in tail position.  While it counts, an
evaluation holds what it has held at first, and besides the frame of the latest call, the list of
its argument, and the argument: three cells, whatever the count.  The cells of earlier calls are
left to the collector.  Each turn takes some more cells and root slots for the time being, and these
are as many for every count.
-/
import ArenaScheme.Proofs.Bindings
import ArenaScheme.Proofs.Tails.Calls

namespace ArenaScheme

open Heap HeapM Evaluator

/-- One less than a positive number. -/
lemma toInt_sub_one {n : Int64} (hn : 0 < n) : (n - 1).toInt = n.toInt + (-1 : Int64).toInt := by
  have hpos : 0 < n.toInt := by simpa [Int64.lt_iff_toInt_lt] using hn
  have hlt := n.toInt_lt
  have h1 : (1 : Int64).toInt = 1 := rfl
  have h2 : (-1 : Int64).toInt = -1 := rfl
  rw [Int64.toInt_sub, h1, h2, Int.bmod_eq_of_le] <;> omega

/-- The sum of integers is an integer if it is in their range. -/
lemma Num.add_int {x y z : Int64} (hz : z.toInt = x.toInt + y.toInt) :
    Num.add (.int x) (.int y) = .ok (.int z) := by
  change Num.ofInt? (x.toInt + y.toInt) = _
  rw [← hz, Num.ofInt?, if_pos (Number.fits_toInt z), Int64.ofInt_toInt]

namespace Tree

/-- A name. -/
def word (name : String) : Tree := .leaf (.symbol name)

/-- A proper list. -/
def form (elements : List Tree) : Tree := list elements .emptyList

/-- `(= x 0)` -/
def isDone : Tree := form [word "=", word "x", .leaf (.int 0)]

/-- `(+ x -1)` -/
def lesser : Tree := form [word "+", word "x", .leaf (.int (-1))]

/-- `(if (= x 0) 0 (f (+ x -1)))` -/
def counting : Tree := form [word "if", isDone, .leaf (.int 0), form [word "f", lesser]]

end Tree

namespace Heap

variable {h k l p : Heap} {ctx : Context} {env params body e s t u v w x operator : Handle}
  {name name' : String} {n m : Int64} {c : Chain} {tree : Tree} {ts : List Tree}
  {extra vs : List Handle} {b : Nat}

/-! ## Symbols and data -/

/-- Different names have different symbols. -/
lemma WellFormed.symbol_ne (hw : h.WellFormed) (hs : h.findSymbol name = some s)
    (ht : h.findSymbol name' = some t) (hne : name ≠ name') : s ≠ t := by
  rintro rfl
  have hsame := (hw.table name s hs).2.symm.trans (hw.table name' s ht).2
  exact hne (Datum.symbol.inj (Option.some.inj hsame))

/-- A datum depends on objects only that can be reached from it, and none of them is a frame. -/
lemma Unfolds.congr (hu : h.Unfolds tree v) (hr : h.Reachable extra v)
    (hk : ∀ v d, h.Reachable extra v → h.object? v = some d → d.type ≠ .environment →
      k.object? v = some d)
    (hs : ∀ name s, h.findSymbol name = some s → k.findSymbol name = some s) :
    k.Unfolds tree v := by
  induction tree generalizing v with
  | emptyList => exact hu
  | leaf literal =>
    cases literal with
    | bool b => exact hu
    | symbol name => exact hs name v hu
    | _ => exact hk v _ hr hu (by simp [Datum.type])
  | pair a b iha ihb =>
    obtain ⟨x, y, hv, hx, hy⟩ := hu
    exact ⟨x, y, hk v _ hr hv (by simp [Datum.type]), iha hx (hr.head hv), ihb hy (hr.tail hv)⟩

/-- It stays what it is as long as it is saved. -/
lemma Unfolds.saved (hu : h.Unfolds tree v) (hs : h.Saves extra k) (hr : h.Reachable extra v) :
    k.Unfolds tree v :=
  hu.congr hr (fun w _ hw hd _ => (hs.kept w hw).trans hd) hs.symbols

/-- A list that has been read is a row of what its elements stand for. -/
lemma Unfolds.row (hu : h.Unfolds (.form ts) v) :
    ∃ vs cells, h.Row .emptyList vs cells v ∧ List.Forall₂ h.Unfolds ts vs := by
  induction ts generalizing v with
  | nil => exact ⟨[], [], (show v = .emptyList from hu) ▸ .nil, .nil⟩
  | cons t ts ih =>
    obtain ⟨x, y, hv, hx, hy⟩ := hu
    obtain ⟨vs, cells, hrow, hvs⟩ := ih hy
    exact ⟨x :: vs, v :: cells, .cons hv hrow, .cons hx hvs⟩

/-- What is held can be reached. -/
lemma Reachable.single {h : Heap} (v : Handle) : h.Reachable [v] v := .of_extra List.mem_cons_self

/-- An environment is a frame. -/
lemma Chains.isFrame (hc : h.Chains e c) : h.IsFrame e := by
  cases hc with
  | root hf _ => exact ⟨_, _, _, hf⟩
  | child hf _ _ => exact ⟨_, _, _, hf⟩

/-! ## What the procedure relies on -/

/-- In that environment the name, which is no keyword, is bound to the object. -/
def Offers (h : Heap) (ctx : Context) (env : Handle) (name : String) (v : Handle) : Prop :=
  ∃ c symbol, h.Chains env c ∧ h.findSymbol name = some symbol ∧ symbol ∉ ctx.keywords.heads ∧
    c.bound? symbol = some v

lemma Offers.congr (ho : h.Offers ctx env name v) (hr : h.Reachable extra env)
    (hk : ∀ v, h.Reachable extra v → k.object? v = h.object? v)
    (hs : ∀ name s, h.findSymbol name = some s → k.findSymbol name = some s) :
    k.Offers ctx env name v := by
  obtain ⟨c, symbol, hc, hsym, hheads, hb⟩ := ho
  exact ⟨c, symbol, hc.congr hr hk, hs name symbol hsym, hheads, hb⟩

lemma Offers.reachable (ho : h.Offers ctx env name v) (hr : h.Reachable extra env) :
    h.Reachable extra v := by
  obtain ⟨c, symbol, hc, -, -, hb⟩ := ho
  exact hc.reachable hr hb

/-- The environment binds `f` to the procedure that counts down, which has been made there, and it
binds the procedures that `f` calls. -/
structure Counter (h : Heap) (ctx : Context) (env params body : Handle) : Prop where
  hasSentinels : h.HasSentinels
  parameters : h.Unfolds (.form [.word "x"]) params
  counts : h.Unfolds (.form [.counting]) body
  conditional : h.findSymbol "if" = some ctx.keywords.conditional
  quotes : ctx.keywords.conditional ∉ [ctx.keywords.quote, ctx.keywords.quasiquote]
  recursive : ∃ v, h.Offers ctx env "f" v ∧ h.object? v = some (.closure env params body)
  compares : ∃ v name, h.Offers ctx env "=" v ∧
    h.object? v = some (.foreign name (.builtin (.compare .equal)))
  adds : ∃ v name, h.Offers ctx env "+" v ∧ h.object? v = some (.foreign name (.builtin .add))

namespace Counter

lemma reachable (hc : h.Counter ctx env params body) (hr : h.Reachable extra env) :
    h.Reachable extra params ∧ h.Reachable extra body := by
  obtain ⟨v, ho, hd⟩ := hc.recursive
  have hv := ho.reachable hr
  exact ⟨.child hv hd (by simp [Datum.children]), .child hv hd (by simp [Datum.children])⟩

lemma congr (hc : h.Counter ctx env params body) (hr : h.Reachable extra env)
    (hk : ∀ v, h.Reachable extra v → k.object? v = h.object? v)
    (hs : ∀ name s, h.findSymbol name = some s → k.findSymbol name = some s) :
    k.Counter ctx env params body := by
  have hunfolds : ∀ {t v}, h.Reachable extra v → h.Unfolds t v → k.Unfolds t v := fun hv hu =>
    hu.congr hv (fun w _ hw hd _ => (hk w hw).trans hd) hs
  obtain ⟨hparams, hbody⟩ := hc.reachable hr
  obtain ⟨f, hf, hfd⟩ := hc.recursive
  obtain ⟨e, ename, he, hed⟩ := hc.compares
  obtain ⟨a, aname, ha, had⟩ := hc.adds
  exact ⟨fun v hv => (hk v (.sentinel hv)).trans (hc.hasSentinels v hv),
    hunfolds hparams hc.parameters, hunfolds hbody hc.counts, hs _ _ hc.conditional, hc.quotes,
    ⟨f, hf.congr hr hk hs, (hk f (hf.reachable hr)).trans hfd⟩,
    ⟨e, ename, he.congr hr hk hs, (hk e (he.reachable hr)).trans hed⟩,
    ⟨a, aname, ha.congr hr hk hs, (hk a (ha.reachable hr)).trans had⟩⟩

lemma saved (hc : h.Counter ctx env params body) (hs : h.Saves extra k)
    (hr : h.Reachable extra env) :
    k.Counter ctx env params body := hc.congr hr hs.kept hs.symbols

/-- The current frame does not matter to it. -/
lemma switch (hc : ({ h with currentEnv := u } : Heap).Counter ctx env params body) :
    h.Counter ctx env params body :=
  hc.congr (.single env) (fun _ _ => rfl) fun _ _ => id

end Counter

/-- A combination with an operator that has been found. -/
lemma Offers.combines (ho : h.Offers ctx env name v) (hu : h.Unfolds (.form (.word name :: ts)) e)
    (hr : h.Reachable [] e) : ∃ operator es, h.Combines ctx e operator es ∧
      h.findSymbol name = some operator ∧ List.Forall₂ h.Unfolds ts es := by
  obtain ⟨c, symbol, -, hsym, hk, -⟩ := ho
  obtain ⟨operator, operands, he, hop, hops⟩ := hu
  obtain rfl : symbol = operator := Option.some.inj (hsym.symm.trans hop)
  obtain ⟨es, cells, hrow, hes⟩ := Unfolds.row hops
  simp only [Keywords.heads, List.mem_cons, List.not_mem_nil, or_false, not_or] at hk
  exact ⟨symbol, es, ⟨⟨operands, cells, he, hrow⟩, fun _ _ _ => by simp [Step.ofPair, hk], hr⟩,
    hsym, hes⟩

/-! ## In a call -/

/-- The current frame is one for a call from `env`, with an integer for the argument. -/
def Passes (h : Heap) (env params : Handle) (n : Int64) : Prop :=
  ∃ args v, h.object? h.currentEnv = some (.frame (some env) params args) ∧
    h.object? args = some (.pair v .emptyList) ∧ h.object? v = some (.int n)

lemma Passes.saved (hp : h.Passes env params n) (hs : h.Saves extra k) : k.Passes env params n := by
  obtain ⟨args, v, hf, ha, hv⟩ := hp
  have hargs : h.Reachable extra args := .child (.anchor .current) hf (by simp [Datum.children])
  refine ⟨args, v, ?_, (hs.kept args hargs).trans ha, (hs.kept v (hargs.head ha)).trans hv⟩
  rw [hs.currentEnv]
  exact (hs.kept _ (.anchor .current)).trans hf

lemma Passes.isFrame (hp : h.Passes env params n) : h.IsFrame h.currentEnv := by
  obtain ⟨args, v, hf, -⟩ := hp
  exact ⟨_, _, _, hf⟩

/-- There is one more binding in the frame of the call. -/
lemma Passes.chains (hp : h.Passes env params n) (hs : h.HasSentinels)
    (hparams : h.Unfolds (.form [.word "x"]) params) (hc : h.Chains env c) :
    ∃ x v, h.findSymbol "x" = some x ∧
      h.object? v = some (.int n) ∧ h.Chains h.currentEnv ((h.currentEnv, [(x, v)]) :: c) := by
  obtain ⟨args, v, hf, ha, hv⟩ := hp
  obtain ⟨x, rest, hx, hsym, rfl⟩ := hparams
  have hstop : h.Zips .emptyList .emptyList [] := .stop (.inl hs.pairAt_emptyList)
  exact ⟨x, v, hsym, hv, .child hf (.cons (pairAt_eq_some.mpr hx) (pairAt_eq_some.mpr ha) hstop) hc⟩

/-- An integer is its own value. -/
lemma supplies_int (hs : h.HasSentinels) (hf : h.IsFrame h.currentEnv) (hr : h.Reachable [] e)
    (he : h.object? e = some (.int n)) : h.Supplies (nestedEval ctx (b + 1)) 2 0 e (.int n) :=
  Supplies.int (Means.supplies (.constant he (by simp [Datum.type])) hs hr hf) hr he

namespace Counter

/-- The parameter has the value that has been passed. -/
lemma supplies_argument (hc : h.Counter ctx env params body) (hw : h.WellFormed)
    (hp : h.Passes env params n)
    (hx : h.findSymbol "x" = some x) : h.Supplies (nestedEval ctx (b + 1)) 2 0 x (.int n) := by
  obtain ⟨_, ⟨c, _, hch, -⟩, -⟩ := hc.recursive
  obtain ⟨x', v, hx', hv, hch'⟩ := hp.chains hc.hasSentinels hc.parameters hch
  obtain rfl : x = x' := Option.some.inj (hx.symm.trans hx')
  have hm : h.Means ctx.keywords x v := .bound (hw.table _ _ hx).2 hch' (by simp [Chain.bound?])
  exact Supplies.int (hm.supplies hc.hasSentinels (hw.reachable_symbol hx) hp.isFrame)
    (hm.reachable (hw.reachable_symbol hx)) hv

/-- Other names mean in the call what they mean outside. -/
lemma supplies_operator (hc : h.Counter ctx env params body) (hw : h.WellFormed)
    (hp : h.Passes env params n) (ho : h.Offers ctx env name v) (hs : h.findSymbol name = some s)
    (hne : name ≠ "x") :
    h.Supplies (nestedEval ctx (b + 1)) 2 0 s (.old v) := by
  obtain ⟨c, s', hch, hs', -, hb⟩ := ho
  obtain rfl : s = s' := Option.some.inj (hs.symm.trans hs')
  obtain ⟨x, w, hx, -, hch'⟩ := hp.chains hc.hasSentinels hc.parameters hch
  have hbound : Chain.bound? ((h.currentEnv, [(x, w)]) :: c) s = some v := by
    rw [Chain.bound?_cons, Bindings.lookup_cons, if_neg (hw.symbol_ne hx hs hne.symm),
      List.lookup_nil, hb]
    rfl
  have hm : h.Means ctx.keywords s v := .bound (hw.table _ _ hs).2 hch' hbound
  exact hm.supplies hc.hasSentinels (hw.reachable_symbol hs) hp.isFrame

/-- A call of a built-in procedure with the argument and a constant. -/
lemma supplies_call {builtin : Builtin} {r : Worth} (hc : h.Counter ctx env params body)
    (hw : h.WellFormed) (hp : h.Passes env params n) (hr : h.Reachable [] env)
    (ho : h.Offers ctx env name v) (hd : h.object? v = some (.foreign name' (.builtin builtin)))
    (hne : name ≠ "x") (hu : h.Unfolds (.form [.word name, .word "x", .leaf (.int m)]) e)
    (he : h.Reachable [] e) (hcompute : h.Computes builtin [.int n, .int m] r) :
    h.Supplies (nestedEval ctx (b + 4)) 5 4 e r := by
  obtain ⟨operator, es, hcomb, hs, hes⟩ := ho.combines hu he
  obtain ⟨operands, spine, hpair, hrow⟩ := hcomb.parts
  have hreach := (hrow.reachable (he.tail hpair)).2.1
  cases hes with
  | @cons _ x _ es hx hes =>
    cases hes with
    | @cons _ y _ es hy hes =>
      cases hes
      have hsupplies : List.Forall₂ (h.Supplies (nestedEval ctx (b + 3)) 2 0) [x, y]
        [.int n, .int m] :=
        .cons (hc.supplies_argument hw hp hx)
          (.cons (supplies_int hc.hasSentinels hp.isFrame (hreach y (by simp)) hy) .nil)
      exact hcomb.supplies hc.hasSentinels hp.isFrame (hc.supplies_operator hw hp ho hs hne)
        (ho.reachable hr) hd
        (by simp) hsupplies (by omega) (by simp) hcompute

lemma supplies_isDone (hc : h.Counter ctx env params body) (hw : h.WellFormed)
    (hp : h.Passes env params n) (hr : h.Reachable [] env) (hu : h.Unfolds .isDone e)
    (he : h.Reachable [] e) :
    h.Supplies (nestedEval ctx (b + 4)) 5 4 e (.old (.ofBool (n == 0))) := by
  obtain ⟨v, name, ho, hd⟩ := hc.compares
  refine hc.supplies_call hw hp hr ho hd (by decide) hu he ?_
  have hcompare := computes_compare .equal [n, 0] hc.hasSentinels (by simp)
  have hholds : Comparison.equal.holds ([n, 0].map Num.int) = (n == 0) := by
    have hequal : (compare n.toInt (0 : Int64).toInt).isEq = (n == 0) := by
      rw [Bool.eq_iff_iff]
      simp [← Int64.toInt_inj]
    simpa [Comparison.holds, Comparison.admits, Num.order?] using hequal
  rwa [hholds] at hcompare

lemma supplies_lesser (hc : h.Counter ctx env params body) (hw : h.WellFormed)
    (hp : h.Passes env params n) (hr : h.Reachable [] env) (hu : h.Unfolds .lesser e)
    (he : h.Reachable [] e) (hn : 0 < n) :
    h.Supplies (nestedEval ctx (b + 4)) 5 4 e (.int (n - 1)) := by
  obtain ⟨v, name, ho, hd⟩ := hc.adds
  refine hc.supplies_call hw hp hr ho hd (by decide) hu he (computes_add [n, -1] hc.hasSentinels ?_)
  have hzero : n.toInt = (0 : Int64).toInt + n.toInt := by
    have h0 : (0 : Int64).toInt = 0 := rfl
    omega
  change (Num.add (.int 0) (.int n) >>= fun sum => Num.add sum (.int (-1)) >>= pure) = _
  rw [Num.add_int hzero]
  change (Num.add (.int n) (.int (-1)) >>= pure) = _
  rw [Num.add_int (toInt_sub_one hn)]
  rfl

end Counter

/-! ## From turn to turn -/

/-- `l` is what has become of `p` in an evaluation that has `u` in its slot now. -/
structure During (p : Heap) (u : Handle) (l : Heap) : Prop where
  wellFormed : l.WellFormed
  saves : p.Saves [] { l with currentEnv := p.currentEnv }
  size_eq : l.cells.size = p.cells.size
  roots : l.roots = p.roots.push u

/-- Besides, a call with that argument has been entered. -/
structure Counting (p : Heap) (params : Handle) (n : Int64) (u : Handle) (l : Heap) :
    Prop extends p.During u l where
  passes : l.Passes p.currentEnv params n

namespace During

lemma kept (hd : p.During u l) (hr : p.Reachable [] v) : l.object? v = p.object? v :=
  hd.saves.kept v hr

/-- What is in the slot. -/
lemma slot (hd : p.During u l) : l.roots[p.roots.size]? = some u := by
  rw [hd.roots, Array.getElem?_push_size]

lemma lt_size (hd : p.During u l) : p.roots.size < l.roots.size := by
  rw [hd.roots, Array.size_push]
  exact Nat.lt_succ_self _

/-- Putting something else into the slot. -/
lemma put (hd : p.During u l) (hv : l.isLive v = true) :
    p.During v { l with roots := l.roots.setIfInBounds p.roots.size v } := by
  have hroots : l.roots.setIfInBounds p.roots.size v = p.roots.push v := by
    rw [hd.roots, setIfInBounds_push]
  refine ⟨hd.wellFormed.put hv _, hd.saves.setRoots (hd.saves.wellFormed.put hv _) ?_ fun i hi =>
    ?_, hd.size_eq, hroots⟩
  · rw [hroots, Array.size_push]
    exact Nat.le_succ _
  · rw [Array.getElem?_setIfInBounds_ne (by omega)]

/-- Something has happened since, and the root stack is as it was. -/
lemma later (hd : p.During u l) (he : l.Reachable [] p.currentEnv) (hs : l.Saves [] k)
    (hsize : k.cells.size = l.cells.size) (hroots : k.roots = l.roots) : p.During u k :=
  ⟨hs.wellFormed, hd.saves.trans (hs.switch he) (by simp), hsize.trans hd.size_eq,
    hroots.trans hd.roots⟩

/-- A call has been entered. -/
lemma enter {rs : List Worth} (hd : p.During u l) (he : l.Entered p.currentEnv params rs k) :
    p.During u k := by
  obtain ⟨args, vs, cells, hf, -⟩ := he.frame
  exact ⟨he.saves.wellFormed.switchEnv
    (isLive_of_object? (h := { k with currentEnv := p.currentEnv }) hf),
    hd.saves.trans he.saves (by simp), he.size_eq.trans hd.size_eq, he.roots.trans hd.roots⟩

end During

namespace Counting

lemma put (hc : p.Counting params n u l) (hv : l.isLive v = true) :
    p.Counting params n v { l with roots := l.roots.setIfInBounds p.roots.size v } :=
  ⟨hc.toDuring.put hv, hc.passes⟩

lemma reachable_env (hc : p.Counting params n u l) : l.Reachable [] p.currentEnv := by
  obtain ⟨args, v, hf, -⟩ := hc.passes
  exact .child (.anchor .current) hf (by simp [Datum.children])

lemma later (hc : p.Counting params n u l) (hs : l.Saves [] k) (hsize : k.cells.size = l.cells.size)
    (hroots : k.roots = l.roots) : p.Counting params n u k :=
  ⟨hc.toDuring.later hc.reachable_env hs hsize hroots, hc.passes.saved hs⟩

lemma reachable (hc : p.Counting params n u l) (hr : p.Reachable [] v) : l.Reachable [] v :=
  reachable_of_switch hc.reachable_env (hc.saves.reachable (by simp) hr)

/-- What can be reached is what could be reached at first, the frame, the list of the argument, and
the argument. -/
lemma exists_cases (hc : p.Counting params n u l) (hu : p.Reachable [] u)
    (hp : p.Reachable [] params) :
    ∃ args v, ∀ w, l.Reachable [] w → p.Reachable [] w ∨ w ∈ [l.currentEnv, args, v] := by
  obtain ⟨args, v, hf, ha, hv⟩ := hc.passes
  have henv : p.Reachable [] p.currentEnv := .anchor .current
  refine ⟨args, v, fun w hw => ?_⟩
  induction hw with
  | anchor hw =>
    cases hw with
    | sentinel hw => exact .inl (.sentinel hw)
    | permanent hr hs =>
      refine .inl (.of_not_collectible (hc.size_eq ▸ hs) fun hcol => ?_)
      exact absurd (hc.saves.collectible.mpr hcol).2 (Nat.not_lt.mpr hr)
    | root hw =>
      rw [hc.roots, Array.toList_push, List.mem_append, List.mem_singleton] at hw
      rcases hw with hw | rfl
      · exact .inl (.anchor (.root hw))
      · exact .inl hu
    | base =>
      have hbase : l.baseEnv = p.baseEnv := hc.saves.baseEnv
      exact .inl (hbase ▸ .anchor .base)
    | current => exact .inr (by simp)
    | extra hw => cases hw
  | @child x y d _ hd hy ih =>
    rcases ih with hx | hx
    · exact .inl (.child hx ((hc.saves.kept x hx).symm.trans hd) hy)
    rcases (by simpa using hx : x = l.currentEnv ∨ x = args ∨ x = v) with rfl | rfl | rfl
    · obtain rfl := Option.some.inj (hf.symm.trans hd)
      rcases (by simpa [Datum.children] using hy : y = p.currentEnv ∨ y = params ∨ y = args) with
        rfl | rfl | rfl
      · exact .inl henv
      · exact .inl hp
      · exact .inr (by simp)
    · obtain rfl := Option.some.inj (ha.symm.trans hd)
      rcases (by simpa [Datum.children] using hy : y = v ∨ y = .emptyList) with rfl | rfl
      · exact .inr (by simp)
      · exact .inl (.sentinel (by decide))
    · obtain rfl := Option.some.inj (hv.symm.trans hd)
      simp [Datum.children] at hy

end Counting

lemma Counting.usedWith_le (hc : p.Counting params n u l) (hu : p.Reachable [] u)
    (hp : p.Reachable [] params) :
    l.usedWith [] ≤ p.usedWith [] + 3 := by
  have hcap : l.capacity = p.capacity := hc.saves.capacity
  obtain ⟨args, v, hcases⟩ := hc.exists_cases hu hp
  exact usedWith_le_of_cases hcap fun w _ => hcases w

/-! ## The turns -/

lemma During.counter (hd : p.During u l) (hC : p.Counter ctx p.currentEnv params body) :
    l.Counter ctx p.currentEnv params body :=
  (hC.saved hd.saves (.anchor .current)).switch

/-- The procedure goes on with the one expression of its body. -/
lemma Counting.body_turn (hl : p.Counting params n body l)
    (hC : p.Counter ctx p.currentEnv params body) (nested : Nested) (b : Nat) :
    ∃ e, p.Unfolds .counting e ∧ p.Reachable [] e ∧
      Step.ofBody nested (b + 1) body l = .ok (.eval e) l := by
  have hr := (hC.reachable (.anchor .current : p.Reachable [] p.currentEnv)).2
  obtain ⟨e, rest, hd, he, rfl⟩ := hC.counts
  refine ⟨e, he, hr.head hd, ?_⟩
  rw [Step.ofBody, bind_of_ok (asPair_apply ((hl.kept hr).trans hd))]
  rfl

/-- The condition decides between the end and another call. -/
lemma Counting.choice_turn (hl : p.Counting params n e l)
    (hC : p.Counter ctx p.currentEnv params body) (hcap : p.usedWith [] + 10 ≤ p.capacity)
    (he : p.Unfolds .counting e) (hr : p.Reachable [] e) (budget : Nat) :
    (Step.ofExpr ctx (nestedEval ctx (b + 4)) budget e l).Peaks p.rootSlots
    (p.roots.size + 6) fun st k =>
      ∃ u, st = .eval u ∧ p.Reachable [] u ∧ p.Counting params n e k ∧
        if n = 0 then p.object? u = some (.int 0) else p.Unfolds
          (.form [.word "f", .lesser]) u := by
  have hrslots : l.rootSlots = p.rootSlots := hl.saves.rootSlots
  have hlcap : l.capacity = p.capacity := hl.saves.capacity
  have hused := hl.usedWith_le hr (hC.reachable (.anchor .current)).1
  have hcl := hl.toDuring.counter hC
  obtain ⟨word, operands, hd, hword, test, rest₁, hd₁, htest, zero, rest₂, hd₂, hzero, again, rest₃,
    hd₃, hagain, rfl⟩ := he
  obtain rfl : ctx.keywords.conditional = word := Option.some.inj (hC.conditional.symm.trans hword)
  have hr₁ := hr.tail hd
  have hr₂ := hr₁.tail hd₁
  have hr₃ := hr₂.tail hd₂
  have hrow : l.Row .emptyList [test, zero, again] [operands, rest₁, rest₂] operands :=
    .cons ((hl.kept hr₁).trans hd₁)
      (.cons ((hl.kept hr₂).trans hd₂) (.cons ((hl.kept hr₃).trans hd₃) .nil))
  have htestl : l.Unfolds .isDone test := (htest.saved hl.saves (hr₁.head hd₁) : ({ l with
    currentEnv := p.currentEnv } : Heap).Unfolds .isDone test)
  have hsupplies := hcl.supplies_isDone (b := b) hl.wellFormed hl.passes hl.reachable_env htestl
    (hl.reachable (hr₁.head hd₁))
  have hform : Step.ofPair ctx (nestedEval ctx (b + 4)) budget ctx.keywords.conditional operands =
      Form.conditional (nestedEval ctx (b + 4)) operands := by
    have hquotes := hC.quotes
    simp only [List.mem_cons, List.not_mem_nil, or_false, not_or] at hquotes
    simp [Step.ofPair, hquotes]
  have hdepth : p.roots.size + 6 = max (l.roots.size + 5) 0 := by
    rw [hl.roots, Array.size_push]
    omega
  rw [Step.ofExpr, hdepth]
  refine peaks_bind_of_ok (datum_apply ((hl.kept hr).trans hd)) ?_
  dsimp only
  rw [hform, Form.conditional]
  refine peaks_bind_of_ok (items?_of_row hcl.hasSentinels hrow) ?_
  -- the truth value is there already, so nothing is left of the condition
  have htest' := hsupplies [] l (.refl hl.wellFormed) (by rw [List.length_nil]; omega)
  rw [hrslots] at htest'
  refine peaks_bind htest' fun v k hk => ?_
  obtain ⟨⟨new, -, hk, -⟩, hroots, hlk, rfl⟩ := hk
  have hcount := hl.later hlk hk.size_eq hroots
  rw [Handle.isTruthy_ofBool]
  by_cases hn : n = 0
  · exact peaks_of_ok (by rw [if_pos (by simpa using hn)]; rfl)
      ⟨zero, rfl, hr₂.head hd₂, hcount, by rwa [if_pos hn]⟩
  · exact peaks_of_ok (by rw [if_neg (by simpa using hn)]; rfl)
      ⟨again, rfl, hr₃.head hd₃, hcount, by rwa [if_neg hn]⟩

/-- The procedure is called with an integer. -/
lemma During.call_turn {arg : Tree} {up cost : Nat} (hl : p.During e l)
    (hC : p.Counter ctx p.currentEnv params body)
    (he : l.Unfolds (.form [.word "f", arg]) e) (hr : l.Reachable [] e)
    (henv : l.Reachable [] p.currentEnv)
    (hop : ∀ {f v}, l.Offers ctx p.currentEnv "f" v → l.findSymbol "f" = some f →
      l.Supplies (nestedEval ctx b) 2 0 f (.old v))
    (harg : ∀ {u}, l.Unfolds arg u → l.Reachable [] u →
      l.Supplies (nestedEval ctx b) up cost u (.int m))
    (hup : 2 ≤ up) (hcap : l.usedWith [] + cost + 2 < l.capacity) (budget : Nat) :
    (Step.ofExpr ctx (nestedEval ctx b) (budget + 2) e l).Peaks p.rootSlots
    (p.roots.size + 2 + up) fun st k =>
      st = .body body ∧ p.Counting params m e k := by
  have hcl := hl.counter hC
  have hrslots : l.rootSlots = p.rootSlots := hl.saves.rootSlots
  have hsize : p.roots.size + 2 + up = l.roots.size + 1 + up := by rw [hl.roots, Array.size_push]
  obtain ⟨v, ho, hd⟩ := hcl.recursive
  obtain ⟨f, es, hcomb, hf, hes⟩ := ho.combines he hr
  obtain ⟨operands, spine, hpair, hrow⟩ := hcomb.parts
  have hreach := (hrow.reachable (hr.tail hpair)).2.1
  cases hes with
  | @cons _ u _ es hu hes =>
    cases hes
    obtain ⟨x, rest, hx, hsym, rfl⟩ := hcl.parameters
    have hframe : l.IsFrame p.currentEnv := by
      obtain ⟨c, _, hch, -⟩ := ho
      exact hch.isFrame
    rw [← hrslots, hsize]
    refine (hcomb.enter_peaks hl.wellFormed hcl.hasSentinels (hop ho hf) (ho.reachable henv) hd
      (.cons hx .nil) rfl hframe (by simp) (.cons (harg hu (hreach u (by simp))) .nil) hup (by simp)
      (by simp only [List.length_singleton]; omega)).mono fun st k hk => ?_
    obtain ⟨rfl, hk⟩ := hk
    refine ⟨rfl, hl.enter hk, ?_⟩
    obtain ⟨args, vs, cells, hfr, hargs, hvs⟩ := hk.frame
    cases hvs with
    | @cons _ w _ vs hw hvs =>
      cases hvs
      cases hargs with
      | cons ha hnil =>
        cases hnil
        exact ⟨args, w, hfr, ha, hw⟩

/-! ## The loop -/

variable {d budget : Nat} {P : Handle → Heap → Prop}

/-- Two turns lead from the body to what the condition decides on. -/
lemma Counting.loop_body (hl : p.Counting params n body l)
    (hC : p.Counter ctx p.currentEnv params body) (hcap : p.usedWith [] + 10 ≤ p.capacity)
    (hnext : ∀ u k, p.Reachable [] u → p.Counting params n u k →
      (if n = 0 then p.object? u = some (.int 0) else p.Unfolds (.form [.word "f", .lesser]) u) →
      (loop ctx (b + 5) ⟨p.roots.size⟩ .expr k).Peaks p.rootSlots d P) :
    (loop ctx (b + 7) ⟨p.roots.size⟩ .body l).Peaks p.rootSlots (max (p.roots.size + 6) d) P := by
  obtain ⟨e, he, hr, hstep⟩ := hl.body_turn hC (nestedEval ctx (b + 6)) (b + 5)
  have hbody : (step ctx (nestedEval ctx (b + 6)) (b + 6) .body body l).Peaks p.rootSlots
    0 fun st k =>
      st = .eval e ∧ k = l := peaks_of_ok hstep ⟨rfl, rfl⟩
  rw [← Nat.zero_max (max _ d)]
  refine peaks_loop_again hl.slot (hbody.mono fun st k hk => ?_)
  obtain ⟨rfl, rfl⟩ := hk
  have hput := hl.put (hl.wellFormed.isLive_of_reachable (by simp) (hl.reachable hr))
  refine ⟨.expr, e, rfl, hl.lt_size, peaks_loop_again hput.slot ?_⟩
  refine (hput.choice_turn (b := b + 1) hC hcap he hr (b + 5)).mono fun st m hm => ?_
  obtain ⟨u, rfl, hu, hm, hif⟩ := hm
  have hlive := hm.wellFormed.isLive_of_reachable (by simp) (hm.reachable hu)
  exact ⟨.expr, u, rfl, hm.lt_size, hnext u _ hu (hm.put hlive) hif⟩

/-- Counting down comes to zero, and the root stack gets no deeper for a greater count. -/
lemma Counting.loop_peaks (budget : Nat) (hl : p.Counting params n body l)
    (hC : p.Counter ctx p.currentEnv params body) (hcap : p.usedWith [] + 10 ≤ p.capacity)
    (count : Nat) (hn : n.toInt = count) :
    (loop ctx (budget + 7 + 3 * count) ⟨p.roots.size⟩ .body l).Peaks p.rootSlots
      (p.roots.size + if count = 0 then 6 else 7) fun v k => k.object? v = some (.int 0) ∧
        p.During v k := by
  -- what is held is the same for every call, so the count is all that changes
  induction count generalizing n l with
  | zero =>
    obtain rfl : n = 0 := Int64.toInt_inj.mp hn
    rw [if_pos rfl, ← Nat.max_zero (p.roots.size + 6)]
    refine hl.loop_body hC hcap fun u k hu hk hd => ?_
    rw [if_pos rfl] at hd
    have hdone : Step.ofExpr ctx (nestedEval ctx (budget + 4)) (budget + 4) u k =
        .ok (.done u) k := by
      rw [Step.ofExpr, bind_of_ok (datum_apply ((hk.kept hu).trans hd))]
      rfl
    exact peaks_loop_done hk.slot (peaks_of_ok hdone ⟨u, rfl, (hk.kept hu).trans hd, hk.toDuring⟩)
  | succ count ih =>
    have hpos : 0 < n := by
      rw [Int64.lt_iff_toInt_lt, hn]
      exact Int.natCast_pos.mpr (Nat.succ_pos count)
    have hdepth : (p.roots.size + if count + 1 = 0 then 6 else 7) = max (p.roots.size + 6)
        (max (p.roots.size + 2 + 5) (p.roots.size + if count = 0 then 6 else 7)) := by
      rw [if_neg (Nat.succ_ne_zero count)]
      split <;> omega
    obtain ⟨b, hb, hbudget⟩ : ∃ b, budget + 7 + 3 * (count + 1) = b + 7 ∧
      b + 4 = budget + 7 + 3 * count :=
      ⟨budget + 3 + 3 * count, by omega, by omega⟩
    rw [hdepth, hb]
    refine hl.loop_body hC hcap fun u k hu hk hcall => ?_
    rw [if_neg (Int64.ne_of_lt hpos).symm] at hcall
    have hck := hk.toDuring.counter hC
    have hcallk : k.Unfolds (.form [.word "f", .lesser]) u := (hcall.saved hk.saves hu :
      ({ k with currentEnv := p.currentEnv } : Heap).Unfolds (.form [.word "f", .lesser]) u)
    have hused := hk.usedWith_le hu (hC.reachable (.anchor .current)).1
    have hkcap : k.capacity = p.capacity := hk.saves.capacity
    have hturn : (Step.ofExpr ctx (nestedEval ctx (b + 4)) (b + 2 + 2) u k).Peaks p.rootSlots
      (p.roots.size + 2 + 5)
        fun st m => st = .body body ∧ p.Counting params (n - 1) u m :=
      hk.toDuring.call_turn hC hcallk (hk.reachable hu) hk.reachable_env
        (fun ho hs => hck.supplies_operator hk.wellFormed hk.passes ho hs (by decide))
        (fun hu hr => hck.supplies_lesser hk.wellFormed hk.passes hk.reachable_env hu hr hpos)
        (by omega) (by omega)
        (b + 2)
    refine peaks_loop_again hk.slot (hturn.mono fun st m hm => ?_)
    obtain ⟨rfl, hm⟩ := hm
    have hbody : m.isLive body = true :=
      hm.wellFormed.isLive_of_reachable (by simp) (hm.reachable (hC.reachable (.anchor .current)).2)
    have hlast : (n - 1).toInt = count := by
      have hone : (-1 : Int64).toInt = -1 := rfl
      rw [toInt_sub_one hpos, hn, hone]
      omega
    refine ⟨.body, body, rfl, hm.lt_size, ?_⟩
    rw [hbudget]
    exact ih (hm.put hbody) hlast

/-- A call of the procedure with a positive integer comes to zero.  However great it is, the root
stack gets eight slots deeper, no more and no less. -/
lemma Counter.eval_peaks (budget : Nat) (hC : h.Counter ctx h.currentEnv params body)
    (hw : h.WellFormed) (hl : h.isLive e = true)
    (he : h.Unfolds (.form [.word "f", .leaf (.int n)]) e) (hn : 0 < n)
    (hcap : h.usedWith [e] + 10 ≤ h.capacity) {ε : Type} :
    (Evaluator.eval ctx (budget + 9 + 3 * n.toInt.toNat) e h : Outcome ε Handle).Peaks h.rootSlots
    (h.roots.size + 8)
      fun v k => k.object? v = some (.int 0) ∧ k.roots = h.roots ∧ h.Saves [] k := by
  -- the frame to return to has a slot, and then the call
  set p : Heap := { h with roots := h.roots.push h.currentEnv } with hp
  set l : Heap := { p with roots := p.roots.push e } with hl'
  have hhp : h.Saves [] p := (Saves.refl hw (by simp)).push hw.current
  have hpl : p.Saves [] l := (Saves.refl hhp.wellFormed (by simp)).push hl
  have hCp : p.Counter ctx p.currentEnv params body := hC.saved hhp (.anchor .current)
  have hdl : p.During e l := ⟨hpl.wellFormed, hpl, rfl, rfl⟩
  have hpused : p.usedWith [] ≤ h.usedWith [e] := by
    refine usedWith_le_of_reachable rfl fun v _ hv => (reachable_of_push hv).mono fun w hw => ?_
    obtain rfl := List.mem_singleton.mp hw
    exact .anchor .current
  have hlused : l.usedWith [] ≤ h.usedWith [e] := by
    refine usedWith_le_of_reachable rfl fun v _ hv => ?_
    refine (reachable_of_push (reachable_of_push (k := p) hv)).mono fun w hw => ?_
    rcases List.mem_pair.mp hw with rfl | rfl
    · exact .anchor .current
    · exact .of_extra List.mem_cons_self
  have hcapl : l.capacity = h.capacity := rfl
  have hcapp : p.capacity = h.capacity := rfl
  have hsize : p.roots.size = h.roots.size + 1 := Array.size_push _
  obtain ⟨count, hcount⟩ : ∃ count : Nat, n.toInt = count :=
    Int.eq_ofNat_of_zero_le (Int.le_of_lt (by simpa [Int64.lt_iff_toInt_lt] using hn))
  have hpos : count ≠ 0 := by
    rintro rfl
    exact Int64.ne_of_lt hn (Int64.toInt_inj.mp hcount.symm)
  have hframe : h.IsFrame h.currentEnv := by
    obtain ⟨_, ⟨c, _, hch, -⟩, -⟩ := hC.recursive
    exact hch.isFrame
  have hel : l.Unfolds (.form [.word "f", .leaf (.int n)]) e := he
  have her : l.Reachable [] e := .of_slot hdl.slot
  have hcl := hdl.counter hCp
  obtain ⟨b, hb, hbudget⟩ : ∃ b, budget + 9 + 3 * n.toInt.toNat = b + 2 + 1 ∧
    b + 2 = budget + 1 + 7 + 3 * count :=
    ⟨budget + 6 + 3 * count, by rw [hcount, Int.toNat_natCast]; omega, by omega⟩
  have hturn : (Step.ofExpr ctx (nestedEval ctx (b + 2)) (b + 2) e l).Peaks p.rootSlots
    (p.roots.size + 2 + 2)
      fun st k => st = .body body ∧ p.Counting params n e k := by
    refine hdl.call_turn hCp hel her (.anchor .current) (fun ho hs => ?_)
      (fun hu hr => supplies_int hcl.hasSentinels hframe hr hu) (Nat.le_refl 2) (by omega) b
    obtain ⟨c, s, hch, hs', -, hbound⟩ := ho
    obtain rfl := Option.some.inj (hs.symm.trans hs')
    exact Means.supplies (.bound (hdl.wellFormed.table _ _ hs).2 hch hbound) hcl.hasSentinels
      (hdl.wellFormed.reachable_symbol hs) hframe
  have hloop : (loop ctx (b + 2 + 1) ⟨p.roots.size⟩ .expr l).Peaks p.rootSlots
      (max (p.roots.size + 2 + 2) (p.roots.size + 7)) fun v k => k.object? v = some (.int 0) ∧
      p.During v k := by
    refine peaks_loop_again hdl.slot (hturn.mono fun st k hk => ?_)
    obtain ⟨rfl, hk⟩ := hk
    have hbody : k.isLive body = true :=
      hk.wellFormed.isLive_of_reachable (by simp)
        (hk.reachable (hCp.reachable (.anchor .current)).2)
    refine ⟨.body, body, rfl, hk.lt_size, ?_⟩
    have hpeaks := (hk.put hbody).loop_peaks (budget + 1) hCp (by omega) count hcount
    rwa [if_neg hpos, ← hbudget] at hpeaks
  have hdepth : h.roots.size + 8 = max (h.roots.size + 2)
    (max (p.roots.size + 2 + 2) (p.roots.size + 7)) := by omega
  rw [hb, hdepth]
  refine peaks_eval rfl hframe ?_
  rw [← hsize]
  refine hloop.mono fun v k hk => ?_
  obtain ⟨hv, hk⟩ := hk
  have hroots : k.roots = (h.roots.push h.currentEnv).push v := hk.roots
  have hpop : k.roots.pop.pop = h.roots := by rw [hroots, Array.pop_push, Array.pop_push]
  refine ⟨by simp [hroots], ?_, hv, hpop, ?_⟩
  · obtain ⟨parent, names, values, hf⟩ := hframe
    exact ⟨parent, names, values, (hk.kept (.anchor .current)).trans hf⟩
  · have hs : h.Saves [] { k with currentEnv := h.currentEnv } := hhp.trans hk.saves (by simp)
    rw [hpop]
    exact hs.dropRoots

end Heap

end ArenaScheme
