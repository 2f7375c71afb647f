/-
# Interning is a bijection

Symbols are compared by their handles, so every name must have one symbol and every symbol must be
the one of its name.  The table of symbols guarantees both: it lists permanent cells only, under the
names that they hold, and it lists every symbol there is.

Two things keep it so.  No cell but a new permanent one ever becomes a symbol, and that happens when
its name is interned for the first time; and neither collections nor allocations touch a permanent
cell, while pairs and frames, which may be changed, are no symbols.  The invariant is one of all
elementary changes, hence of all uses of a heap and of a machine, as long as the heap is not
replaced by a new one.

There is one way round the table: a host may put an object of its own making into a cell, and if it
makes a symbol then this is one that the table does not know.  So hosts have to leave symbols to the
table, which is said wherever a use of a heap is spoken of.
-/
import ArenaScheme.Proofs.Discipline.Evaluator

namespace ArenaScheme

/-- The heap that an action leaves, if it leaves one. -/
def Outcome.heap? {ε α : Type} : Outcome ε α → Option Heap
  | .ok _ k | .error _ k => some k
  | .halt _ => none

lemma Outcome.Leaving.of_heap? {ε α : Type} {P : Heap → Prop} {o : Outcome ε α} (ho : o.Leaving P)
    {k : Heap} (hk : o.heap? = some k) : P k := by
  cases ho with
  | ok h => exact Option.some.inj hk ▸ h
  | error h => exact Option.some.inj hk ▸ h
  | halt => cases hk

lemma Datum.type_ne_symbol_of_isOrdinary {d : Datum} (hd : d.isOrdinary = true) :
    d.type ≠ .symbol := by
  simp only [isOrdinary, Bool.and_eq_true, bne_iff_ne] at hd
  exact hd.2

namespace Heap

/-- The table of symbols lists permanent symbols under their own names, and it lists them all. -/
structure Interned (h : Heap) : Prop where
  layout : h.regionEnd ≤ h.cells.size
  listed : ∀ name v, h.symbols[name]? = some v →
    h.regionEnd ≤ v.index ∧ h.object? v = some (.symbol name)
  complete : ∀ name v, h.object? v = some (.symbol name) → h.symbols[name]? = some v

variable {h k : Heap} {d : Datum} {v : Handle} {host : Array HostProcedure}

lemma interned_ofSizing (s : Sizing) (b : Bool) :
    ({ ofSizing s with audited := b } : Heap).Interned := by
  refine ⟨(wellFormed_ofSizing s).layout, by simp [ofSizing], fun name v hv => ?_⟩
  rcases object?_ofSizing hv with ⟨h1, h2⟩ | ⟨-, h2⟩
  · have hall : ∀ d ∈ sentinels, d.type ≠ .symbol := by decide
    exact absurd rfl (hall _ (List.mem_of_getElem? h2))
  · cases h2

/-! ## Elementary changes -/

/-- The invariant survives a change of the cells if no symbol appears and no permanent one is
lost. -/
lemma Interned.of_objects (hi : h.Interned) (hs : k.symbols = h.symbols)
    (hr : k.regionEnd = h.regionEnd) (hsize : h.cells.size ≤ k.cells.size)
    (hold : ∀ v name, h.regionEnd ≤ v.index → h.object? v = some (.symbol name) →
      k.object? v = some (.symbol name))
    (hnew : ∀ v name, k.object? v = some (.symbol name) → h.object? v = some (.symbol name)) :
    k.Interned := by
  refine ⟨hr ▸ Nat.le_trans hi.layout hsize, fun name v hv => ?_, fun name v hv => ?_⟩
  · rw [hs] at hv
    obtain ⟨hp, hd⟩ := hi.listed name v hv
    exact ⟨hr ▸ hp, hold v name hp hd⟩
  · rw [hs]
    exact hi.complete name v (hnew v name hv)

lemma Interned.of_sameFrame (hi : h.Interned) (hf : SameFrame h k)
    (hold : ∀ v name, h.regionEnd ≤ v.index → h.object? v = some (.symbol name) →
      k.object? v = some (.symbol name))
    (hnew : ∀ v name, k.object? v = some (.symbol name) → h.object? v = some (.symbol name)) :
    k.Interned :=
  hi.of_objects hf.symbols hf.regionEnd (Nat.le_of_eq hf.size.symm) hold hnew

/-- The invariant does not depend on the root stack or on the current frame. -/
lemma Interned.congr (hi : h.Interned) (hc : k.cells = h.cells) (hs : k.symbols = h.symbols)
    (hr : k.regionEnd = h.regionEnd) : k.Interned := by
  refine hi.of_objects hs hr (by rw [hc]) (fun v name _ hv => ?_) (fun v name hv => ?_)
  · rwa [object?, hc, ← object?]
  · rwa [object?, hc, ← object?] at hv

lemma object?_of_reclaim {i : Nat} (hv : (h.reclaim i).object? v = some d) :
    h.object? v = some d := by
  by_cases hi : i = v.index
  · subst hi
    have hlt : v.index < (h.setHeadPrevious h.free (some v.index)).cells.size := by
      rw [(SameFrame.setHeadPrevious h h.free (some v.index)).size,
        ← (SameFrame.reclaim h v.index).size]
      exact lt_size_of_object? hv
    change ((h.setHeadPrevious h.free (some v.index)).setCell v.index _).object? v = _ at hv
    rw [object?_setCell _ hlt, if_pos rfl] at hv
    cases hv
  · rwa [object?_reclaim_ne hi] at hv

lemma object?_of_sweep (marks : Array Bool) (n freed : Nat) (h : Heap)
    (hv : (sweep marks n freed h).2.object? v = some d) : h.object? v = some d := by
  induction n generalizing freed h with
  | zero => exact hv
  | succ n ih =>
    rw [sweep] at hv
    split at hv
    · exact ih _ _ hv
    · exact object?_of_reclaim (ih _ _ hv)
    · exact object?_of_reclaim (ih _ _ hv)

/-- No object comes into being in a collection. -/
lemma object?_of_collectKeeping {extra : List Handle} {c : Collection}
    (hc : h.collectKeeping extra = .ok (c, k)) (hv : k.object? v = some d) :
    h.object? v = some d := by
  dsimp only [collectKeeping] at hc
  split at hc
  · simp at hc
  · obtain ⟨rfl, rfl⟩ := Prod.mk.inj (Except.ok.inj hc)
    exact object?_of_sweep _ _ _ { h with free := none, freeCount := 0 } hv

/-- Only the cell that is claimed holds another object. -/
lemma object?_claim_ne {i : Nat} (hc : h.claim i d = .ok k) (hv : i ≠ v.index) :
    k.object? v = h.object? v := by
  unfold claim at hc
  split at hc
  · obtain rfl := Except.ok.inj hc
    change ((h.setHeadPrevious _ none).setCell i d).object? v = _
    rw [object?, cells_setCell, Array.getElem?_setIfInBounds_ne hv, ← object?,
      object?_setHeadPrevious]
  · simp at hc
  · simp at hc

lemma Interned.collect (hi : h.Interned) {extra : List Handle} {c : Collection}
    (hc : h.collectKeeping extra = .ok (c, k)) : k.Interned :=
  hi.of_sameFrame (.collectKeeping hc)
    (fun _ _ hp hv => (object?_collectKeeping_outside hc (.inr hp)).trans hv)
    fun _ _ hv => object?_of_collectKeeping hc hv

lemma Interned.claim (hi : h.Interned) {i : Nat} (hd : d.type ≠ .symbol)
    (hc : h.claim i d = .ok k) : k.Interned := by
  refine hi.of_sameFrame (.claim hc) (fun v name _ hv => object?_of_claim hc hv) fun v name hv => ?_
  by_cases hvi : i = v.index
  · have hcell := cells_of_claim hc
    rw [hvi, (object?_eq_some.mp hv).1, Option.some.injEq] at hcell
    exact absurd (congrArg Datum.type hcell.symm) hd
  · rwa [object?_claim_ne hc hvi] at hv

/-- An object that is no symbol may be replaced by another one. -/
lemma Interned.setCell (hi : h.Interned) {d' : Datum} (hv : h.cells[v.index]? = some d)
    (hd : d.type ≠ .symbol) (hd' : d'.type ≠ .symbol) : (h.setCell v.index d').Interned := by
  have hs : v.index < h.cells.size := (Array.getElem?_eq_some_iff.mp hv).1
  refine hi.of_sameFrame (SameFrame.setCell h v.index d')
    (fun w name _ hw => ?_) fun w name hw => ?_
  · have hne : v ≠ w := by
      rintro rfl
      rw [(object?_eq_some.mp hw).1, Option.some.injEq] at hv
      exact hd (hv ▸ rfl)
    exact (object?_setCell_of_ne hne).trans hw
  · have hne : v ≠ w := by
      rintro rfl
      rw [object?_setCell _ hs] at hw
      simp only [if_pos] at hw
      split at hw
      · cases hw
      · exact hd' (Option.some.inj hw ▸ rfl)
    rwa [object?_setCell_of_ne hne] at hw

lemma Interned.append (hi : h.Interned) (hd : d.type ≠ .symbol) :
    (h.addPermanent d).2.Interned := by
  refine hi.of_objects rfl rfl (by simp [addPermanent]) (fun v name _ hv => ?_) fun v name hv => ?_
  · exact (object?_push (lt_size_of_object? hv) rfl).trans hv
  · have hcell := (object?_eq_some.mp hv).1
    rw [addPermanent, Array.getElem?_push] at hcell
    split at hcell
    · exact absurd (congrArg Datum.type (Option.some.inj hcell)) hd
    · exact object?_eq_some.mpr ⟨hcell, rfl⟩

lemma Interned.intern (hi : h.Interned) {name : String} (hn : h.symbols[name]? = none) :
    (h.intern name).2.Interned := by
  rw [intern_of_none hn]
  have hold : ∀ {w : Handle} {e : Datum}, h.object? w = some e →
      ({ h with cells := h.cells.push (.symbol name), symbols :=
        h.symbols.insert name ⟨h.cells.size⟩ } :
        Heap).object? w = some e :=
    fun hw => (object?_push (lt_size_of_object? hw) rfl).trans hw
  refine ⟨Nat.le_trans hi.layout (by simp), fun other v hv => ?_, fun other v hv => ?_⟩
  · dsimp only at hv
    rw [Std.TreeMap.getElem?_insert] at hv
    split at hv
    · next he =>
      obtain rfl : name = other := by simpa using he
      obtain rfl := Option.some.inj hv
      exact ⟨hi.layout, object?_eq_some.mpr ⟨by simp, rfl⟩⟩
    · obtain ⟨hp, hd⟩ := hi.listed other v hv
      exact ⟨hp, hold hd⟩
  · dsimp only
    rw [Std.TreeMap.getElem?_insert]
    have hcell := (object?_eq_some.mp hv).1
    dsimp only at hcell
    rw [Array.getElem?_push] at hcell
    split at hcell
    · next hs =>
      obtain rfl : name = other := by simpa using hcell
      rw [if_pos (by simp), ← hs]
    · have hv' := hi.complete other v (object?_eq_some.mpr ⟨hcell, rfl⟩)
      rw [if_neg, hv']
      intro he
      obtain rfl : name = other := by simpa using he
      rw [hn] at hv'
      cases hv'

/-- The invariant holds, and the symbols listed in `t` are still listed. -/
def Lists (t : Std.TreeMap String Handle) (h : Heap) : Prop :=
  h.Interned ∧ ∀ (name : String) (v : Handle), t[name]? = some v → h.symbols[name]? = some v

lemma Edits.lists {t : Std.TreeMap String Handle} (hP : HostPreserves host (Lists t))
    (he : Edits host h k) (hl : h.Lists t) : k.Lists t := by
  refine he.preserves (P := Lists t) (fun h k h1 hl => ?_) hl
  obtain ⟨hi, ht⟩ := hl
  cases h1 with
  | collect hc => exact ⟨hi.collect hc, (SameFrame.collectKeeping hc).symbols ▸ ht⟩
  | claim hd hc =>
    exact ⟨hi.claim (Datum.type_ne_symbol_of_isOrdinary hd) hc, (SameFrame.claim hc).symbols ▸ ht⟩
  | pair hp => exact ⟨hi.setCell hp (by simp [Datum.type]) (by simp [Datum.type]), ht⟩
  | frame hf => exact ⟨hi.setCell hf (by simp [Datum.type]) (by simp [Datum.type]), ht⟩
  | append hd => exact ⟨hi.append (Datum.type_ne_symbol_of_isOrdinary hd), ht⟩
  | intern hn =>
    refine ⟨hi.intern hn, fun other v hv => ?_⟩
    rw [intern_of_none hn]
    dsimp only
    rw [Std.TreeMap.getElem?_insert, if_neg, ht other v hv]
    intro he
    obtain rfl : _ = other := by simpa using he
    have hv' := ht _ v hv
    rw [hn] at hv'
    cases hv'
  | roots => exact ⟨hi.congr rfl rfl rfl, ht⟩
  | currentEnv => exact ⟨hi.congr rfl rfl rfl, ht⟩
  | host hp hr => exact hP.edit hp hr ⟨hi, ht⟩

end Heap

/-! ## Uses of a heap and of a machine -/

open HeapM

variable {ε α β : Type} {host : Array HostProcedure} {W : Nat → Prop} {s : Prop} {h k : Heap}

namespace Orderly

lemma edits [Blame ε] {x : HeapM ε α} (hx : Orderly host (fun _ => True) True x) (h : Heap) :
    (x h).Leaving (Heap.Edits host h) :=
  (hx h).leaving.mono fun _ hr => hr.edits

lemma edits_of_heap? [Blame ε] {x : HeapM ε α} (hx : Orderly host (fun _ => True) True x)
    (hk : (x h).heap? = some k) : h.Edits host k :=
  (hx.edits h).of_heap? hk

lemma reporting {x : EvalM α} (hx : Orderly host W s x) :
    Orderly host W s (HeapM.reporting x) := by
  intro h
  have ho := hx h
  unfold HeapM.reporting
  revert ho
  cases x h with
  | ok a k => exact id
  | error e k =>
    intro ho
    have hf : Orderly host W s (do HeapM.fail (← failureOf e) : HeapM Failure α) :=
      .bind (.bind (.expect _ _ _) fun _ => .pure _) fun _ => .fail _
    exact (hf k).trans ho.1
  | halt c => exact id

lemma bindForeign (name : String) (code : Native) :
    Orderly host W s (Interpreter.bindForeign name code) :=
  .bind (.intern name) fun _ => .bind (.allocPermanent rfl) fun _ => .bind (.observe _) fun _ =>
    .bind (.define _ _ _) fun _ => .pure _

end Orderly

/-- Whatever follows goes on with what the first action leaves. -/
lemma leaving_bind {x : HeapM ε α} {f : α → HeapM ε β} (hx : (x h).Leaving (h.Edits host))
    (hf : ∀ a k, (f a k).Leaving (k.Edits host)) : ((x >>= f) h).Leaving (h.Edits host) := by
  rw [bind_apply]
  revert hx
  cases x h with
  | ok a k =>
    rintro ⟨hk⟩
    exact (hf a k).mono fun _ hl => Relation.ReflTransGen.trans hk hl
  | error e k =>
    rintro ⟨⟩
    exact .error ‹_›
  | halt c => exact fun _ => .halt

lemma leaving_keywords (host : Array HostProcedure) (h : Heap) :
    (Keywords.intern h : Outcome ε Keywords).Leaving (h.Edits host) := by
  let _ : Blame ε := ⟨fun _ _ => True, fun _ h => h⟩
  have hword : ∀ (name : String) (k : Heap),
      (HeapM.intern name k : Outcome ε Handle).Leaving (k.Edits host) :=
    fun name k => Orderly.edits (.intern name) k
  unfold Keywords.intern
  iterate 17
    refine leaving_bind (hword _ _) ?_
    clear h
    intro v h
  exact .ok .refl

lemma leaving_install (procedures : Array HostProcedure) (h : Heap) :
    (Interpreter.install procedures h).Leaving (h.Edits host) := by
  refine leaving_bind (leaving_keywords host h) fun kw k => ?_
  exact Orderly.edits (.bind (.reporting (.forM (fun _ => .bindForeign _ _) _)) fun _ => .pure _) k

namespace Heap

/-- A use that is made of a heap, short of replacing it by a new one.  Anything may be put into a
cell, with one exception: a symbol is made by interning its name, not by allocating it. -/
inductive Use : Heap → Heap → Prop
  | operation {h k : Heap} (op : Operation) (hop : op ≠ .reset)
      (hk : (op.perform h).heap? = some k) : Use h k
  | object {h k : Heap} {d : Datum} (hd : d.type ≠ .symbol)
      (hk : (HeapM.alloc d h).heap? = some k) : Use h k
  | read {h k : Heap} (scan : Scan) (hk : (HeapM.read scan h).heap? = some k) : Use h k
  | keywords {h k : Heap} (hk : (Keywords.intern h : Outcome Handle Keywords).heap? = some k) :
      Use h k
  | expand {h k : Heap} (kw : Keywords) (operands : Handle)
      (hk : (Let.expand kw operands h).heap? = some k) : Use h k

lemma Operation.edits (host : Array HostProcedure) {op : Operation} (hop : op ≠ .reset) (h : Heap) :
    (op.perform h).Leaving (Edits host h) := by
  have orderly : ∀ {x : EvalM Unit}, Orderly host (fun _ => True) True x →
      (x h).Leaving (Edits host h) := fun hx => hx.edits h
  cases op with
  | reset => exact absurd rfl hop
  | acquire v =>
    by_cases hlt : h.roots.size < h.rootSlots
    · have hr : (HeapM.acquire v : EvalM Root) h = .ok _ _ := if_pos hlt
      rw [perform, bind_of_ok hr]
      exact .ok (.single (.roots h _))
    · have hr : (HeapM.acquire v : EvalM Root) h = .halt _ := if_neg hlt
      rw [perform, bind_of_halt hr]
      exact .halt
  | release root =>
    by_cases hs : h.roots.size = root.slot + 1
    · obtain ⟨v, -, hr⟩ := release_apply (ε := Handle) hs
      rw [perform, bind_of_ok hr]
      exact .ok (.single (.roots h _))
    · have hr : ∃ c, (HeapM.release root : EvalM Handle) h = .halt c := by
        unfold HeapM.release
        split
        · exact ⟨_, if_neg hs⟩
        · exact ⟨_, rfl⟩
      obtain ⟨c, hr⟩ := hr
      rw [perform, bind_of_halt hr]
      exact .halt
  | popFrame =>
    refine orderly (.bind .currentEnv fun _ => .bind (.expect _ _ _) fun parts => ?_)
    split
    · exact .switchEnv _
    · exact .halt id
  | cons a b => exact orderly (.bind (.cons _ _) fun _ => .pure _)
  | makeError kind message =>
    exact orderly (.bind (.ite (fun _ => .pure _) fun _ => .recover (ε := Handle) (.alloc rfl))
      fun _ => .pure _)
  | makeForeign name code => exact orderly (.bind (.allocPermanent rfl) fun _ => .pure _)
  | intern name => exact orderly (.bind (.intern name) fun _ => .pure _)
  | list vs => exact orderly (.bind (.list vs) fun _ => .pure _)
  | append front back => exact orderly (.bind (.append _ _) fun _ => .pure _)
  | setCar pair v => exact orderly (.setCar _ _)
  | setCdr pair v => exact orderly (.setCdr _ _)
  | put root v => exact orderly (.store trivial v)
  | setCurrentEnv env => exact orderly (.setCurrentEnv env)
  | pushFrame names values => exact orderly (.bind (.pushFrame _ _) fun _ => .pure _)
  | define env symbol v => exact orderly (.bind (.define _ _ _) fun _ => .pure _)
  | assign env symbol v => exact orderly (.bind (.assign _ _ _) fun _ => .pure _)
  | lookup env symbol => exact orderly (.bind (.lookup _ _) fun _ => .pure _)
  | collect => exact orderly (.bind .collect fun _ => .pure _)
  | _ => exact orderly (.bind (.alloc rfl) fun _ => .pure _)

lemma hostPreserves_nil (P : Heap → Prop) : HostPreserves #[] P := fun p hp => by simp at hp

/-- An object that is no symbol may be put into a cell. -/
lemma Lists.alloc {t : Std.TreeMap String Handle} (hl : h.Lists t) (hd : d.type ≠ .symbol)
    (hk : (HeapM.alloc d h).heap? = some k) : k.Lists t := by
  unfold HeapM.alloc at hk
  cases hp : h.prepare d.children with
  | error c =>
    rw [hp] at hk
    cases hk
  | ok m =>
    rw [hp] at hk
    have hm : m.Lists t := (prepare_edits #[] hp).1.lists (hostPreserves_nil _) hl
    dsimp only at hk
    split at hk
    · exact Option.some.inj hk ▸ hm
    · split at hk
      · next hc =>
        obtain rfl := Option.some.inj hk
        exact ⟨hm.1.claim hd hc, (SameFrame.claim hc).symbols ▸ hm.2⟩
      · cases hk

lemma Use.lists {t : Std.TreeMap String Handle} (hu : Use h k) (hl : h.Lists t) : k.Lists t := by
  suffices he : ∀ {k}, Edits #[] h k → k.Lists t by
    cases hu with
    | operation op hop hk => exact he ((Operation.edits #[] hop h).of_heap? hk)
    | object hd hk => exact hl.alloc hd hk
    | read scan hk => exact he ((Orderly.read scan).edits_of_heap? hk)
    | keywords hk => exact he ((leaving_keywords #[] h).of_heap? hk)
    | expand kw operands hk => exact he ((Orderly.expand kw operands).edits_of_heap? hk)
  exact fun he => he.lists (hostPreserves_nil _) hl

end Heap

/-- What is demanded of the procedures of the host: they give the root slots back that they take,
and all they do to the heap is to use it; so they allocate no symbols either. -/
structure HostObeys (host : Array HostProcedure) : Prop where
  balanced : HostBalanced host
  uses : ∀ p ∈ host, ∀ args h k, (p args h).heap? = some k → Relation.ReflTransGen Heap.Use h k

/-- A use that is made of a machine, short of starting it over. -/
inductive MachineUse (host : Array HostProcedure) : Heap → Heap → Prop
  | heap {h k : Heap} (hu : h.Use k) : MachineUse host h k
  | install {h k : Heap} (hk : (Interpreter.install host h).heap? = some k) : MachineUse host h k
  | defineHost {h k : Heap} (name : String) (slot : Nat)
      (hk : (Interpreter.defineHost name slot h).heap? = some k) : MachineUse host h k
  | read {h k : Heap} (text : String) (pos : Nat)
      (hk : (Interpreter.read text pos h).heap? = some k) : MachineUse host h k
  | evaluate {h k : Heap} {ctx : Context} (hc : ctx.host = host) (budget : Nat) (expr env : Handle)
      (hk : (Evaluator.evaluate ctx budget expr env h : Outcome Handle Handle).heap? = some k) :
      MachineUse host h k
  | run {h k : Heap} {ctx : Context} (hc : ctx.host = host) (budget : Nat) (text : String)
      (hk : (Interpreter.run ctx budget text h).heap? = some k) : MachineUse host h k

lemma HostObeys.preserves (ho : HostObeys host) (t : Std.TreeMap String Handle) :
    Heap.HostPreserves host (Heap.Lists t) := by
  intro p hp args h hl
  have hk : ∀ k, (p args h).heap? = some k → k.Lists t := by
    intro k hk
    have hu := ho.uses p hp args h k hk
    clear hk
    induction hu with
    | refl => exact hl
    | tail _ hu ih => exact hu.lists ih
  revert hk
  cases p args h with
  | ok v k => exact fun hk => .ok (hk k rfl)
  | error e k => exact fun hk => .error (hk k rfl)
  | halt c => exact fun _ => .halt

lemma MachineUse.lists (ho : HostObeys host) {t : Std.TreeMap String Handle}
    (hu : MachineUse host h k) (hl : h.Lists t) : k.Lists t := by
  suffices he : ∀ {k}, h.Edits host k → k.Lists t by
    cases hu with
    | heap hu => exact hu.lists hl
    | install hk => exact he ((leaving_install host h).of_heap? hk)
    | defineHost name slot hk =>
      exact he ((Orderly.bindForeign name _).reporting.edits_of_heap? hk)
    | read text pos hk =>
      have hread : Orderly host (fun _ => True) True (Interpreter.read text pos) :=
        .bind (.readNext _) fun _ => .pure _
      exact he (hread.edits_of_heap? hk)
    | evaluate hc budget expr env hk =>
      subst hc
      exact he ((Orderly.evaluate ho.balanced budget expr env).edits_of_heap? hk)
    | run hc budget text hk =>
      subst hc
      exact he ((Orderly.run ho.balanced budget text).edits_of_heap? hk)
  exact fun he => he.lists (ho.preserves t) hl

/-- The life of a heap: it begins empty, audited or not, and lasts for any number of uses.  A heap
that is reset is replaced by an empty one, and another life begins. -/
def Heap.Life (host : Array HostProcedure) (s : Sizing) (h : Heap) : Prop :=
  ∃ b, Relation.ReflTransGen (MachineUse host) { Heap.ofSizing s with audited := b } h

/-! ## One symbol for every name -/

/-- What one use of a machine preserves, any number of uses preserve. -/
lemma HostObeys.lists (ho : HostObeys host) {t : Std.TreeMap String Handle}
    (hu : Relation.ReflTransGen (MachineUse host) h k) (hl : h.Lists t) : k.Lists t := by
  induction hu with
  | refl => exact hl
  | tail _ hu ih => exact hu.lists ho ih

namespace Heap

lemma Life.interned (ho : HostObeys host) {s : Sizing} (hh : Life host s h) : h.Interned := by
  obtain ⟨b, hu⟩ := hh
  have hi := interned_ofSizing s b
  exact (ho.lists hu ⟨hi, fun _ _ hv => hv⟩).1

/-- What interning a name comes to: `v` is its symbol, and the heap `k` is `h` but for a new
permanent cell if there was no symbol of that name. -/
structure Interns (h : Heap) (name : String) (v : Handle) (k : Heap) : Prop where
  found : k.findSymbol name = some v
  permanent : h.regionEnd ≤ v.index
  holds : k.object? v = some (.symbol name)
  known : ∀ w, h.findSymbol name = some w → v = w ∧ k = h
  cells : ∀ i < h.cells.size, k.cells[i]? = h.cells[i]?
  freeCount : k.freeCount = h.freeCount
  liveCount : k.liveCount = h.liveCount
  collections : k.collections = h.collections

lemma Interned.interns (hi : h.Interned) (name : String) :
    h.Interns name (h.intern name).1 (h.intern name).2 := by
  cases hs : h.symbols[name]? with
  | some v =>
    obtain ⟨hp, hd⟩ := hi.listed name v hs
    rw [intern_of_some hs]
    exact ⟨hs, hp, hd, fun w hw => ⟨Option.some.inj (hs.symm.trans hw), rfl⟩,
      fun _ _ => rfl, rfl, rfl, rfl⟩
  | none =>
    rw [intern_of_none hs]
    refine ⟨by simp [findSymbol], hi.layout, object?_eq_some.mpr ⟨by simp, rfl⟩, fun w hw => ?_,
      fun i hlt => ?_, rfl, rfl, rfl⟩
    · rw [findSymbol, hs] at hw
      cases hw
    · dsimp only
      rw [Array.getElem?_push, if_neg (Nat.ne_of_lt hlt)]

/-- A symbol at the beginning of a text is read as the symbol of its name. -/
lemma read_symbol (h : Heap) {scan : Scan} {lexeme : Lexeme} {rest : List Lexeme} {name : String}
    (hl : scan.lexemes = lexeme :: rest) (ht : lexeme.token = .literal (.symbol name)) :
    HeapM.read scan h =
      .ok (some ⟨(h.intern name).1, lexeme.stop, ⟨rest, scan.ending⟩⟩) (h.intern name).2 := by
  have htake : Reader.take .datum [] lexeme h =
      .ok (.done (h.intern name).1) (h.intern name).2 := by
    simp only [Reader.take, Reader.advance, ht]
    cases Reader.isDot (.symbol name) <;> rfl
  rw [HeapM.read, hl, Reader.readFrom, bind_of_ok htake]
  rfl

/-- Interning is a bijection as long as a heap lasts and no symbol is allocated.  The table of
symbols is one-to-one between the names that have been interned and all the symbols that there are,
which are permanent; a name that has a symbol has it from then on, be it asked for, interned or read
as a symbol; and interning changes no cell and no count. -/
theorem interning_bijective (ho : HostObeys host) {s : Sizing} (hh : Life host s h) :
    h.Interned ∧
      (∀ v w name other, h.object? v = some (.symbol name) → h.object? w = some (.symbol other) →
        (v = w ↔ name = other)) ∧
      (∀ name, h.Interns name (h.intern name).1 (h.intern name).2) ∧
      (∀ (scan : Scan) lexeme rest name, scan.lexemes = lexeme :: rest →
        lexeme.token = .literal (.symbol name) → HeapM.read scan h =
          .ok (some ⟨(h.intern name).1, lexeme.stop, ⟨rest, scan.ending⟩⟩) (h.intern name).2) ∧
      ∀ k, Relation.ReflTransGen (MachineUse host) h k → ∀ name v, h.findSymbol name = some v →
        k.findSymbol name = some v ∧ k.intern name = (v, k) := by
  have hi := hh.interned ho
  refine ⟨hi, fun v w name other hv hw => ⟨?_, ?_⟩, hi.interns,
    fun _ _ _ _ hl ht => h.read_symbol hl ht, fun k hu name v hv => ?_⟩
  · rintro rfl
    cases hv.symm.trans hw
    rfl
  · rintro rfl
    exact Option.some.inj ((hi.complete name v hv).symm.trans (hi.complete name w hw))
  · have hk := (ho.lists hu ⟨hi, fun _ _ hv => hv⟩).2 name v hv
    exact ⟨hk, intern_of_some hk⟩

/-- A procedure of the host that makes an integer. -/
def counting : HostProcedure := fun _ => HeapM.makeInt 7

theorem interning_bijective_collected : HostObeys #[counting] ∧ ∃ h k, Life #[counting] ⟨1, 1⟩ h ∧
    Relation.ReflTransGen (MachineUse #[counting]) h k ∧ k.collections = 1 ∧
    k.findSymbol "kept" = some ⟨6⟩ ∧ k.intern "kept" = (⟨6⟩, k) := by
  have ho : HostObeys #[counting] := by
    refine ⟨fun p hp args h => ?_, fun p hp args h k hk => ?_⟩ <;>
      obtain rfl : p = counting := by simpa using hp
    · have hr : Orderly #[] (fun _ => False) False (HeapM.makeInt 7) := .alloc rfl
      exact (hr h).leaving.mono fun _ hr => hr.roots
    · exact .single (.object (d := .int 7) (by decide) hk)
  -- the name is interned first, and then there is a collection
  have hw := ((wellFormed_ofSizing ⟨1, 1⟩).intern "kept").1
  obtain ⟨c, k, hrun, hc⟩ := collectKeeping_spec hw.toClosed [] (by simp)
  have hl : Life #[counting] ⟨1, 1⟩ ((ofSizing ⟨1, 1⟩).intern "kept").2 :=
    ⟨false, .single (.heap (.operation (.intern "kept") (by simp) rfl))⟩
  have hcoll : (HeapM.collect : EvalM Collection) ((ofSizing ⟨1, 1⟩).intern "kept").2 =
      .ok c k := by
    rw [HeapM.collect, attempt, Heap.collect, hrun]
  have hu : MachineUse #[counting] ((ofSizing ⟨1, 1⟩).intern "kept").2 k :=
    .heap (.operation .collect (by simp) (by rw [Operation.perform, bind_of_ok hcoll]; rfl))
  have hfound : ((ofSizing ⟨1, 1⟩).intern "kept").2.findSymbol "kept" = some ⟨6⟩ := by decide
  exact ⟨ho, _, k, hl, .single hu, hc.collections,
    (interning_bijective ho hl).2.2.2.2 k (.single hu) "kept" ⟨6⟩ hfound⟩

/-- A symbol that is allocated can be reclaimed, and the table does not list it: its name has
another symbol once it is interned.  And a name that has been interned need not be read as its
symbol, since it may be the name of a number. -/
theorem allocated_symbol_not_interned :
    (∃ k, HeapM.alloc (.symbol "x") (ofSizing ⟨1, 1⟩) = .ok ⟨4⟩ k ∧
      k.object? ⟨4⟩ = some (.symbol "x") ∧ k.Collectible 4 ∧ k.findSymbol "x" = none ∧
      (k.intern "x").2.object? ⟨4⟩ = some (.symbol "x") ∧
      (k.intern "x").2.object? ⟨6⟩ = some (.symbol "x") ∧ (k.intern "x").1 = ⟨6⟩) ∧
    ((ofSizing ⟨1, 1⟩).intern "12").2.findSymbol "12" = some ⟨6⟩ ∧
    ∃ x k, HeapM.read (Scan.ofString "12" 0) ((ofSizing ⟨1, 1⟩).intern "12").2 = .ok (some x) k ∧
      x.datum = ⟨4⟩ ∧ k.object? ⟨4⟩ = some (.int 12) := by
  have hscan : (Scan.ofString "12" 0).lexemes = [⟨.literal (.int 12), 0, 2⟩] := by decide +kernel
  refine ⟨⟨_, rfl, rfl, by decide, by decide, rfl, rfl, rfl⟩, by decide, ?_⟩
  rw [HeapM.read, hscan]
  exact ⟨_, _, rfl, rfl, rfl⟩

end Heap

end ArenaScheme
