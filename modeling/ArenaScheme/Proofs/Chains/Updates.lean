/-
# Definitions and assignments

An assignment changes one pair, and that pair belongs to the values of one frame only; a definition
changes one such pair, or one frame.  So in every environment the one map changes as it should, and
the others do not change at all, whichever ancestors the environments share.  An action that fails
has changed nothing that can be reached.
-/
import ArenaScheme.Proofs.Chains.Maps

namespace ArenaScheme

open Heap HeapM

namespace Heap

variable {h k : Heap} {e f g names values slot symbol t u v x rest : Handle} {l : Bindings}
  {c : Chain} {p : Option Handle} {cells extra : List Handle}

/-! ## Frames that are not concerned -/

lemma Along.reachable (hu : h.Along v u) (hr : h.Reachable extra v) : h.Reachable extra u := by
  induction hu with
  | refl _ => exact hr
  | tail hp _ ih => exact ih (hr.tail hp)

lemma Zips.congr (hz : h.Zips names values l) (hn : ∀ u, h.Along names u → k.pairAt u = h.pairAt u)
    (hv : ∀ u, h.Along values u → k.pairAt u = h.pairAt u) : k.Zips names values l := by
  induction hz with
  | stop hp => exact .stop (by rwa [hn _ (.refl _), hv _ (.refl _)])
  | cons hpn hpv _ ih =>
    refine .cons ((hn _ (.refl _)).trans hpn) ((hv _ (.refl _)).trans hpv)
      (ih (fun u hu => ?_) fun u hu => ?_)
    · exact hn u (.tail (pairAt_eq_some.mp hpn) hu)
    · exact hv u (.tail (pairAt_eq_some.mp hpv) hu)

/-- If each frame of a chain comes to stand for another map, so does the chain. -/
lemma Chains.map (F : Handle → Bindings → Bindings) (hch : h.Chains e c) (hr : h.Reachable extra e)
    (hk : ∀ g p names values l, h.Reachable extra g → h.object? g = some (.frame p names values) →
      h.Zips names values l → ∃ names' values', k.object? g = some (.frame p names' values') ∧
        k.Zips names' values' (F g l)) :
    k.Chains e (c.map fun g => (g.1, F g.1 g.2)) := by
  induction hch with
  | root hf hz =>
    obtain ⟨names', values', hf', hz'⟩ := hk _ _ _ _ _ hr hf hz
    exact .root hf' hz'
  | child hf hz _ ih =>
    obtain ⟨names', values', hf', hz'⟩ := hk _ _ _ _ _ hr hf hz
    exact .child hf' hz' (ih (.child hr hf (by simp [Datum.children])))

/-- A chain depends only on objects that can be reached from it. -/
lemma Chains.congr (hch : h.Chains e c) (hr : h.Reachable extra e)
    (hk : ∀ v, h.Reachable extra v → k.object? v = h.object? v) : k.Chains e c := by
  have hpair : ∀ {u}, h.Reachable extra u → k.pairAt u = h.pairAt u := fun hu =>
    congrArg (·.bind Datum.pair?) (hk _ hu)
  have := hch.map (k := k) (fun _ l => l) hr fun g p names values l hg hf hz =>
    ⟨names, values, (hk g hg).trans hf,
      hz.congr (fun u hu => hpair (hu.reachable (.child hg hf (by simp [Datum.children]))))
        fun u hu => hpair (hu.reachable (.child hg hf (by simp [Datum.children])))⟩
  simpa using this

/-- What can be reached stands for the same as long as it is saved. -/
lemma Chains.saved (hch : h.Chains e c) (hs : h.Saves extra k) (hr : h.Reachable extra e) :
    k.Chains e c := hch.congr hr hs.kept

/-! ## Overwriting a binding -/

lemma Zips.isSome_lookup (hz : h.Zips names values l)
    (hf : h.FindsIn symbol names values (some slot)) :
    (l.lookup symbol).isSome := by
  induction hz with
  | stop hp =>
    cases hf with
    | here hn hv => simp [hn, hv] at hp
    | there hn _ hv _ => simp [hn, hv] at hp
  | cons hpn hpv _ ih =>
    rw [Bindings.lookup_cons]
    split
    · rfl
    · next hne =>
      cases hf with
      | here hn _ =>
        rw [hpn] at hn
        exact absurd (Prod.mk.inj (Option.some.inj hn)).1 hne
      | there hn _ hv hs =>
        obtain ⟨-, rfl⟩ := Prod.mk.inj (Option.some.inj (hpn.symm.trans hn))
        obtain ⟨-, rfl⟩ := Prod.mk.inj (Option.some.inj (hpv.symm.trans hv))
        exact ih hs

lemma pairAt_setCell_of_ne {d : Datum} (hu : u ≠ slot) :
    (h.setCell slot.index d).pairAt u = h.pairAt u := by
  rw [pairAt, object?_setCell_of_ne (Ne.symm hu), pairAt]

lemma pairAt_setCell_self (hp : h.pairAt slot = some (x, rest)) :
    (h.setCell slot.index (.pair v rest)).pairAt slot = some (v, rest) := by
  rw [pairAt_eq_some, object?_setCell h (lt_size_of_object? (pairAt_eq_some.mp hp)), if_pos rfl]
  rfl

/-- A slot holds the first binding of its symbol, and no other one. -/
lemma Zips.overwrite (hn : h.object? .emptyList = some .emptyList) (hz : h.Zips names values l)
    (hf : h.FindsIn symbol names values (some slot)) (hp : h.pairAt slot = some (x, rest))
    (hs : h.Spine cells values) (hnames : ¬ h.Along names slot) :
    (h.setCell slot.index (.pair v rest)).Zips names values (Bindings.overwrite symbol v l) := by
  induction hz generalizing cells with
  | stop hq =>
    cases hf with
    | here hn hv => simp [hn, hv] at hq
    | there hn _ hv _ => simp [hn, hv] at hq
  | @cons names values name tail y others l hpn hpv hz ih =>
    have hnames' : names ≠ slot := fun he => hnames (he ▸ .refl _)
    have htail : ¬ h.Along tail slot := fun ha => hnames (.tail (pairAt_eq_some.mp hpn) ha)
    have hpn' := (pairAt_setCell_of_ne (d := .pair v rest) hnames').trans hpn
    cases cells with
    | nil =>
      obtain rfl : values = .emptyList := hs
      rw [pairAt_eq_some, hn] at hpv
      cases hpv
    | cons cell cells =>
      have hnodup := hs.nodup hn
      obtain ⟨rfl, a, b, hq, hs⟩ := hs
      obtain ⟨rfl, rfl⟩ := Prod.mk.inj (Option.some.inj ((pairAt_eq_some.mpr hq).symm.trans hpv))
      have hout : values ∉ cells := (List.nodup_cons.mp hnodup).1
      unfold Bindings.overwrite
      cases hf with
      | here hn' hv' =>
        obtain ⟨rfl, rfl⟩ := Prod.mk.inj (Option.some.inj (hpn.symm.trans hn'))
        obtain ⟨rfl, rfl⟩ := Prod.mk.inj (Option.some.inj (hpv.symm.trans hp))
        rw [if_pos rfl]
        refine .cons hpn' (pairAt_setCell_self hpv) (hz.congr (fun u hu => ?_) fun u hu => ?_)
        · exact pairAt_setCell_of_ne fun he => htail (he ▸ hu)
        · refine pairAt_setCell_of_ne ?_
          rintro rfl
          rcases hu.mem_spine hn hs with hm | rfl
          · exact hout hm
          · rw [hn] at hq
            cases hq
      | there hn' hne hv' hfind =>
        obtain ⟨rfl, rfl⟩ := Prod.mk.inj (Option.some.inj (hpn.symm.trans hn'))
        obtain ⟨rfl, rfl⟩ := Prod.mk.inj (Option.some.inj (hpv.symm.trans hv'))
        have hslot : values ≠ slot := fun he => hout (he ▸ hfind.mem hn hs)
        rw [if_neg hne]
        exact .cons hpn' ((pairAt_setCell_of_ne hslot).trans hpv) (ih hfind hs htail)

/-- Replacing what a slot of the frame `g` holds is binding the symbol in `g`. -/
lemma Framed.chains_overwrite (hfr : h.Framed) (hs : h.HasSentinels)
    (hg : h.object? g = some (.frame p names values))
    (hf : h.FindsIn symbol names values (some slot)) (hp : h.pairAt slot = some (x, rest))
    (hch : h.Chains e c) (hr : h.Reachable extra e) :
    (h.setCell slot.index (.pair v rest)).Chains e (c.bind g symbol v) := by
  obtain ⟨cells, hcells⟩ := hfr.listed g _ _ _ hg
  have hb : h.Binds g slot := ⟨_, _, _, cells, hg, hcells, hf.mem hs.emptyList hcells⟩
  refine hch.map (fun g' l => if g' = g then l.bind symbol v else l) hr
    fun f q names' values' l _ hd hz => ⟨names', values', ?_, ?_⟩
  · rw [object?_setCell_of_ne, hd]
    rintro rfl
    rw [pairAt_eq_some, hd] at hp
    cases hp
  · obtain ⟨cells', hcells'⟩ := hfr.listed f _ _ _ hd
    by_cases he : f = g
    · subst he
      obtain ⟨rfl, rfl, rfl⟩ := Datum.frame.inj (Option.some.inj (hg.symm.trans hd))
      rw [if_pos rfl, Bindings.bind, if_pos (hz.isSome_lookup hf)]
      exact hz.overwrite hs.emptyList hf hp hcells (hfr.unnamed f f slot _ _ _ hb hd)
    · rw [if_neg he]
      refine hz.congr (fun u hu => pairAt_setCell_of_ne ?_) fun u hu => pairAt_setCell_of_ne ?_
      · rintro rfl
        exact hfr.unnamed g f u _ _ _ hb hd hu
      · rintro rfl
        rcases hu.mem_spine hs.emptyList hcells' with hm | rfl
        · exact he (hfr.apart f g u ⟨_, _, _, cells', hd, hcells', hm⟩ hb)
        · rw [hs.pairAt_emptyList] at hp
          cases hp

/-! ## New bindings -/

lemma lacks_of_lookup (hc : h.Closed) (hf : h.object? f = some (.frame p names values))
    (hz : h.Zips names values l) (hl : l.lookup symbol = none) : h.Lacks f symbol := by
  rcases hz.search hc hf symbol with ⟨hfind, -⟩ | ⟨_, _, _, -, -, hx⟩
  · exact ⟨p, names, values, hf, hfind⟩
  · rw [hl] at hx
    cases hx

/-- A frame that is given a new binding stands for a map with that binding. -/
lemma Prepends.chains (hp : h.Prepends f symbol v k) (hl : ∀ p names values l,
      h.object? f = some (.frame p names values) → h.Zips names values l → l.lookup symbol = none)
    (hch : h.Chains e c) (hr : h.Reachable [f, v] e) : k.Chains e (c.bind f symbol v) := by
  obtain ⟨p, names, values, a, b, hf, hf', ha, hb, -, -⟩ := hp.binding
  have hpair : ∀ {u}, h.Reachable [f, v] u → k.pairAt u = h.pairAt u := fun {u} hu => by
    by_cases he : u = f
    · rw [pairAt, pairAt, he, hf, hf']
      rfl
    · exact congrArg (·.bind Datum.pair?) (hp.kept u hu he)
  refine hch.map (fun g l => if g = f then l.bind symbol v else l) hr
    fun g q names' values' l hg hd hz => ?_
  have hz' : k.Zips names' values' l :=
    hz.congr (fun u hu => hpair (hu.reachable (.child hg hd (by simp [Datum.children]))))
      fun u hu => hpair (hu.reachable (.child hg hd (by simp [Datum.children])))
  by_cases he : g = f
  · subst he
    obtain ⟨rfl, rfl, rfl⟩ := Datum.frame.inj (Option.some.inj (hf.symm.trans hd))
    refine ⟨a, b, hf', ?_⟩
    rw [if_pos rfl, Bindings.bind, hl _ _ _ _ hd hz]
    exact .cons (pairAt_eq_some.mpr ha) (pairAt_eq_some.mpr hb) hz'
  · rw [if_neg he]
    exact ⟨names', values', (hp.kept g hg he).trans hd, hz'⟩

end Heap

/-! ## Operations -/

variable {h k : Heap} {e f g names values slot symbol t v x rest : Handle} {c ce cf : Chain}
  {p : Option Handle} {name : String}

/-- Looking for a symbol in an environment comes to `o`. -/
def Heap.LooksUp (h : Heap) (e symbol : Handle) (o : Option Handle) : Prop :=
  (find? e symbol : EvalM (Option Handle)) h = .ok o h

/-- The environment stands for the chain, and symbols are found in it as they are in the chain. -/
def Heap.Refines (h : Heap) (e : Handle) (c : Chain) : Prop :=
  h.Chains e c ∧ ∀ t, h.LooksUp e t (c.bound? t)

lemma Heap.Chains.refines (hch : h.Chains e c) (hw : h.WellFormed) : h.Refines e c :=
  ⟨hch, find?_eq hw.toClosed hch⟩

/-- Replacing what a slot of the frame `g` holds. -/
lemma setCar_slot (hw : h.WellFormed) (hs : h.HasSentinels) (hfr : h.Framed)
    (hg : h.object? g = some (.frame p names values))
    (hf : h.FindsIn symbol names values (some slot)) (hp : h.pairAt slot = some (x, rest))
    (hv : h.isLive v = true) (hce : h.Chains e ce) (hre : h.Reachable [] e) :
    ∃ k, (setCar slot v : EvalM Unit) h = .ok () k ∧ k = h.setCell slot.index (.pair v rest) ∧
      k.roots = h.roots ∧ k.Refines e (ce.bind g symbol v) := by
  have hd := pairAt_eq_some.mp hp
  have hrest : h.isLive rest = true := hw.child slot _ hd rest (by simp [Datum.children])
  refine ⟨_, setCar_apply hp v, rfl, rfl,
    (hfr.chains_overwrite hs hg hf hp hce hre).refines
    (hw.setCell hd (by simp [Datum.type]) rfl ?_)⟩
  simp [Datum.children, hv, hrest]

/-- A definition binds the symbol in the frame itself. -/
lemma define_refines (hw : h.WellFormed) (hs : h.HasSentinels) (hfr : h.Framed)
    (hroom : h.roots.size + 3 ≤ h.rootSlots) (hff : h.IsFrame f)
    (hsym : h.findSymbol name = some symbol) (hv : h.isLive v = true) (hce : h.Chains e ce)
    (hre : h.Reachable [] e) :
    (define f symbol v h).Finishes
      (fun r k => r = v ∧ k.roots = h.roots ∧ k.Refines e (ce.bind f symbol v))
      fun err k => err = .outOfMemory ∧ k.roots = h.roots ∧ h.Saves [f, v] k ∧ k.Refines e ce := by
  obtain ⟨p, names, values, hd⟩ := hff
  obtain ⟨cells, hcells⟩ := hfr.listed f _ _ _ hd
  obtain ⟨l, hz⟩ := exists_zips hs.emptyList hcells names
  rcases hz.search hw.toClosed hd symbol with ⟨hnone, -⟩ | ⟨slot, x, rest, hf, hp, -⟩
  · have hlacks : h.Lacks f symbol := ⟨_, _, _, hd, hnone⟩
    refine (define_finishes hw hlacks hsym hv hroom).mono (fun r k hk => ?_) fun err k hk => ?_
    · obtain ⟨-, rfl, hk⟩ := hk
      refine ⟨rfl, hk.frame.roots, (hk.chains (fun p names values l hd' hz' => ?_) hce
        (.of_nil hre)).refines hk.wellFormed⟩
      -- a symbol that is in the map would be found in the frame
      obtain ⟨rfl, rfl, rfl⟩ := Datum.frame.inj (Option.some.inj (hd'.symm.trans hd))
      rcases hz'.search hw.toClosed hd' symbol with ⟨-, hl'⟩ | ⟨slot, -, -, hf, -⟩
      · exact hl'
      · exact absurd ((hnone.localSlot_eq hd').symm.trans (hf.localSlot_eq hd')) (by simp)
    · obtain ⟨-, rfl, hk, hr⟩ := hk
      exact ⟨rfl, hr, hk, (hce.saved hk (.of_nil hre)).refines hk.wellFormed⟩
  · obtain ⟨k, hrun, -, hr, hk⟩ := setCar_slot hw hs hfr hd hf hp hv hce hre
    simp only [define, bind_apply, inspect, hf.localSlot_eq hd, hrun]
    exact ⟨rfl, hr, hk⟩

/-- The error for a symbol that is not bound names it. -/
lemma unbound_finishes {α : Type} (hw : h.WellFormed) (hsym : h.findSymbol name = some symbol) :
    ((unbound symbol : EvalM α) h).Finishes (fun _ _ => False)
    (h.Reports .unboundVariable name) := by
  have hname : (symbolName symbol : EvalM String) h = .ok name h :=
    expect_apply (hw.table name symbol hsym).2 .symbol rfl
  rw [unbound, bind_of_ok hname]
  exact raise_finishes hw (by simp) name

/-- What a failed search comes to. -/
lemma unbound_refines {α : Type} {P : α → Heap → Prop} (hw : h.WellFormed)
    (hsym : h.findSymbol name = some symbol) (hce : h.Chains e ce) (hre : h.Reachable [] e) :
    ((unbound symbol : EvalM α) h).Finishes P fun err k =>
      h.Reports .unboundVariable name err k ∧ k.Refines e ce :=
  (unbound_finishes hw hsym).mono (fun _ _ => False.elim) fun _ _ hr =>
    ⟨hr, (hce.saved hr.saves hre).refines hr.saves.wellFormed⟩

/-- An assignment binds the symbol in the nearest frame that binds it. -/
lemma assign_refines (hw : h.WellFormed) (hs : h.HasSentinels) (hfr : h.Framed)
    (hsym : h.findSymbol name = some symbol) (hv : h.isLive v = true) (hcf : h.Chains f cf)
    (hce : h.Chains e ce) (hre : h.Reachable [] e) :
    (assign f symbol v h).Finishes
      (fun r k => r = v ∧ k.roots = h.roots ∧ ∃ g slot x rest, cf.binder? symbol = some g ∧
        cf.bound? symbol = some x ∧ h.object? slot = some (.pair x rest) ∧
        k = h.setCell slot.index (.pair v rest) ∧ k.Refines e (ce.bind g symbol v))
      fun err k => cf.bound? symbol = none ∧ h.Reports .unboundVariable name err k ∧
        k.Refines e ce := by
  obtain ⟨o, ho, hloc⟩ := hcf.nearestSlot_eq hw.toClosed symbol
  simp only [assign, bind_apply, inspect, ho]
  cases o with
  | none => exact (unbound_refines hw hsym hce hre).mono (fun _ _ => id) fun _ _ hr => ⟨hloc, hr⟩
  | some slot =>
    obtain ⟨g, p, names, values, x, rest, hg, hx, hd, hf, hp⟩ := hloc
    obtain ⟨k, hrun, hk, hr, hk'⟩ := setCar_slot hw hs hfr hd hf hp hv hce hre
    dsimp only
    rw [bind_of_ok hrun]
    exact ⟨rfl, hr, g, slot, x, rest, hg, hx, pairAt_eq_some.mp hp, hk, hk'⟩

lemma lookup_refines (hw : h.WellFormed) (hsym : h.findSymbol name = some symbol)
    (hcf : h.Chains f cf) (hce : h.Chains e ce) (hre : h.Reachable [] e) :
    (lookup f symbol h).Finishes (fun r k => k = h ∧ cf.bound? symbol = some r)
      fun err k => cf.bound? symbol = none ∧ h.Reports .unboundVariable name err k ∧
        k.Refines e ce := by
  rw [HeapM.lookup, bind_of_ok (find?_eq hw.toClosed hcf symbol)]
  rcases Option.eq_none_or_eq_some (cf.bound? symbol) with hx | ⟨x, hx⟩
  · simp only [hx]
    exact (unbound_refines hw hsym hce hre).mono (fun _ _ => id) fun _ _ hr => ⟨trivial, hr⟩
  · simp only [hx]
    exact ⟨rfl, rfl⟩

/-- Environments refine chains of finite maps.  Let every frame keep its bindings to itself, let `e`
and `f` be frames, of which `e` can be reached, `symbol` a symbol and `v` an object.

* What is found in `e` is what the chain of `e` binds.
* A definition in `f` binds the symbol in the map of `f`: from `e` that is seen exactly if no frame
  before `f` binds the symbol, and otherwise everything is found as before.
* An assignment from `f` binds it in the nearest frame on the chain of `f` that binds it, and
  changes one pair.
* A lookup or an assignment fails if and only if the symbol is not bound on the chain of `f`, and
  its error names the symbol, unless there is no room for the error.
* A definition that fails has run out of memory.  Whatever fails, `e` stands for the chain that it
  stood for. -/
theorem environments_refine_chains (hw : h.WellFormed) (hs : h.HasSentinels) (hfr : h.Framed)
    (hroom : h.roots.size + 3 ≤ h.rootSlots) (hfe : h.IsFrame e) (hff : h.IsFrame f)
    (hre : h.Reachable [] e) (hsym : h.findSymbol name = some symbol) (hv : h.isLive v = true) :
    ∃ ce cf, h.Refines e ce ∧ h.Refines f cf ∧
      (define f symbol v h).Finishes
        (fun r k => r = v ∧ k.roots = h.roots ∧ k.Refines e (ce.bind f symbol v) ∧ ∀ t,
          (t = symbol ∧ ce.Nearest f symbol → k.LooksUp e t (some v)) ∧
          (¬ (t = symbol ∧ ce.Nearest f symbol) → k.LooksUp e t (ce.bound? t)))
        (fun err k => err = .outOfMemory ∧ k.roots = h.roots ∧ h.Saves [f, v] k ∧ k.Refines e ce) ∧
      (assign f symbol v h).Finishes
        (fun r k => r = v ∧ k.roots = h.roots ∧ ∃ g slot x rest, cf.binder? symbol = some g ∧
          cf.bound? symbol = some x ∧ h.object? slot = some (.pair x rest) ∧
          k = h.setCell slot.index (.pair v rest) ∧ k.Refines e (ce.bind g symbol v))
        (fun err k => cf.bound? symbol = none ∧ h.Reports .unboundVariable name err k ∧
          k.Refines e ce) ∧
      (lookup f symbol h).Finishes (fun r k => k = h ∧ cf.bound? symbol = some r)
        fun err k => cf.bound? symbol = none ∧ h.Reports .unboundVariable name err k ∧
          k.Refines e ce := by
  obtain ⟨ce, hce⟩ := hfr.exists_chain hs hfe
  obtain ⟨cf, hcf⟩ := hfr.exists_chain hs hff
  refine ⟨ce, cf, hce.refines hw, hcf.refines hw,
    (define_refines hw hs hfr hroom hff hsym hv hce hre).mono (fun r k hk => ?_) fun _ _ => id,
    assign_refines hw hs hfr hsym hv hcf hce hre, lookup_refines hw hsym hcf hce hre⟩
  obtain ⟨rfl, hr, hk⟩ := hk
  refine ⟨rfl, hr, hk, fun t => ⟨fun ht => ?_, fun ht => ?_⟩⟩
  · obtain ⟨rfl, hn⟩ := ht
    rw [← Chain.bound?_bind_of_nearest hn]
    exact hk.2 t
  · rw [← Chain.bound?_bind_of_not ht]
    exact hk.2 t

/-! ## An example -/

/-- The current frame is empty, and its parent, the base frame, binds `x`; three cells are free. -/
def twoFrames : Heap where
  cells := #[.emptyList, .bool true, .bool false, .error .outOfMemory "out of memory",
    .pair ⟨11⟩ .emptyList, .pair .trueObject .emptyList,
    .frame (some ⟨10⟩) .emptyList .emptyList, .free none (some 8), .free (some 7) (some 9),
    .free (some 8) none, .frame none ⟨4⟩ ⟨5⟩, .symbol "x"]
  capacity := 6
  free := some 7
  freeCount := 3
  collections := 0
  roots := #[]
  rootSlots := 8
  symbols := (∅ : Std.TreeMap String Handle).insert "x" ⟨11⟩
  baseEnv := ⟨10⟩
  currentEnv := ⟨6⟩
  audited := true

namespace Heap

lemma wellFormed_twoFrames : twoFrames.WellFormed where
  toClosed := by decide
  free := ⟨[7, 8, 9], .of_list ⟨rfl, some 8, rfl, rfl, some 9, rfl, rfl, none, rfl, rfl⟩
    (by decide) (by decide) rfl⟩
  table := table_of_insert rfl ⟨by decide, rfl⟩

lemma hasSentinels_twoFrames : twoFrames.HasSentinels :=
  .of_take rfl

lemma frames_twoFrames {f names values : Handle} {p : Option Handle}
    (hf : twoFrames.object? f = some (.frame p names values)) :
    (f = ⟨6⟩ ∧ p = some ⟨10⟩ ∧ names = .emptyList ∧ values = .emptyList) ∨
      (f = ⟨10⟩ ∧ p = none ∧ names = ⟨4⟩ ∧ values = ⟨5⟩) := by
  have hall : ∀ i (hi : i < twoFrames.cells.size),
      twoFrames.cells[i].type = .environment → i = 6 ∨ i = 10 := by decide
  obtain ⟨hlt, hd⟩ := Array.getElem?_eq_some_iff.mp (object?_eq_some.mp hf).1
  obtain ⟨i⟩ := f
  rcases hall i hlt (by rw [hd]; rfl) with rfl | rfl
  · obtain ⟨rfl, rfl, rfl⟩ := Datum.frame.inj (Option.some.inj hf)
    exact .inl ⟨rfl, rfl, rfl, rfl⟩
  · obtain ⟨rfl, rfl, rfl⟩ := Datum.frame.inj (Option.some.inj hf)
    exact .inr ⟨rfl, rfl, rfl, rfl⟩

lemma binds_twoFrames {f c : Handle} (hb : twoFrames.Binds f c) : f = ⟨10⟩ ∧ c = ⟨5⟩ := by
  have hn : twoFrames.object? .emptyList = some .emptyList := rfl
  obtain ⟨p, names, values, l, hf, hl, hc⟩ := hb
  rcases frames_twoFrames hf with ⟨-, -, -, rfl⟩ | ⟨rfl, -, -, rfl⟩
  · obtain rfl : l = [] := hl.unique hn rfl
    simp at hc
  · obtain rfl : l = [⟨5⟩] := hl.unique hn ⟨rfl, _, _, rfl, rfl⟩
    exact ⟨rfl, List.mem_singleton.mp hc⟩

lemma framed_twoFrames : twoFrames.Framed := by
  have hn : twoFrames.object? .emptyList = some .emptyList := rfl
  refine ⟨fun f p names values hf => ?_, fun f g c hf hg => ?_,
    fun f g c p names values hb hg ha => ?_, fun f hf => ?_⟩
  · rcases frames_twoFrames hf with ⟨-, -, -, rfl⟩ | ⟨-, -, -, rfl⟩
    · exact ⟨[], rfl⟩
    · exact ⟨[⟨5⟩], rfl, _, _, rfl, rfl⟩
  · rw [(binds_twoFrames hf).1, (binds_twoFrames hg).1]
  · obtain ⟨-, rfl⟩ := binds_twoFrames hb
    rcases frames_twoFrames hg with ⟨-, -, rfl, -⟩ | ⟨-, -, rfl, -⟩
    · simpa [Handle.emptyList] using ha.mem_spine (s := []) hn rfl
    · simpa [Handle.emptyList] using ha.mem_spine (s := [⟨4⟩]) hn ⟨rfl, _, _, rfl, rfl⟩
  · have hroot : twoFrames.object? ⟨10⟩ = some (.frame none ⟨4⟩ ⟨5⟩) := rfl
    have hbase : twoFrames.Lineage ⟨10⟩ := .root hroot
    obtain ⟨p, names, values, hf⟩ := hf
    rcases frames_twoFrames hf with ⟨rfl, rfl, -, -⟩ | ⟨rfl, -, -, -⟩
    · exact .child hf hbase
    · exact hbase

end Heap

/-- From the inner frame `x` is found in the outer one.  A definition binds it anew in the inner
frame, where it is found from then on, and an assignment in the outer one. -/
theorem environments_refine_chains_twoFrames :
    twoFrames.WellFormed ∧ twoFrames.HasSentinels ∧ twoFrames.Framed ∧
    ∃ ce cf, twoFrames.Refines ⟨6⟩ ce ∧ twoFrames.Refines ⟨6⟩ cf ∧
      (∃ k, define ⟨6⟩ ⟨11⟩ .falseObject twoFrames = .ok .falseObject k ∧ k.roots = #[] ∧
        k.Refines ⟨6⟩ (ce.bind ⟨6⟩ ⟨11⟩ .falseObject) ∧ ∀ t,
          (t = ⟨11⟩ ∧ ce.Nearest ⟨6⟩ ⟨11⟩ → k.LooksUp ⟨6⟩ t (some .falseObject)) ∧
          (¬ (t = ⟨11⟩ ∧ ce.Nearest ⟨6⟩ ⟨11⟩) → k.LooksUp ⟨6⟩ t (ce.bound? t))) ∧
      (∃ k, assign ⟨6⟩ ⟨11⟩ .falseObject twoFrames = .ok .falseObject k ∧ k.roots = #[] ∧
        ∃ g, cf.binder? ⟨11⟩ = some g ∧ k.Refines ⟨6⟩ (ce.bind g ⟨11⟩ .falseObject)) ∧
      lookup ⟨6⟩ ⟨11⟩ twoFrames = .ok .trueObject twoFrames ∧
      cf.bound? ⟨11⟩ = some .trueObject := by
  have hframe : twoFrames.IsFrame ⟨6⟩ := ⟨_, _, _, rfl⟩
  have hcurrent : twoFrames.Reachable [] ⟨6⟩ := .anchor .current
  have hsymbol : twoFrames.findSymbol "x" = some ⟨11⟩ := Std.TreeMap.getElem?_insert_self
  have hlive : twoFrames.isLive .falseObject = true := rfl
  obtain ⟨ce, cf, hce, hcf, hdefine, hassign, hlookup⟩ := environments_refine_chains
    wellFormed_twoFrames hasSentinels_twoFrames framed_twoFrames (by decide) hframe hframe hcurrent
    hsymbol hlive
  refine ⟨wellFormed_twoFrames, hasSentinels_twoFrames, framed_twoFrames, ce, cf, hce, hcf, ?_, ?_,
    ?_⟩
  · obtain ⟨k, hk⟩ : ∃ k, define ⟨6⟩ ⟨11⟩ .falseObject twoFrames = .ok .falseObject k := ⟨_, rfl⟩
    rw [hk] at hdefine
    exact ⟨k, hk, hdefine.2⟩
  · obtain ⟨k, hk⟩ : ∃ k, assign ⟨6⟩ ⟨11⟩ .falseObject twoFrames = .ok .falseObject k := ⟨_, rfl⟩
    rw [hk] at hassign
    obtain ⟨-, hr, g, slot, x, rest, hg, -, -, -, hbind⟩ := hassign
    exact ⟨k, hk, hr, g, hg, hbind⟩
  · have hk : lookup ⟨6⟩ ⟨11⟩ twoFrames = .ok .trueObject twoFrames := rfl
    rw [hk] at hlookup
    exact ⟨hk, hlookup.2⟩

end ArenaScheme
