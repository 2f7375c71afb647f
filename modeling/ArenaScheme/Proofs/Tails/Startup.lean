/-
# A machine that has been set up

In a new heap no collectible cell is in use.  To intern a keyword takes none, and neither does a
foreign procedure; but to bind one takes a pair of each of the two lists of the base frame.  So a
machine is set up if its arena has room for the bindings, and after that the base frame binds the
names of the built-in procedures and nothing else.
-/
import ArenaScheme.Proofs.Tails.Closures
import ArenaScheme.Proofs.Tails.Countdown

namespace ArenaScheme

open Heap HeapM Interpreter

variable {ε α : Type} {h k l : Heap} {s : Sizing} {bs : Bindings} {n : Nat} {v w symbol : Handle}
  {name : String} {d : Datum} {found : List (String × Handle)} {done : List Builtin} {b : Builtin}

/-! ## Keywords -/

/-- The keywords with their names. -/
def Keywords.table (kw : Keywords) : List (String × Handle) :=
  [("quote", kw.quote), ("quasiquote", kw.quasiquote), ("unquote", kw.unquote),
    ("unquote-splicing", kw.unquoteSplicing), ("if", kw.conditional), ("begin", kw.sequence),
    ("cond", kw.clauses), ("else", kw.otherwise), ("define", kw.definition),
    ("set!", kw.assignment), ("and", kw.conjunction), ("or", kw.disjunction), ("let", kw.binding),
    ("lambda", kw.lambda), ("apply", kw.apply), ("eval", kw.eval),
    ("the-environment", kw.theEnvironment)]

namespace Heap

/-- Interning a name makes no object but the symbol. -/
lemma Extends.words {P : α → Heap → Prop} {f : Handle → HeapM ε α} (he : h.Extends [] k)
    (hr : k.roots = h.roots) (hf : ∀ p ∈ found, k.findSymbol p.1 = some p.2)
    (hnext : ∀ v l, h.Extends [] l → l.roots = h.roots →
      (∀ p ∈ (name, v) :: found, l.findSymbol p.1 = some p.2) → ∃ a m, f v l = .ok a m ∧ P a m) :
    ∃ a m, (HeapM.intern name >>= f) k = .ok a m ∧ P a m := by
  obtain ⟨he', hroots, ha, hsym⟩ := he.intern name
  refine hnext _ _ he' (hroots.trans hr) (List.forall_mem_cons.mpr ⟨hsym, fun p hp => ?_⟩)
  exact ha.symbols _ _ (hf p hp)

end Heap

/-- All keywords can be interned. -/
lemma exists_keywords (hw : h.WellFormed) :
    ∃ kw k, (Keywords.intern : HeapM ε Keywords) h = .ok kw k ∧
    h.Extends [] k ∧ k.roots = h.roots ∧ ∀ p ∈ kw.table, k.findSymbol p.1 = some p.2 := by
  have he : h.Extends [] h := .refl hw
  have hr : h.roots = h.roots := rfl
  have hf : ∀ p ∈ ([] : List (String × Handle)), h.findSymbol p.1 = some p.2 := by simp
  unfold Keywords.intern
  -- one keyword after the other
  iterate 17
    with_reducible refine he.words hr hf ?_
    clear he hr hf
    intro v k he hr hf
  refine ⟨_, _, rfl, he, hr, fun p hp => hf p ?_⟩
  simp only [Keywords.table, List.mem_cons, List.not_mem_nil, or_false] at hp ⊢
  tauto

/-! ## Machines at rest -/

namespace Heap

/-- A machine at rest: no root slot is occupied, and the current frame is the base frame, which
stands for the bindings.  No more than `n` cells are in use. -/
structure Rests (h : Heap) (s : Sizing) (bs : Bindings) (n : Nat) : Prop where
  wellFormed : h.WellFormed
  hasSentinels : h.HasSentinels
  capacity : h.capacity = s.arenaCells
  rootSlots : h.rootSlots = s.rootSlots
  roots : h.roots = #[]
  current : h.currentEnv = h.baseEnv
  chains : h.Chains h.baseEnv [(h.baseEnv, bs)]
  used : h.usedWith [] ≤ n

/-- In a new heap nothing is in use. -/
lemma rests_ofSizing (s : Sizing) (audited : Bool) :
    ({ ofSizing s with audited } : Heap).Rests s [] 0 := by
  set h : Heap := { ofSizing s with audited } with hh
  have hw : h.WellFormed := (wellFormed_ofSizing s).audit audited
  have hs : h.HasSentinels := hasSentinels_ofSizing s
  refine ⟨hw, hs, rfl, rfl, rfl, rfl, .root (object?_ofSizing_base s)
    (.stop (.inl hs.pairAt_emptyList)), ?_⟩
  have hempty : {i | h.Collectible i ∧ h.Reachable [] ⟨i⟩} = ∅ := by
    refine Set.eq_empty_iff_forall_notMem.mpr ?_
    rintro i ⟨⟨hi, hlt⟩, hr⟩
    obtain ⟨j, rfl⟩ := Nat.exists_eq_add_of_le hi
    have hnone : h.object? ⟨regionStart + j⟩ = none :=
      object?_ofSizing_collectible (Nat.add_lt_add_iff_left.mp hlt)
    have hlive := hw.isLive_of_reachable (by simp) hr
    rw [isLive_eq_isSome, hnone] at hlive
    cases hlive
  rw [usedWith, hempty, Set.ncard_empty]

/-- Appending a permanent object that has no parts. -/
lemma extends_addPermanent (hw : h.WellFormed) (hf : d.isFree = false) (hc : d.children = []) :
    h.Extends [] (h.addPermanent d).2 := by
  have hobj : ∀ {v : Handle}, v.index < h.cells.size →
    (h.addPermanent d).2.object? v = h.object? v :=
    fun hv => object?_push hv rfl
  refine ⟨hw, hw.addPermanent hf (by simp [hc]), rfl, rfl, rfl, rfl, by simp [addPermanent],
    fun v hv => ?_, fun _ _ => id, fun v e hv he => ?_, Nat.le_refl _, fun _ _ =>
      rfl, fun i v hi hv => ?_, .nil, by simp, by simp⟩
  · obtain ⟨e, he⟩ := isLive_iff.mp (hw.isLive_of_reachable (by simp) hv)
    exact hobj (lt_size_of_object? he)
  · -- nothing but the new object has been appended
    have hsize := lt_size_of_object? he
    simp only [addPermanent, Array.size_push] at hsize
    have he := (object?_eq_some.mp he).1
    simp only [addPermanent, show v.index = h.cells.size by omega, Array.getElem?_push_size] at he
    rw [← Option.some.inj he, hc]
  · have hnone : h.roots[i]? = none := Array.getElem?_eq_none hi
    cases hnone.symm.trans hv

/-- No more cells are in use than have been made. -/
lemma Extends.usedWith_le {made extra : List Handle} (he : h.Extends made k)
    (hx : ∀ v ∈ extra, h.Known made v) :
    k.usedWith extra ≤ h.usedWith [] + made.length := by
  refine usedWith_le_of_cases he.capacity fun v hcol hv => ?_
  rcases he.cases_of_reachable hx hv with hv | hv | hv
  · exact .inl hv
  · exact .inr hv
  · exact absurd (Nat.lt_of_lt_of_le hcol.2 he.origin.layout) (Nat.not_lt.mpr hv)

lemma Rests.extends (hr : h.Rests s bs n) (he : h.Extends [] k) (hroots : k.roots = h.roots) :
    k.Rests s bs n := by
  refine ⟨he.wellFormed, fun v hv => (he.kept v (.sentinel hv)).trans (hr.hasSentinels v hv),
    he.capacity.trans hr.capacity, he.rootSlots.trans hr.rootSlots,
    hroots.trans hr.roots, ?_, ?_, ?_⟩
  · rw [he.currentEnv, he.baseEnv, hr.current]
  · rw [he.baseEnv]
    exact hr.chains.congr (.anchor .base) he.kept
  · exact (he.usedWith_le (by simp)).trans hr.used

/-- Two lists stand for one map. -/
lemma Zips.unique {names values : Handle} {bs' : Bindings} (hz : h.Zips names values bs)
    (hz' : h.Zips names values bs') : bs = bs' := by
  induction hz generalizing bs' with
  | stop hp =>
    cases hz' with
    | stop _ => rfl
    | cons hn hv _ => rcases hp with hp | hp <;> simp_all
  | cons hn hv _ ih =>
    cases hz' with
    | stop hp => rcases hp with hp | hp <;> simp_all
    | cons hn' hv' hz' =>
      obtain ⟨rfl, rfl⟩ := Prod.mk.inj (Option.some.inj (hn.symm.trans hn'))
      obtain ⟨rfl, rfl⟩ := Prod.mk.inj (Option.some.inj (hv.symm.trans hv'))
      rw [ih hz']

/-- A frame without a parent. -/
lemma Chains.alone {e : Handle} (hc : h.Chains e [(e, bs)]) : ∃ names values,
    h.object? e = some (.frame none names values) ∧ h.Zips names values bs := by
  cases hc with
  | root hf hz => exact ⟨_, _, hf, hz⟩
  | child _ _ hc => cases hc

/-- A symbol that is not bound can be bound if there is room for two cells. -/
lemma exists_define {e : Handle} (hw : h.WellFormed) (hc : h.Chains e [(e, bs)])
    (hsym : h.findSymbol name = some symbol) (hl : bs.lookup symbol = none) (hv : h.isLive v = true)
    (hroom : h.roots.size + 3 ≤ h.rootSlots) (hcap : 2 + h.usedWith [e, v] ≤ h.capacity) :
    ∃ k, define e symbol v h = .ok v k ∧ h.Prepends e symbol v k := by
  obtain ⟨names, values, hf, hz⟩ := hc.alone
  exact (lacks_of_lookup hw.toClosed hf hz hl).exists_define hw hsym hv hroom hcap

/-- After a definition there are two cells more. -/
lemma Prepends.exists_cases {env : Handle} (hp : h.Prepends env symbol v k)
    (hs : h.Reachable [] symbol) :
    ∃ c c', ∀ u, k.Reachable [] u → h.Reachable [env, v] u ∨ u ∈ [c, c'] := by
  obtain ⟨p, names, values, c, c', hd, hd', hc, hc', -, hnew⟩ := hp.binding
  have henv : h.Reachable [env, v] env := .of_extra (by simp)
  refine ⟨c, c', fun u hu => ?_⟩
  induction hu with
  | anchor hu =>
    cases hu with
    | sentinel hu => exact .inl (.sentinel hu)
    | permanent hr hu =>
      have hcap := hp.frame.capacity
      exact .inl (.anchor (.permanent (by rwa [regionEnd, hcap] at hr) (hp.frame.size ▸ hu)))
    | root hu => exact .inl (.anchor (.root (hp.frame.roots ▸ hu)))
    | base => exact .inl (hp.frame.baseEnv ▸ .anchor .base)
    | current => exact .inl (hp.frame.currentEnv ▸ .anchor .current)
    | extra hu => cases hu
  | @child x y d _ hx hy ih =>
    rcases ih with hu | hu
    · by_cases he : x = env
      · subst he
        obtain rfl := Option.some.inj (hd'.symm.trans hx)
        have hpar : ∀ q, p = some q → h.Reachable [x, v] q := fun q hq =>
          .child hu hd (by simp [Datum.children, hq])
        rcases (by simpa [Datum.children] using hy : p = some y ∨ y = c ∨ y = c') with
          hy | rfl | rfl
        · exact .inl (hpar y hy)
        · exact .inr (by simp)
        · exact .inr (by simp)
      · exact .inl (.child hu ((hp.kept x hu he).symm.trans hx) hy)
    · rcases List.mem_pair.mp hu with rfl | rfl
      · obtain rfl := Option.some.inj (hc.symm.trans hx)
        rcases (by simpa [Datum.children] using hy : y = symbol ∨ y = names) with rfl | rfl
        · exact .inl (.of_nil hs)
        · exact .inl (.child henv hd (by simp [Datum.children]))
      · obtain rfl := Option.some.inj (hc'.symm.trans hx)
        rcases (by simpa [Datum.children] using hy : y = v ∨ y = values) with rfl | rfl
        · exact .inl (.of_extra (by simp))
        · exact .inl (.child henv hd (by simp [Datum.children]))

lemma Rests.prepends (hr : h.Rests s bs n) (hp : h.Prepends h.baseEnv symbol v k)
    (hs : h.Reachable [] symbol) (hv : h.Reachable [] v) (hl : bs.lookup symbol = none) :
    k.Rests s (bs.bind symbol v) (n + 2) := by
  have hbase : h.Reachable [] h.baseEnv := .anchor .base
  have hx : ∀ u ∈ [h.baseEnv, v], h.Reachable [] u := by simp [hbase, hv]
  obtain ⟨names, values, hd, hz⟩ := hr.chains.alone
  refine ⟨hp.wellFormed, fun u hu => ?_, hp.frame.capacity.trans hr.capacity,
    hp.frame.rootSlots.trans hr.rootSlots, hp.frame.roots.trans hr.roots, ?_, ?_, ?_⟩
  · refine (hp.kept u (.sentinel hu) ?_).trans (hr.hasSentinels u hu)
    rintro rfl
    have hframe := (hr.hasSentinels _ hu).symm.trans hd
    exact absurd (children_of_mem_sentinels (List.mem_of_getElem? hframe))
      (by simp [Datum.children])
  · rw [hp.frame.currentEnv, hp.frame.baseEnv, hr.current]
  · rw [hp.frame.baseEnv]
    have hch := hp.chains (fun p names values l hf hz' => ?_) hr.chains (.of_extra (by simp))
    · simpa [Chain.bind] using hch
    · obtain ⟨-, rfl, rfl⟩ := Datum.frame.inj (Option.some.inj (hd.symm.trans hf))
      rw [hz'.unique hz, hl]
  · obtain ⟨c, c', hcases⟩ := hp.exists_cases hs
    have hle : k.usedWith [] ≤ h.usedWith [] + [c, c'].length :=
      usedWith_le_of_cases hp.frame.capacity fun u _ hu =>
        (hcases u hu).imp_left fun hu => hu.mono hx
    exact hle.trans (Nat.add_le_add_right hr.used 2)

/-! ## The built-in procedures -/

/-- The names of these built-in procedures are bound to them, and no others are bound. -/
structure Equips (h : Heap) (bs : Bindings) (done : List Builtin) : Prop where
  bound : ∀ b ∈ done, ∃ symbol v, h.findSymbol b.name = some symbol ∧ bs.lookup symbol = some v ∧
    ¬ h.Collectible v.index ∧ h.object? v = some (.foreign b.name (.builtin b))
  only : ∀ symbol v, bs.lookup symbol = some v → ∃ b ∈ done, h.findSymbol b.name = some symbol

lemma Equips.extends {made : List Handle} (he : h.Equips bs done) (hk : h.Extends made k) :
    k.Equips bs done := by
  refine ⟨fun b hb => ?_, fun symbol v hv => ?_⟩
  · obtain ⟨symbol, v, hsymbol, hv, hcol, hd⟩ := he.bound b hb
    have hr : h.Reachable [] v := .of_not_collectible (lt_size_of_object? hd) hcol
    exact ⟨symbol, v, hk.symbols _ _ hsymbol, hv, mt hk.collectible.mp hcol,
      (hk.kept v hr).trans hd⟩
  · obtain ⟨b, hb, hsymbol⟩ := he.only symbol v hv
    exact ⟨b, hb, hk.symbols _ _ hsymbol⟩

end Heap

/-- Binding a name to a foreign procedure takes two cells. -/
lemma exists_bindForeign (name : String) (code : Native) (hr : h.Rests s bs n)
    (hcap : n + 2 ≤ s.arenaCells) (hslots : 3 ≤ s.rootSlots)
    (hnew : ∀ symbol v, bs.lookup symbol = some v →
      ∃ other ≠ name, h.findSymbol other = some symbol) :
    ∃ symbol v k, bindForeign name code h = .ok () k ∧ k.Rests s (bs.bind symbol v) (n + 2) ∧
      k.findSymbol name = some symbol ∧ ¬ k.Collectible v.index ∧
      k.object? v = some (.foreign name code) ∧
      (∀ other t, h.findSymbol other = some t → k.findSymbol other = some t) ∧
      ∀ u d, ¬ h.Collectible u.index → h.object? u = some d → d.type ≠ .environment →
        ¬ k.Collectible u.index ∧ k.object? u = some d := by
  obtain ⟨he₁, hroots₁, -, hsym⟩ := (Extends.refl hr.wellFormed).intern name
  have hintern : (HeapM.intern name : EvalM Handle) h = .ok (h.intern name).1 (h.intern name).2 :=
    rfl
  generalize (h.intern name).1 = symbol, (h.intern name).2 = k₁ at *
  have hr₁ := hr.extends he₁ hroots₁
  have he₂ := extends_addPermanent (d := .foreign name code) hr₁.wellFormed rfl rfl
  have hr₂ := hr₁.extends he₂ rfl
  have hmake : (makeForeign name code : EvalM Handle) k₁ =
      .ok ⟨k₁.cells.size⟩ (k₁.addPermanent (.foreign name code)).2 := rfl
  have hv : (k₁.addPermanent (.foreign name code)).2.object? ⟨k₁.cells.size⟩ =
      some (.foreign name code) := by
    rw [k₁.object?_addPermanent rfl, if_pos rfl]
  have hpermanent : ¬ k₁.Collectible (⟨k₁.cells.size⟩ : Handle).index := fun hc =>
    Nat.not_le.mpr hc.2 hr₁.wellFormed.layout
  generalize (⟨k₁.cells.size⟩ : Handle) = v, (k₁.addPermanent (.foreign name code)).2 = k₂ at *
  have hsym₂ : k₂.findSymbol name = some symbol := he₂.symbols _ _ hsym
  have hsymbols : ∀ {other t}, h.findSymbol other = some t →
      k₂.findSymbol other = some t := fun ht =>
    he₂.symbols _ _ (he₁.symbols _ _ ht)
  have hcol : ∀ {u : Handle}, ¬ h.Collectible u.index → ¬ k₂.Collectible u.index := fun hu =>
    mt (he₁.collectible.mp ∘ he₂.collectible.mp) hu
  have hvcol : ¬ k₂.Collectible v.index := mt he₂.collectible.mp hpermanent
  have hvr : k₂.Reachable [] v := .of_not_collectible (lt_size_of_object? hv) hvcol
  have hlookup : bs.lookup symbol = none := by
    rw [Option.eq_none_iff_forall_ne_some]
    intro x hx
    obtain ⟨other, hne, hother⟩ := hnew symbol x hx
    exact hr₂.wellFormed.symbol_ne hsym₂ (hsymbols hother) hne.symm rfl
  obtain ⟨names, values, hf, hz⟩ := hr₂.chains.alone
  have hused : k₂.usedWith [k₂.baseEnv, v] ≤ n := by
    refine le_trans (usedWith_le_of_reachable rfl fun u _ hu => hu.mono ?_) hr₂.used
    simp [hvr, show k₂.Reachable [] k₂.baseEnv from .anchor .base]
  have hcap₂ := hr₂.capacity
  obtain ⟨k, hrun, hp⟩ := exists_define hr₂.wellFormed hr₂.chains hsym₂ hlookup
    (isLive_of_object? hv)
    (by rw [hr₂.roots, hr₂.rootSlots]; simpa using hslots) (by omega)
  have hbind : bindForeign name code h = .ok () k := by
    rw [bindForeign, bind_of_ok hintern, bind_of_ok hmake,
      bind_of_ok (show (HeapM.baseEnv : EvalM Handle) k₂ = .ok k₂.baseEnv k₂ from rfl),
      bind_of_ok hrun]
    rfl
  have hkcol : ∀ {i}, k.Collectible i ↔ k₂.Collectible i := by
    intro i
    rw [Collectible, Collectible, regionEnd, regionEnd, hp.frame.capacity]
  have hkept : ∀ {u d}, k₂.Reachable [] u → k₂.object? u = some d → d.type ≠ .environment →
      k.object? u = some d := by
    intro u d hu hd ht
    refine (hp.kept u (.of_nil hu) ?_).trans hd
    rintro rfl
    obtain rfl := Option.some.inj (hf.symm.trans hd)
    exact ht rfl
  have hksymbols : ∀ {other t}, k₂.findSymbol other = some t → k.findSymbol other = some t :=
    fun ht => by
    rwa [findSymbol, hp.frame.symbols]
  refine ⟨symbol, v, k, hbind, hr₂.prepends hp (hr₂.wellFormed.reachable_symbol hsym₂) hvr hlookup,
    hksymbols hsym₂, mt hkcol.mp hvcol, hkept hvr hv (by simp [Datum.type]), fun other t ht =>
    hksymbols (hsymbols ht), fun u d hu hd ht => ?_⟩
  have hur : h.Reachable [] u := .of_not_collectible (lt_size_of_object? hd) hu
  have hd₂ : k₂.object? u = some d := (he₂.kept u (he₁.reachable hur)).trans
    ((he₁.kept u hur).trans hd)
  exact ⟨mt hkcol.mp (hcol hu), hkept (he₂.reachable (he₁.reachable hur)) hd₂ ht⟩

/-- The built-in procedures are bound one after the other. -/
lemma exists_bindAll (hr : h.Rests s bs n) (he : h.Equips bs done) (hslots : 3 ≤ s.rootSlots)
    {todo : List Builtin} (hnodup : ((todo ++ done).map Builtin.name).Nodup)
    (hcap : n + 2 * todo.length ≤ s.arenaCells) :
    ∃ bs' k, todo.forM (fun b => bindForeign b.name (.builtin b)) h = .ok () k ∧
      k.Rests s bs' (n + 2 * todo.length) ∧ k.Equips bs' (todo.reverse ++ done) ∧
      ∀ other t, h.findSymbol other = some t → k.findSymbol other = some t := by
  -- a name is bound once, so it is not found in the frame before
  induction todo generalizing h bs n done with
  | nil => exact ⟨bs, h, rfl, hr, he, fun _ _ => id⟩
  | cons b todo ih =>
    have hperm : ((todo ++ b :: done).map Builtin.name).Nodup :=
      (List.perm_middle.map Builtin.name).nodup_iff.mpr hnodup
    have hother : ∀ b' ∈ done, b'.name ≠ b.name := fun b' hb' hname => by
      refine (List.nodup_cons.mp hnodup).1 (List.mem_map.mpr ⟨b', ?_, hname⟩)
      exact List.mem_append_right todo hb'
    rw [List.length_cons] at hcap ⊢
    obtain ⟨symbol, v, k, hrun, hk, hsym, hcol, hv, hsymbols, hkept⟩ :=
      exists_bindForeign b.name (.builtin b) hr (by omega) hslots fun t x hx => by
        obtain ⟨b', hb', ht⟩ := he.only t x hx
        exact ⟨b'.name, hother b' hb', ht⟩
    have hek : k.Equips (bs.bind symbol v) (b :: done) := by
      refine ⟨List.forall_mem_cons.mpr ⟨⟨symbol, v, hsym, ?_, hcol, hv⟩, fun b' hb' => ?_⟩,
        fun t x hx => ?_⟩
      · rw [Bindings.lookup_bind, if_pos rfl]
      · obtain ⟨t, x, ht, hx, hxcol, hd⟩ := he.bound b' hb'
        obtain ⟨hxcol, hd⟩ := hkept x _ hxcol hd (by simp [Datum.type])
        have hne := hk.wellFormed.symbol_ne (hsymbols _ _ ht) hsym (hother b' hb')
        exact ⟨t, x, hsymbols _ _ ht, by rw [Bindings.lookup_bind, if_neg hne, hx], hxcol, hd⟩
      · rw [Bindings.lookup_bind] at hx
        split at hx
        · next heq => exact ⟨b, List.mem_cons_self, heq ▸ hsym⟩
        · obtain ⟨b', hb', ht⟩ := he.only t x hx
          exact ⟨b', List.mem_cons_of_mem _ hb', hsymbols _ _ ht⟩
    obtain ⟨bs', l, hrun', hl, hel, hsymbols'⟩ := ih hk hek hperm (by omega)
    refine ⟨bs', l, ?_, ?_, ?_, fun other t ht => hsymbols' other t (hsymbols other t ht)⟩
    · rw [List.forM_eq_forM, List.forM_cons, bind_of_ok hrun, ← List.forM_eq_forM]
      exact hrun'
    · have hn : n + 2 * (todo.length + 1) = n + 2 + 2 * todo.length := by omega
      rwa [hn]
    · simpa using hel

/-- A machine is set up if there is room for the bindings. -/
lemma exists_install (s : Sizing) (audited : Bool) (hcells : 62 ≤ s.arenaCells)
    (hslots : 3 ≤ s.rootSlots) :
    ∃ ctx bs h, install #[] { Heap.ofSizing s with audited } = .ok ctx h ∧ h.Rests s bs 62 ∧
      h.Equips bs Builtin.all.reverse ∧ ∀ p ∈ ctx.keywords.table, h.findSymbol p.1 = some p.2 := by
  have hr := rests_ofSizing s audited
  generalize ({ Heap.ofSizing s with audited } : Heap) = h at hr ⊢
  obtain ⟨kw, k, hrun, he, hroots, hfound⟩ := exists_keywords (ε := Failure) hr.wellFormed
  have hnone : k.Equips [] [] := ⟨by simp, by simp⟩
  have hnodup : ((Builtin.all ++ []).map Builtin.name).Nodup := by decide +kernel
  have hlength : Builtin.all.length = 31 := rfl
  obtain ⟨bs, l, hall, hl, hel, hsymbols⟩ :=
    exists_bindAll (hr.extends he hroots) hnone hslots hnodup
    (by rw [hlength]; omega)
  rw [List.append_nil] at hel
  rw [hlength] at hl
  refine ⟨⟨kw, #[]⟩, bs, l, ?_, hl, hel, fun p hp => hsymbols _ _ (hfound p hp)⟩
  rw [install, bind_of_ok hrun]
  have hreport : reporting (Builtin.all.forM fun b => bindForeign b.name (.builtin b)) k =
      .ok () l := by
    rw [reporting, hall]
  rw [bind_of_ok hreport]
  rfl

end ArenaScheme
