/-
# What changes bindings

Which objects the names of a frame are bound to depends on the frame, on the pairs of its list of
names and on those of its list of values.  `set-car!` and `set-cdr!` change a pair that the program
has, which is no binding and so belongs to no list of values; it may belong to a list of names,
since the frame of a call and the procedure share the list of parameters.  A definition changes the
frame or one of its bindings, and an assignment changes the binding that is found.

For each of these actions there is a set of cells such that nothing else is changed, however the
action ends.
-/
import ArenaScheme.Proofs.Seclusion.Procedures
import ArenaScheme.Proofs.Seclusion.Searches

namespace ArenaScheme

open Heap HeapM

/-! ## Bindings of a frame -/

namespace Heap

/-- Going along the tails of pairs from `v`, one comes by `u`. -/
inductive Along (h : Heap) : Handle → Handle → Prop
  | refl (v : Handle) : Along h v v
  | tail {v a b u : Handle} (hp : h.object? v = some (.pair a b)) (hu : Along h b u) : Along h v u

/-- What the frame itself binds a symbol to. -/
def bound? (h : Heap) (f symbol : Handle) : Option Handle :=
  match h.localSlot f symbol with
  | .ok (some slot) => (h.pairAt slot).map (·.1)
  | _ => none

/-- A frame binds the same symbols to the same objects in both heaps. -/
def SameBindings (h k : Heap) (f : Handle) : Prop := ∀ symbol, k.bound? f symbol = h.bound? f symbol

/-- A frame and its list of values are the same in both heaps. -/
def SameValues (h k : Heap) (f : Handle) : Prop :=
  k.object? f = h.object? f ∧ ∀ c, h.Binds f c → k.Binds f c ∧ k.object? c = h.object? c

/-- Only objects in `D` have been changed, unless there has been a collection. -/
structure Sparing (D : Set Handle) (h k : Heap) : Prop where
  unswept : k.Unswept → h.Unswept
  kept : k.Unswept → ∀ v d, h.object? v = some d → v ∉ D → k.object? v = some d
  frames : k.Unswept → ∀ f, h.IsFrame f → k.IsFrame f

variable {h k l : Heap} {V : Veil} {D : Set Handle} {s : List Handle} {d : Datum}
  {c f g u v symbol names values env : Handle} {slot : Option Handle}

/-- Along a proper list there are its pairs and the empty list. -/
lemma Along.mem_spine (hn : h.object? .emptyList = some .emptyList) (hs : h.Spine s v)
    (hu : h.Along v u) : u ∈ s ∨ u = .emptyList := by
  induction hu generalizing s with
  | refl v =>
    cases s with
    | nil => exact .inr hs
    | cons c s => exact .inl (hs.1 ▸ List.mem_cons_self)
  | @tail v a b u hp _ ih =>
    cases s with
    | nil =>
      obtain rfl : v = .emptyList := hs
      rw [hn] at hp
      simp at hp
    | cons c s =>
      obtain ⟨rfl, x, y, hp', hs⟩ := hs
      rw [hp] at hp'
      obtain ⟨rfl, rfl⟩ := Datum.pair.inj (Option.some.inj hp')
      exact (ih hs).imp_left (List.mem_cons_of_mem v)

/-- Along a list that is not hidden there are no bindings. -/
lemma Along.not_binds {C : Set Handle} (hu : h.Along v u) (hv : ¬ h.Hidden C v) :
    ¬ h.Binds f u := by
  induction hu with
  | refl v => exact fun hb => hv (.binding hb)
  | tail hp _ ih => exact ih fun hb => hv (.tail hp hb)

lemma Along.live (hatt : ∀ v d, h.object? v = some d → ∀ c ∈ d.children, ∃ e, h.object? c = some e)
    (hu : h.Along v u) (hv : ∃ d, h.object? v = some d) : ∃ d, h.object? u = some d := by
  induction hu with
  | refl v => exact hv
  | tail hp _ ih => exact ih (hatt _ _ hp _ (by simp [Datum.children]))

/-- A search looks at the pairs of the two lists, and where they end. -/
lemma FindsIn.congr (hf : h.FindsIn symbol names values slot)
    (hn : ∀ c, h.Along names c → k.pairAt c = h.pairAt c ∧ k.isLive c = h.isLive c)
    (hv : ∀ c, h.Along values c → k.pairAt c = h.pairAt c ∧ k.isLive c = h.isLive c) :
    k.FindsIn symbol names values slot := by
  induction hf with
  | here hn' hv' => exact .here ((hn _ (.refl _)).1.trans hn') ((hv _ (.refl _)).1.trans hv')
  | there hn' hne hv' _ ih =>
    refine .there ((hn _ (.refl _)).1.trans hn') hne ((hv _ (.refl _)).1.trans hv') ?_
    exact ih (fun c hc => hn c (.tail (pairAt_eq_some.mp hn') hc))
      fun c hc => hv c (.tail (pairAt_eq_some.mp hv') hc)
  | stop hn' hv' hp =>
    refine .stop ((hn _ (.refl _)).2.trans hn') ((hv _ (.refl _)).2.trans hv') ?_
    rw [(hn _ (.refl _)).1, (hv _ (.refl _)).1]
    exact hp

namespace Sparing

lemma refl (D : Set Handle) (h : Heap) : h.Sparing D h := ⟨id, fun _ _ _ hv _ => hv, fun _ _ => id⟩

lemma trans (hk : h.Sparing D k) (hl : k.Sparing D l) : h.Sparing D l where
  unswept hu := hk.unswept (hl.unswept hu)
  kept hu v d hv hD := hl.kept hu v d (hk.kept (hl.unswept hu) v d hv hD) hD
  frames hu f hf := hl.frames hu f (hk.frames (hl.unswept hu) f hf)

lemma of_cells (hc : k.cells = h.cells) (hu : k.collections = h.collections) : h.Sparing D k where
  unswept hk := hu.symm.trans hk
  kept _ v d hv _ := by rw [object?, hc]; exact hv
  frames _ f hf := by rw [IsFrame, object?, hc]; exact hf

/-- What has not been changed, and frames too, look to a search as they did. -/
lemma looks (hk : h.Sparing D k) (hu : k.Unswept) (hc : ∃ d, h.object? c = some d)
    (hD : c ∈ D → h.IsFrame c) : k.pairAt c = h.pairAt c ∧ k.isLive c = h.isLive c := by
  by_cases hm : c ∈ D
  · obtain ⟨p, n, w, hf⟩ := hD hm
    obtain ⟨p', n', w', hf'⟩ := hk.frames hu c ⟨p, n, w, hf⟩
    simp [pairAt, isLive_eq_isSome, hf, hf', Datum.pair?]
  · obtain ⟨d, hd⟩ := hc
    simp [pairAt, isLive_eq_isSome, hk.kept hu c d hd hm, hd]

/-- The frame and its list of values are as they were. -/
lemma sameValues (hk : h.Sparing D k) (hs : h.Sealed V) (hu : k.Unswept) (hf : h.IsFrame f)
    (hD : f ∉ D) (hb : ∀ c, h.Binds f c → c ∉ D) : h.SameValues k f := by
  obtain ⟨p, n, w, hf⟩ := hf
  have hf' := hk.kept hu f _ hf hD
  obtain ⟨s, hspine⟩ := hs.listed f p n w hf
  have hcells : ∀ c ∈ s, k.object? c = h.object? c := fun c hc => by
    obtain ⟨a, b, hp⟩ := hspine.pair_of_mem hc
    rw [hk.kept hu c _ hp (hb c ⟨p, n, w, s, hf, hspine, hc⟩), hp]
  refine ⟨hf'.trans hf.symm, ?_⟩
  rintro c ⟨p', n', w', s', hg, hs', hc⟩
  rw [hf] at hg
  obtain ⟨rfl, rfl, rfl⟩ := Datum.frame.inj (Option.some.inj hg)
  obtain rfl := hs'.unique hs.emptyList hspine
  refine ⟨⟨p, n, w, s', hf', hspine.congr fun c hc a b hp => ⟨a, ?_⟩, hc⟩, hcells c hc⟩
  rw [hcells c hc, hp]

/-- So are its bindings, if no pair of the list of names has been changed. -/
lemma sameBindings (hk : h.Sparing D k) (hs : h.Sealed V) (hu : k.Unswept) {p : Option Handle}
    (hf : h.object? f = some (.frame p names values)) (hD : f ∉ D) (hb : ∀ c, h.Binds f c → c ∉ D)
    (hn : ∀ c, h.Along names c → c ∈ D → h.IsFrame c) (hnil : Handle.emptyList ∉ D) :
    h.SameBindings k f := by
  obtain ⟨hfk, hvalues⟩ := hk.sameValues hs hu ⟨_, _, _, hf⟩ hD hb
  obtain ⟨s, hspine⟩ := hs.listed f p names values hf
  have hbound : ∀ {c}, c ∈ s → h.Binds f c := fun hc => ⟨p, names, values, s, hf, hspine, hc⟩
  have hlive : ∀ {v c}, v ∈ (Datum.frame p names values).children → h.Along v c →
      ∃ d, h.object? c = some d := fun hv hc => hc.live hs.attached (hs.attached f _ hf _ hv)
  intro symbol
  obtain ⟨slot, hfind, hslot⟩ := hs.exists_localSlot symbol hf
  have hslot' : k.localSlot f symbol = .ok slot := by
    refine (hfind.congr (fun c hc => ?_) fun c hc => ?_).localSlot_eq (hfk.trans hf)
    · exact hk.looks hu (hlive (by simp [Datum.children]) hc) (hn c hc)
    · refine hk.looks hu (hlive (by simp [Datum.children]) hc) fun hm => ?_
      rcases hc.mem_spine hs.emptyList hspine with hc | rfl
      · exact absurd hm (hb c (hbound hc))
      · exact absurd hm hnil
  cases slot with
  | none => rw [bound?, hslot', bound?, hslot]
  | some slot =>
    have hobj := (hvalues slot (hs.binds_of_localSlot hslot)).2
    simp only [bound?, hslot, hslot', pairAt, hobj]

end Sparing

end Heap

/-! ## Actions that change little -/

variable {ε α β γ : Type} {D : Set Handle} {h k : Heap} {V : Veil} {d : Datum} {R : Prop}
  {a b c f v u env symbol args : Handle}

/-- However an action ends, it has changed only objects in `D`. -/
abbrev Outcome.Local (D : Set Handle) (h : Heap) (o : Outcome ε α) : Prop :=
  o.Ends True (fun _ k => h.Sparing D k) fun _ k => h.Sparing D k

namespace Local

variable {E : ε → Heap → Prop}

/-- What becomes of an earlier heap. -/
lemma from_earlier {o : Outcome ε α} (hk : h.Sparing D k) (ho : o.Local D k) : o.Local D h :=
  ho.mono (fun _ _ ha => hk.trans ha) fun _ _ he => hk.trans he

lemma pure (a : α) : ((pure a : HeapM ε α) h).Local D h := .refl D h

lemma bind {x : HeapM ε α} {F : α → HeapM ε β} (hx : (x h).Local D h)
    (hF : ∀ a k, h.Sparing D k → (F a k).Local D k) : ((x >>= F) h).Local D h :=
  ends_bind hx fun a k ha => from_earlier ha (hF a k ha)

lemma rooted {body : Root → HeapM ε α} (hb : ∀ root k, k.cells = h.cells →
    k.collections = h.collections → (body root k).Local D k) :
    ((HeapM.rooted v body) h).Local D h := by
  have hpush : h.Sparing D { h with roots := h.roots.push v } := .of_cells rfl rfl
  have hpop : ∀ k : Heap, k.Sparing D { k with roots := k.roots.pop } := fun k => .of_cells rfl rfl
  exact ends_rooted (from_earlier hpush (hb _ _ rfl rfl)) (fun _ k hk _ => hk.trans (hpop k))
    fun _ k hk _ => hk.trans (hpop k)

lemma alloc (hd : d.isFree = false) : ((HeapM.alloc d) h).Local D h := by
  rcases alloc_cases hd h with ⟨v, k, hr, hk⟩ | ⟨k, hr, hk⟩ | ⟨c, hr, -⟩ <;> rw [hr]
  · have hkeep : k.Unswept → ∀ u e, h.object? u = some e → k.object? u = some e := by
      intro hu u e he
      obtain ⟨hn, hrw⟩ := hk hu
      have hne : u ≠ v := by
        rintro rfl
        rw [hn] at he
        simp at he
      rw [hrw.other hne, he]
    refine ⟨fun hu => (hk hu).2.collections.symm.trans hu, fun hu u e he _ => hkeep hu u e he, ?_⟩
    rintro hu f ⟨p, n, w, hf⟩
    exact ⟨p, n, w, hkeep hu f _ hf⟩
  · exact ⟨fun hu => hk hu ▸ hu, fun hu _ _ he _ => hk hu ▸ he, fun hu _ hf => hk hu ▸ hf⟩
  · exact fun _ => trivial

lemma raise {P : α → Heap → Prop} (kind : ErrorKind) (message : String) :
    ((HeapM.raise kind message : EvalM α) h).Ends True P fun _ k => h.Sparing D k := by
  have herror : ((HeapM.makeError kind message : EvalM Handle) h).Local D h := by
    refine ends_ite (fun _ => pure _) fun _ => ?_
    have halloc : ((HeapM.alloc (.error kind message)) h).Local D h := alloc rfl
    rw [recover]
    revert halloc
    cases HeapM.alloc (.error kind message) h with
    | ok _ _ => exact id
    | error _ _ => exact id
    | halt _ => exact id
  exact ends_bind herror fun _ _ => id

/-- Replacing an object in `D` by one of the same type. -/
lemma overwrite (hv : v ∈ D) {e : Datum} (he : h.object? v = some e) (ht : d.type = e.type) :
    ((HeapM.overwrite v d : HeapM ε Unit) h).Local D h := by
  have hd : d.isFree = false := by
    have := (object?_eq_some.mp he).2
    rwa [Datum.isFree, ht]
  have hr : h.Rewritten v d (h.setCell v.index d) := .setCell he hd
  refine ⟨id, fun _ u e' hu hD => ?_, fun _ f hf => ?_⟩
  · have hne : u ≠ v := fun he => hD (he ▸ hv)
    rw [hr.other hne, hu]
  · by_cases hne : f = v
    · subst hne
      obtain ⟨p, n, w, hf⟩ := hf
      obtain rfl := Option.some.inj (hf.symm.trans he)
      cases d with
      | frame p' n' w' => exact ⟨p', n', w', hr.self⟩
      | _ => simp [Datum.type] at ht
    · rw [IsFrame, hr.other hne]
      exact hf

lemma setCar (ha : a ∈ D) : ((HeapM.setCar a v : HeapM ε Unit) h).Local D h := by
  refine ends_expect fun d p hr hp => ?_
  cases d with
  | pair x y => exact overwrite ha (object?_eq_some.mpr ⟨cells_of_read hr, rfl⟩) rfl
  | _ => simp [Datum.pair?] at hp

lemma setCdr (ha : a ∈ D) : ((HeapM.setCdr a v : HeapM ε Unit) h).Local D h := by
  refine ends_expect fun d p hr hp => ?_
  cases d with
  | pair x y => exact overwrite ha (object?_eq_some.mpr ⟨cells_of_read hr, rfl⟩) rfl
  | _ => simp [Datum.pair?] at hp

lemma setBindings (hf : f ∈ D) (names values : Handle) :
    ((HeapM.setBindings f names values : HeapM ε Unit) h).Local D h := by
  refine ends_expect fun d p hr hp => ?_
  cases d with
  | frame p n w => exact overwrite hf (object?_eq_some.mpr ⟨cells_of_read hr, rfl⟩) rfl
  | _ => simp [Datum.frame?] at hp

/-! ## Definitions and assignments -/

/-- A definition in a frame may change the frame or one of its bindings. -/
lemma define (env symbol v : Handle)
    (hD : ∀ slot, h.localSlot env symbol = .ok (some slot) → slot ∈ D) (henv : env ∈ D) :
    ((HeapM.define env symbol v) h).Local D h := by
  refine ends_look (fun _ => observed_localSlot) fun slot hslot => ?_
  cases slot with
  | some slot => exact bind (setCar (hD slot hslot)) fun _ _ _ => pure _
  | none =>
    refine rooted fun _ _ _ _ => rooted fun _ _ _ _ => ends_expect fun _ _ _ _ => ?_
    refine bind (alloc rfl) fun names _ _ => rooted fun _ _ _ _ => ?_
    exact bind (alloc rfl) fun values _ _ =>
      bind (setBindings henv names values) fun _ _ _ => pure _

/-- An assignment may change the binding that is found. -/
lemma assign (env symbol v : Handle)
    (hD : ∀ slot, h.nearestSlot env symbol = .ok (some slot) → slot ∈ D) :
    ((HeapM.assign env symbol v) h).Local D h := by
  refine ends_look (fun _ => observed_slotFrom _ _) fun slot hslot => ?_
  cases slot with
  | some slot => exact bind (setCar (hD slot hslot)) fun _ _ _ => pure _
  | none => exact ends_expect fun _ _ _ _ => raise _ _

/-! ## Changing pairs -/

/-- The arguments are looked at, and if there are two, then they are the arguments. -/
lemma ends_twoArguments (builtin : Builtin) (args : Handle) :
    ((builtin.twoArguments args) h).Ends True
      (fun p k => k = h ∧ (Builtin.arguments args) h = .ok [p.1, p.2] h)
      fun _ k => h.Sparing D k := by
  have hpass : ∀ vs : List Handle, ((Builtin.passErrors vs) h).Ends True (fun _ k => k = h)
      fun _ k => h.Sparing D k := by
    intro vs
    induction vs with
    | nil => rfl
    | cons v vs ih =>
      rw [Builtin.passErrors, List.forM_eq_forM, List.forM_cons]
      refine ends_bind (P := fun _ k => k = h)
        (ends_hasType fun _ _ => ends_ite (fun _ => .refl _ _)
        fun _ => rfl) fun _ k hk => ?_
      subst hk
      exact ih
  have hargs : ((Builtin.arguments args) h).Ends True
      (fun vs k => k = h ∧ (Builtin.arguments args) h = .ok vs h) fun _ k => h.Sparing D k := by
    cases hw : h.walkSpine args with
    | ok w =>
      have heq : Builtin.arguments args h = .ok (w.items?.getD []) h := by
        simp only [Builtin.arguments, items?, HeapM.walkSpine, bind_apply, inspect, hw]
        rfl
      rw [heq]
      exact ⟨rfl, rfl⟩
    | error c =>
      have heq : Builtin.arguments args h = .halt c := by
        simp only [Builtin.arguments, items?, HeapM.walkSpine, bind_apply, inspect, hw]
      rw [heq]
      exact fun _ => trivial
  refine ends_bind hargs fun vs k hk => ?_
  obtain ⟨rfl, hvs⟩ := hk
  split
  · next x y =>
    refine ends_bind (hpass [x, y]) fun _ l hl => ?_
    subst hl
    exact ⟨rfl, hvs⟩
  · exact raise _ _

/-- Changing the first argument if it is a pair. -/
lemma changing (builtin : Builtin) (args : Handle) {change : Handle → Handle → EvalM Unit}
    (hc : ∀ pair v a b, (Builtin.arguments args) h = .ok [pair, v] h →
      h.object? pair = some (.pair a b) → (change pair v h).Local D h) :
    ((do
      let (pair, v) ← builtin.twoArguments args
      if ← HeapM.hasType .pair pair then
        change pair v
        return Handle.emptyList
      else builtin.wrongArgument "a pair" pair) h).Local D h := by
  refine ends_bind (ends_twoArguments builtin args) fun p k hk => ?_
  obtain ⟨rfl, hargs⟩ := hk
  refine ends_hasType fun d hr => ends_ite (fun ht => ?_) fun _ => ends_typeOf fun _ _ => raise _ _
  cases d with
  | pair a b =>
    exact bind (hc _ _ a b hargs (object?_eq_some.mpr ⟨cells_of_read hr, rfl⟩)) fun _ _ _ => pure _
  | _ => exact absurd ht Bool.false_ne_true

/-- `set-car!` and `set-cdr!` may change the pair that is their first argument. -/
lemma call {builtin : Builtin} (hb : builtin = .setCar ∨ builtin = .setCdr)
    (hD : ∀ pair v a b, (Builtin.arguments args) h = .ok [pair, v] h →
      h.object? pair = some (.pair a b) → pair ∈ D) : ((builtin.call args) h).Local D h := by
  rcases hb with rfl | rfl
  · exact changing _ _ fun pair v a b hargs hp => setCar (hD pair v a b hargs hp)
  · exact changing _ _ fun pair v a b hargs hp => setCdr (hD pair v a b hargs hp)

end Local

end ArenaScheme
