/-
# Two runs of one program

A program is run twice, on heaps that may differ in their sizes.  The runs allocate the same objects
in the same order, but they collect at different times, so an object has different handles in the
two heaps.  A *twin* consists of the two heaps and of a relation between the handles of
corresponding objects.

Corresponding objects also have a role.  Most are *shown*: the program may hold them.  The pairs of
a frame's list of values are *bindings*, pairs that have been added to its list of names are
*naming*, and pairs of a list that the interpreter is still building are *drafts*; the program holds
none of these, so it cannot change them.  An object may also be *hidden*: names that are not in the
program's vocabulary, and the procedures that only these names are bound to.

The invariant of twins says that corresponding objects have corresponding parts, of such roles as
their own role demands, and that the roots, the named frames and the tables of symbols correspond.
It does not mention an object of one heap that corresponds to none of the other.  Such an object is
garbage that has been reclaimed there.

What may be assumed about the runs is collected in a *regime*.  With a regime under which the two
runs are the same run, statements about twins are statements about a single run.
-/
import Mathlib.Data.Option.Basic
import ArenaScheme.Proofs.Calls.Parameters

namespace ArenaScheme

/-! ## Roles and regimes -/

/-- What an object is to the program. -/
inductive Role
  /-- The program may hold the object. -/
  | shown
  /-- An atom that the program cannot get hold of. -/
  | hidden
  /-- A pair of the list of values of a frame. -/
  | binding
  /-- A pair that has been added to the list of names of a frame. -/
  | naming
  /-- A pair of a list under construction, which is held in that root slot. -/
  | draft (slot : Nat)
deriving DecidableEq

/-- What is assumed of two runs. -/
structure Regime where
  /-- The names that may occur in the program. -/
  names : String → Prop
  /-- The procedures that the program may call. -/
  natives : Native → Prop
  /-- Whether the two runs are one and the same. -/
  same : Prop
  /-- Whether the program may change pairs. -/
  rewriting : Prop
  /-- Only the names of three procedures may be kept from the program. -/
  vocabulary : ∀ s, s ≠ "set-car!" → s ≠ "set-cdr!" → s ≠ "gc" → names s
  /-- A built-in procedure may be called if its name may be used. -/
  builtin : ∀ b : Builtin, natives (.builtin b) ↔ names b.name
  host : ∀ slot, ¬ natives (.host slot)
  /-- How much a collection frees is no common property of different runs. -/
  collects : natives (.builtin .collectGarbage) → same
  rewrites : natives (.builtin .setCar) ∨ natives (.builtin .setCdr) → rewriting

open Classical in
/-- The role of the symbol of a name. -/
noncomputable def Regime.roleOf (W : Regime) (name : String) : Role :=
  if W.names name then .shown else .hidden

lemma Regime.roleOf_of_names {W : Regime} {name : String} (hn : W.names name) :
    W.roleOf name = .shown := if_pos hn

/-- The roles of pairs that are never changed. -/
def Regime.Fixed (W : Regime) (r : Role) : Prop := r = .naming ∨ r = .shown ∧ ¬ W.rewriting

/-- A frame whose chain of parents comes to an end. -/
inductive Heap.Scope (h : Heap) : Handle → Prop
  | base {env names values : Handle} (hd : h.object? env = some (.frame none names values)) :
      Scope h env
  | child {env parent names values : Handle}
      (hd : h.object? env = some (.frame (some parent) names values)) (hp : Scope h parent) :
      Scope h env

lemma Heap.Scope.frame {h : Heap} {env : Handle} (hs : h.Scope env) :
    ∃ p n v, h.object? env = some (.frame p n v) := by
  cases hs with
  | base hd => exact ⟨_, _, _, hd⟩
  | child hd _ => exact ⟨_, _, _, hd⟩

/-! ## Twins -/

/-- The heaps of two runs, and which objects correspond to each other in which role. -/
structure Twin where
  left : Heap
  right : Heap
  rel : Role → Handle → Handle → Prop

namespace Twin

/-- Two handles of corresponding objects. -/
def Known (σ : Twin) (a b : Handle) : Prop := ∃ r, σ.rel r a b

/-- Corresponding proper lists of `n` pairs of one role, whose elements are shown. -/
def Spine (σ : Twin) (r : Role) : Nat → Handle → Handle → Prop
  | 0, v, v' => v = .emptyList ∧ v' = .emptyList
  | n + 1, v, v' => σ.rel r v v' ∧ ∃ x c x' c', σ.left.pairAt v = some (x, c) ∧
      σ.right.pairAt v' = some (x', c') ∧ σ.rel .shown x x' ∧ Spine σ r n c c'

/-- The corresponding bindings of two frames, given by their lists of names and of values.  The
bindings that a frame has been made with have shown names; those in front of them have been added
one by one, and a name may be hidden together with its value.  If the program cannot change pairs
then the names are the symbols `l`. -/
inductive Bindings (W : Regime) (σ : Twin) : List Handle → Handle → Handle → Handle → Handle → Prop
  | made {l : List Handle} {names names' values values' : Handle} (hn : σ.rel .shown names names')
      (hl : ¬ W.rewriting → σ.left.Specifies names l .emptyList)
      (hv : σ.Spine .binding l.length values values') : Bindings W σ l names names' values values'
  | added {l : List Handle} {r : Role} {name : String}
      {names names' values values' s s' ns ns' x x' vs vs' : Handle}
      (hn : σ.rel .naming names names') (hl : σ.left.pairAt names = some (s, ns))
      (hr : σ.right.pairAt names' = some (s', ns')) (hv : σ.rel .binding values values')
      (hl' : σ.left.pairAt values = some (x, vs)) (hr' : σ.right.pairAt values' = some (x', vs'))
      (hk : ∀ k, r ≠ .draft k) (hs : σ.rel r s s') (hx : σ.rel r x x')
      (hname : σ.left.object? s = some (.symbol name)) (hnew : ¬ W.rewriting → s ∉ l)
      (hb : Bindings W σ l ns ns' vs vs') :
      Bindings W σ (s :: l) names names' values values'

/-- The contents that corresponding objects of a role may have. -/
inductive Fits (W : Regime) (σ : Twin) : Role → Datum → Datum → Prop
  | atom {d : Datum} (hf : d.isFree = false) (hc : d.children = [])
      (hs : ∀ s, d = .symbol s → W.names s) (hn : ∀ s code, d = .foreign s code → W.natives code) :
      Fits W σ .shown d d
  | secret {d : Datum} (hf : d.isFree = false) (hc : d.children = []) : Fits W σ .hidden d d
  | pair {a a' b b' : Handle} (ha : σ.rel .shown a a') (hb : σ.rel .shown b b') :
      Fits W σ .shown (.pair a b) (.pair a' b')
  | closure {e e' p p' b b' : Handle} (he : σ.rel .shown e e') (hs : σ.left.Scope e)
      (hp : σ.rel .shown p p') (hl : ¬ W.rewriting → ∃ l last, σ.left.Specifies p l last)
      (hb : σ.rel .shown b b') : Fits W σ .shown (.closure e p b) (.closure e' p' b')
  | frame {p p' : Option Handle} {n n' v v' : Handle} {l : List Handle}
      (hp : Option.Rel (σ.rel .shown) p p') (hs : ∀ q, p = some q → σ.left.Scope q)
      (hb : σ.Bindings W l n n' v v') : Fits W σ .shown (.frame p n v) (.frame p' n' v')
  | binding {a a' b b' : Handle} (ha : σ.Known a a') (hb : σ.Known b b') :
      Fits W σ .binding (.pair a b) (.pair a' b')
  | naming {a a' b b' : Handle} (ha : σ.Known a a') (hb : σ.Known b b') :
      Fits W σ .naming (.pair a b) (.pair a' b')
  | draft {k : Nat} {a a' b b' : Handle} (ha : σ.rel .shown a a')
      (hb : σ.rel .shown b b' ∨ σ.rel (.draft k) b b') :
      Fits W σ (.draft k) (.pair a b) (.pair a' b')

/-- The invariant of twins. -/
structure Valid (W : Regime) (σ : Twin) : Prop where
  left : σ.left.WellFormed
  right : σ.right.WellFormed
  functional : ∀ {r r' a b b'}, σ.rel r a b → σ.rel r' a b' → r = r' ∧ b = b'
  injective : ∀ {r r' a a' b}, σ.rel r a b → σ.rel r' a' b → r = r' ∧ a = a'
  data : ∀ {r a b}, σ.rel r a b → ∃ d d', σ.left.object? a = some d ∧
    σ.right.object? b = some d' ∧ Fits W σ r d d'
  depth : σ.right.roots.size = σ.left.roots.size
  roots : ∀ {i a b}, σ.left.roots[i]? = some a → σ.right.roots[i]? = some b →
    ∃ r, σ.rel r a b ∧ ∀ j, r = .draft j → j ≤ i
  base : σ.rel .shown σ.left.baseEnv σ.right.baseEnv
  baseScope : σ.left.Scope σ.left.baseEnv
  current : σ.rel .shown σ.left.currentEnv σ.right.currentEnv
  currentScope : σ.left.Scope σ.left.currentEnv
  sentinel : ∀ {v : Handle}, v.index < Heap.regionStart → σ.rel .shown v v ∧
    σ.left.object? v = Heap.sentinels[v.index]? ∧ σ.right.object? v = Heap.sentinels[v.index]?
  permanents : σ.left.cells.size + σ.right.regionEnd = σ.right.cells.size + σ.left.regionEnd
  permanent : ∀ k, σ.left.regionEnd + k < σ.left.cells.size →
    σ.Known ⟨σ.left.regionEnd + k⟩ ⟨σ.right.regionEnd + k⟩
  symbols : ∀ name : String,
    Option.Rel (σ.rel (W.roleOf name)) σ.left.symbols[name]? σ.right.symbols[name]?
  audited : σ.right.audited = σ.left.audited
  same : W.same → σ.left = σ.right ∧ ∀ {r a b}, σ.rel r a b → a = b

variable {W : Regime} {σ τ : Twin} {r : Role} {a b a' b' : Handle} {d d' : Datum}

/-! ## First consequences -/

lemma Spine.known {n : Nat} {v v' : Handle} (hv : σ.Valid W) (hs : σ.Spine r n v v') :
    σ.Known v v' := by
  cases n with
  | zero =>
    obtain ⟨rfl, rfl⟩ := hs
    exact ⟨.shown, (hv.sentinel (by decide)).1⟩
  | succ n => exact ⟨r, hs.1⟩

lemma Bindings.known {l : List Handle} {n n' v v' : Handle} (hv : σ.Valid W)
    (hb : σ.Bindings W l n n' v v') : σ.Known n n' ∧ σ.Known v v' := by
  cases hb with
  | made hn _ hs => exact ⟨⟨_, hn⟩, hs.known hv⟩
  | added hn _ _ hs => exact ⟨⟨_, hn⟩, ⟨_, hs⟩⟩

lemma Fits.not_free (hf : Fits W σ r d d') : d.isFree = false ∧ d'.isFree = false := by
  cases hf <;> first | exact ⟨‹_›, ‹_›⟩ | exact ⟨rfl, rfl⟩

lemma Fits.type_eq (hf : Fits W σ r d d') : d'.type = d.type := by
  cases hf <;> rfl

/-- Corresponding objects refer to corresponding objects. -/
lemma Fits.children (hv : σ.Valid W) (hf : Fits W σ r d d') :
    List.Forall₂ σ.Known d.children d'.children := by
  cases hf with
  | atom _ hc | secret _ hc =>
    rw [hc]
    exact .nil
  | pair ha hb => exact .cons ⟨_, ha⟩ (.cons ⟨_, hb⟩ .nil)
  | closure he _ hp _ hb => exact .cons ⟨_, he⟩ (.cons ⟨_, hp⟩ (.cons ⟨_, hb⟩ .nil))
  | frame hp _ hb =>
    obtain ⟨h1, h2⟩ := hb.known hv
    cases hp with
    | none => exact .cons h1 (.cons h2 .nil)
    | some hq => exact .cons ⟨_, hq⟩ (.cons h1 (.cons h2 .nil))
  | binding ha hb | naming ha hb => exact .cons ha (.cons hb .nil)
  | draft ha hb =>
    refine .cons ⟨_, ha⟩ (.cons ?_ .nil)
    rcases hb with hb | hb
    · exact ⟨_, hb⟩
    · exact ⟨_, hb⟩

namespace Valid

variable (hv : σ.Valid W)

include hv

/-- Handles of corresponding objects are equal on both sides or on neither. -/
lemma eq_iff {r r' : Role} (hab : σ.rel r a b) (hab' : σ.rel r' a' b') : a = a' ↔ b = b' := by
  constructor
  · rintro rfl
    exact (hv.functional hab hab').2
  · rintro rfl
    exact (hv.injective hab hab').2

lemma eq_sentinel_iff (hab : σ.rel r a b) {v : Handle} (hs : v.index < Heap.regionStart) :
    a = v ↔ b = v := hv.eq_iff hab (hv.sentinel hs).1

lemma isTruthy_eq (hab : σ.rel r a b) : b.isTruthy = a.isTruthy := by
  have := hv.eq_sentinel_iff hab (v := .falseObject) (by decide)
  rw [Bool.eq_iff_iff, Handle.isTruthy, Handle.isTruthy, bne_iff_ne, bne_iff_ne, Ne, Ne, this]

lemma isLive_left (hab : σ.rel r a b) : σ.left.isLive a = true := by
  obtain ⟨d, -, hd, -⟩ := hv.data hab
  exact Heap.isLive_of_object? hd

lemma isLive_right (hab : σ.rel r a b) : σ.right.isLive b = true := by
  obtain ⟨-, d', -, hd, -⟩ := hv.data hab
  exact Heap.isLive_of_object? hd

/-- The contents of corresponding objects, given those of one of them. -/
lemma data_of_left (hab : σ.rel r a b) (hd : σ.left.object? a = some d) :
    ∃ d', σ.right.object? b = some d' ∧ Fits W σ r d d' := by
  obtain ⟨e, d', he, hd', hf⟩ := hv.data hab
  obtain rfl := Option.some.inj (he.symm.trans hd)
  exact ⟨d', hd', hf⟩

lemma pairAt_right (hab : σ.rel r a b) {x c : Handle} (hp : σ.left.pairAt a = some (x, c)) :
    ∃ x' c', σ.right.pairAt b = some (x', c') ∧ Fits W σ r (.pair x c) (.pair x' c') := by
  obtain ⟨d', hd', hf⟩ := hv.data_of_left hab (Heap.pairAt_eq_some.mp hp)
  cases hf with
  | atom _ hc | secret _ hc => simp [Datum.children] at hc
  | pair ha hb => exact ⟨_, _, Heap.pairAt_eq_some.mpr hd', .pair ha hb⟩
  | binding ha hb => exact ⟨_, _, Heap.pairAt_eq_some.mpr hd', .binding ha hb⟩
  | naming ha hb => exact ⟨_, _, Heap.pairAt_eq_some.mpr hd', .naming ha hb⟩
  | draft ha hb => exact ⟨_, _, Heap.pairAt_eq_some.mpr hd', .draft ha hb⟩

/-- What is no pair corresponds to what is no pair. -/
lemma pairAt_right_none (hab : σ.rel r a b) (hp : σ.left.pairAt a = none) :
    σ.right.pairAt b = none := by
  obtain ⟨d, d', hd, hd', hf⟩ := hv.data hab
  have ht := hf.type_eq
  rw [Heap.pairAt, hd']
  rw [Heap.pairAt, hd] at hp
  cases d <;> cases d' <;> simp_all [Datum.pair?, Datum.type]

lemma shown_pair (hab : σ.rel .shown a b) {x c x' c' : Handle}
    (hp : σ.left.pairAt a = some (x, c)) (hp' : σ.right.pairAt b = some (x', c')) :
    σ.rel .shown x x' ∧ σ.rel .shown c c' := by
  obtain ⟨y, e, hq, hf⟩ := hv.pairAt_right hab hp
  rw [hp'] at hq
  obtain ⟨rfl, rfl⟩ : x' = y ∧ c' = e := by simpa using hq
  cases hf with
  | atom _ hc => simp [Datum.children] at hc
  | pair ha hb => exact ⟨ha, hb⟩

lemma draft_pair {k : Nat} (hab : σ.rel (.draft k) a b) :
    ∃ x c x' c', σ.left.pairAt a = some (x, c) ∧ σ.right.pairAt b = some (x', c') ∧
      σ.rel .shown x x' ∧ (σ.rel .shown c c' ∨ σ.rel (.draft k) c c') := by
  obtain ⟨d, d', hd, hd', hf⟩ := hv.data hab
  cases hf with
  | draft ha hb =>
    exact ⟨_, _, _, _, Heap.pairAt_eq_some.mpr hd, Heap.pairAt_eq_some.mpr hd', ha, hb⟩

lemma scope_of_frame (hab : σ.rel .shown a b) {p : Option Handle} {n v : Handle}
    (hd : σ.left.object? a = some (.frame p n v)) : σ.left.Scope a := by
  obtain ⟨d', hd', hf⟩ := hv.data_of_left hab hd
  cases hf with
  | atom _ hc => cases p <;> simp [Datum.children] at hc
  | frame _ hs _ =>
    cases p with
    | none => exact .base hd
    | some q => exact .child hd (hs q rfl)

/-- What can be reached in the one heap corresponds to what can be reached in the other. -/
lemma reachable {extra extra' : List Handle} (he : List.Forall₂ σ.Known extra extra')
    (ha : σ.left.Reachable extra a) : ∃ r b, σ.rel r a b ∧ σ.right.Reachable extra' b := by
  induction ha with
  | @anchor v ha =>
    cases ha with
    | sentinel hi => exact ⟨_, _, (hv.sentinel hi).1, .anchor (.sentinel hi)⟩
    | permanent hr hs =>
      obtain ⟨k, rfl⟩ : ∃ k, v = ⟨σ.left.regionEnd + k⟩ :=
        ⟨v.index - σ.left.regionEnd, by rw [Nat.add_sub_cancel' hr]⟩
      obtain ⟨r, hk⟩ := hv.permanent k hs
      refine ⟨r, _, hk, .anchor (.permanent (Nat.le_add_right ..) ?_)⟩
      have := hv.permanents
      dsimp only at hs ⊢
      omega
    | root hm =>
      obtain ⟨i, hi⟩ := Array.mem_iff_getElem?.mp (Array.mem_toList_iff.mp hm)
      have hlt : i < σ.right.roots.size := hv.depth ▸ (Array.getElem?_eq_some_iff.mp hi).1
      have hi' : σ.right.roots[i]? = some σ.right.roots[i] := Array.getElem?_eq_getElem hlt
      obtain ⟨r, hr, -⟩ := hv.roots hi hi'
      exact ⟨r, _, hr, .anchor (.root (Array.mem_toList_iff.mpr (Array.mem_of_getElem? hi')))⟩
    | base => exact ⟨_, _, hv.base, .anchor .base⟩
    | current => exact ⟨_, _, hv.current, .anchor .current⟩
    | extra hm =>
      obtain ⟨i, hi⟩ := List.mem_iff_getElem?.mp hm
      have hlt : i < extra'.length := he.length_eq ▸ (List.getElem?_eq_some_iff.mp hi).1
      obtain ⟨r, hr⟩ := (List.forall₂_iff_get.mp he).2 i (List.getElem?_eq_some_iff.mp hi).1 hlt
      rw [List.get_eq_getElem, (List.getElem?_eq_some_iff.mp hi).2] at hr
      exact ⟨r, _, hr, .of_extra (List.getElem_mem hlt)⟩
  | @child u v d _ hd hm ih =>
    obtain ⟨r, b, hr, hb⟩ := ih
    obtain ⟨d', hd', hf⟩ := hv.data_of_left hr hd
    have hc := hf.children hv
    obtain ⟨i, hi⟩ := List.mem_iff_getElem?.mp hm
    have hlt : i < d'.children.length := hc.length_eq ▸ (List.getElem?_eq_some_iff.mp hi).1
    obtain ⟨r', hr'⟩ := (List.forall₂_iff_get.mp hc).2 i (List.getElem?_eq_some_iff.mp hi).1 hlt
    rw [List.get_eq_getElem, (List.getElem?_eq_some_iff.mp hi).2] at hr'
    exact ⟨r', _, hr', .child hb hd' (List.getElem_mem hlt)⟩

lemma reachable_right {extra extra' : List Handle} (he : List.Forall₂ σ.Known extra extra')
    (hab : σ.rel r a b) (ha : σ.left.Reachable extra a) : σ.right.Reachable extra' b := by
  obtain ⟨r', b', hr', hb'⟩ := hv.reachable he ha
  rwa [(hv.functional hab hr').2]

end Valid

/-! ## Carrying correspondence over to another twin -/

/-- `τ` differs from `σ` in such a way that corresponding bindings and scopes remain so, at least as
far as the pairs of handles that are kept are concerned. -/
structure Carries (W : Regime) (σ τ : Twin) (keep : Handle → Handle → Prop) : Prop where
  rel : ∀ {r a b}, keep a b → (∀ k, r ≠ .draft k) → σ.rel r a b → τ.rel r a b
  binding : ∀ {a b x c x' c'}, keep a b → σ.rel .binding a b → σ.left.pairAt a = some (x, c) →
    σ.right.pairAt b = some (x', c') → ∃ y y', τ.left.pairAt a = some (y, c) ∧
      τ.right.pairAt b = some (y', c') ∧
      (∀ r, (∀ k, r ≠ .draft k) → σ.rel r x x' → τ.rel r y y') ∧ keep c c'
  fixed : ∀ {r a b x c x' c'}, W.Fixed r → keep a b → σ.rel r a b → σ.left.pairAt a = some (x, c) →
    σ.right.pairAt b = some (x', c') → τ.left.pairAt a = some (x, c) ∧
      τ.right.pairAt b = some (x', c') ∧ keep x x' ∧ keep c c'
  symbol : ∀ {r a b s}, keep a b → σ.rel r a b → σ.left.object? a = some (.symbol s) →
    τ.left.object? a = some (.symbol s)
  scope : ∀ {a b p n v}, keep a b → σ.rel .shown a b → σ.left.object? a = some (.frame p n v) →
    ∃ n' v', τ.left.object? a = some (.frame p n' v') ∧
      ∀ q q', p = some q → σ.rel .shown q q' → keep q q'

variable {keep : Handle → Handle → Prop}

lemma Spine.carry (hc : Carries W σ τ keep) {n : Nat} {v v' : Handle} (hk : keep v v')
    (hs : σ.Spine .binding n v v') : τ.Spine .binding n v v' := by
  induction n generalizing v v' with
  | zero => exact hs
  | succ n ih =>
    obtain ⟨hr, x, c, x', c', hl, hl', hx, hs⟩ := hs
    obtain ⟨y, y', hy, hy', hrel, hkc⟩ := hc.binding hk hr hl hl'
    exact ⟨hc.rel hk (by simp) hr, y, c, y', c', hy, hy', hrel _ (by simp) hx, ih hkc hs⟩

/-- If the program cannot change pairs then the parameters of a procedure remain what they are. -/
lemma specifies_carry (hv : σ.Valid W) (hc : Carries W σ τ keep) (hw : ¬ W.rewriting)
    {l : List Handle} {last : Handle} (hs : σ.left.Specifies a l last) (hab : σ.rel .shown a b)
    (hk : keep a b) : τ.left.Specifies a l last := by
  obtain ⟨⟨cells, hrow⟩, hsym, hend⟩ := hs
  induction hrow generalizing b with
  | nil => exact ⟨⟨[], .nil⟩, by simp, hend.imp_right fun ⟨s, hd⟩ => ⟨s, hc.symbol hk hab hd⟩⟩
  | cons hd _ ih =>
    have hp := Heap.pairAt_eq_some.mpr hd
    obtain ⟨x', c', hp', -⟩ := hv.pairAt_right hab hp
    obtain ⟨hx, htail⟩ := hv.shown_pair hab hp hp'
    obtain ⟨hq, -, hkx, hkc⟩ := hc.fixed (.inr ⟨rfl, hw⟩) hk hab hp hp'
    obtain ⟨⟨s, hd'⟩, hsym⟩ := List.forall_mem_cons.mp hsym
    obtain ⟨⟨cells, hrow⟩, hsym, hend⟩ := ih htail hkc hsym
    exact ⟨⟨_, .cons (Heap.pairAt_eq_some.mp hq) hrow⟩,
      List.forall_mem_cons.mpr ⟨⟨s, hc.symbol hkx hx hd'⟩, hsym⟩, hend⟩

lemma Bindings.carry (hv : σ.Valid W) (hc : Carries W σ τ keep) {l : List Handle}
    {n n' v v' : Handle} (hn : keep n n') (hkv : keep v v') (hb : σ.Bindings W l n n' v v') :
    τ.Bindings W l n n' v v' := by
  induction hb with
  | made hn' hl hs =>
    exact .made (hc.rel hn (by simp) hn') (fun hw => specifies_carry hv hc hw (hl hw) hn' hn)
      (hs.carry hc hkv)
  | added hn' hl hr hval hl' hr' hd hs hx hname hnew _ ih =>
    obtain ⟨hs1, hs2, hks, hkn⟩ := hc.fixed (.inl rfl) hn hn' hl hr
    obtain ⟨x, x', hx1, hx2, hxr, hkv'⟩ := hc.binding hkv hval hl' hr'
    exact .added (hc.rel hn (by simp) hn') hs1 hs2 (hc.rel hkv (by simp) hval) hx1 hx2 hd
      (hc.rel hks hd hs) (hxr _ hd hx) (hc.symbol hks hs hname) hnew (ih hkn hkv')

lemma scope_carry (hv : σ.Valid W) (hc : Carries W σ τ keep) (hs : σ.left.Scope a)
    (hab : σ.rel .shown a b) (hk : keep a b) : τ.left.Scope a := by
  induction hs generalizing b with
  | base hd =>
    obtain ⟨n', v', hd', -⟩ := hc.scope hk hab hd
    exact .base hd'
  | child hd _ ih =>
    obtain ⟨n', v', hd', hp⟩ := hc.scope hk hab hd
    obtain ⟨e, -, hf⟩ := hv.data_of_left hab hd
    cases hf with
    | atom _ hch => simp [Datum.children] at hch
    | frame hq _ _ =>
      obtain ⟨hq⟩ := hq
      exact .child hd' (ih hq (hp _ _ rfl hq))

/-- Contents whose parts are kept still fit. -/
lemma Fits.carry (hv : σ.Valid W) (hc : Carries W σ τ keep)
    (hknown : ∀ {a b}, keep a b → σ.Known a b → τ.Known a b)
    (hdraft : ∀ {k a b}, r = .draft k → keep a b → σ.rel (.draft k) a b → τ.rel (.draft k) a b)
    (hf : Fits W σ r d d')
    (hk : ∀ c ∈ d.children, ∀ c' ∈ d'.children, σ.Known c c' → keep c c') : Fits W τ r d d' := by
  cases hf with
  | atom hf hch hs hn => exact .atom hf hch hs hn
  | secret hf hch => exact .secret hf hch
  | pair ha hb =>
    exact .pair (hc.rel (hk _ (by simp [Datum.children]) _ (by simp [Datum.children]) ⟨_, ha⟩)
      (by simp) ha) (hc.rel (hk _ (by simp [Datum.children]) _ (by simp [Datum.children]) ⟨_, hb⟩)
      (by simp) hb)
  | @closure e e' p p' b b' he hs hp hl hb =>
    have hke : keep e e' := hk _ (by simp [Datum.children]) _ (by simp [Datum.children]) ⟨_, he⟩
    have hkp : keep p p' := hk _ (by simp [Datum.children]) _ (by simp [Datum.children]) ⟨_, hp⟩
    refine .closure (hc.rel hke (by simp) he) (scope_carry hv hc hs he hke)
      (hc.rel hkp (by simp) hp)
      (fun hw => ?_)
      (hc.rel (hk _ (by simp [Datum.children]) _ (by simp [Datum.children]) ⟨_, hb⟩) (by simp) hb)
    obtain ⟨l, last, hl⟩ := hl hw
    exact ⟨l, last, specifies_carry hv hc hw hl hp hkp⟩
  | @frame p p' n n' v v' l hp hs hb =>
    obtain ⟨hkn, hkv⟩ := hb.known hv
    have hb' := hb.carry hv hc (hk _ (by simp [Datum.children]) _ (by simp [Datum.children]) hkn)
      (hk _ (by simp [Datum.children]) _ (by simp [Datum.children]) hkv)
    cases hp with
    | none => exact .frame .none (by simp) hb'
    | @some q q' hq =>
      have hkq : keep q q' := hk _ (by simp [Datum.children]) _ (by simp [Datum.children]) ⟨_, hq⟩
      refine .frame (.some (hc.rel hkq (by simp) hq)) ?_ hb'
      rintro _ ⟨rfl⟩
      exact scope_carry hv hc (hs q rfl) hq hkq
  | binding ha hb =>
    exact .binding (hknown (hk _ (by simp [Datum.children]) _ (by simp [Datum.children]) ha) ha)
      (hknown (hk _ (by simp [Datum.children]) _ (by simp [Datum.children]) hb) hb)
  | naming ha hb =>
    exact .naming (hknown (hk _ (by simp [Datum.children]) _ (by simp [Datum.children]) ha) ha)
      (hknown (hk _ (by simp [Datum.children]) _ (by simp [Datum.children]) hb) hb)
  | draft ha hb =>
    refine .draft (hc.rel (hk _ (by simp [Datum.children]) _ (by simp [Datum.children]) ⟨_, ha⟩)
      (by simp) ha) ?_
    rcases hb with hb | hb
    · exact .inl (hc.rel (hk _ (by simp [Datum.children]) _ (by simp [Datum.children]) ⟨_, hb⟩)
        (by simp) hb)
    · exact .inr
        (hdraft rfl (hk _ (by simp [Datum.children]) _ (by simp [Datum.children]) ⟨_, hb⟩) hb)

end Twin

end ArenaScheme
