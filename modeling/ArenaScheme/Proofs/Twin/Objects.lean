/-
# Making objects in step

Allocation is where two runs part: either may have to collect first, and either may find no cell.
If both find one, the new objects correspond, everything that could be reached is kept, and so is
what the new objects refer to.
-/
import ArenaScheme.Heap.Spine
import ArenaScheme.Proofs.Accessors
import ArenaScheme.Proofs.Twin.Runs

namespace ArenaScheme

namespace Twin

open Heap HeapM

variable {ε α α' β β' : Type} [Fault ε] {W : Regime} {σ τ : Twin} {R : Twin → Twin → Prop}
  {r : Role} {a b a' b' v v' : Handle} {d d' : Datum} {m : Nat} {A : Nat → Prop}

/-! ## Allocation -/

lemma Fits.isLive_left (hv : σ.Valid W) (hf : Fits W σ r d d') {w : Handle} (hm : w ∈ d.children) :
    σ.left.isLive w = true := by
  have hc := hf.children hv
  obtain ⟨i, hi⟩ := List.mem_iff_getElem?.mp hm
  obtain ⟨hlt, rfl⟩ := List.getElem?_eq_some_iff.mp hi
  obtain ⟨s, hs⟩ := (List.forall₂_iff_get.mp hc).2 i hlt (hc.length_eq ▸ hlt)
  exact hv.isLive_left hs

lemma Fits.isLive_right (hv : σ.Valid W) (hf : Fits W σ r d d') {w : Handle}
    (hm : w ∈ d'.children) : σ.right.isLive w = true := by
  have hc := hf.children hv
  obtain ⟨i, hi⟩ := List.mem_iff_getElem?.mp hm
  obtain ⟨hlt, rfl⟩ := List.getElem?_eq_some_iff.mp hi
  obtain ⟨s, hs⟩ := (List.forall₂_iff_get.mp hc).2 i (hc.length_eq ▸ hlt) hlt
  exact hv.isLive_right hs

/-- `v` and `v'` are new corresponding objects, of which the left one is `d`, and what `d` refers to
is there as before. -/
structure New (σ : Twin) (r : Role) (d : Datum) (v v' : Handle) (τ : Twin) : Prop where
  rel : τ.rel r v v'
  object : τ.left.object? v = some d
  held : ∀ {s a b}, σ.left.Reachable d.children a → σ.rel s a b → τ.rel s a b
  kept : ∀ {a}, σ.left.Reachable d.children a → τ.left.object? a = σ.left.object? a
  fresh : ¬ σ.left.Reachable d.children v

lemma rel_shrink (hv : σ.Valid W) {h h' : Heap} {extra extra' : List Handle}
    (hl : σ.left.Kept extra h) (hr : σ.right.Kept extra' h')
    (he : List.Forall₂ σ.Known extra extra') {s : Role} (ha : σ.left.Reachable extra a)
    (hab : σ.rel s a b) : (σ.shrink h h').rel s a b := by
  refine ⟨hab, ?_, ?_⟩
  · rw [isLive_eq_isSome, hl.kept a ha, ← isLive_eq_isSome]
    exact hv.isLive_left hab
  · rw [isLive_eq_isSome, hr.kept b (hv.reachable_right he hab ha), ← isLive_eq_isSome]
    exact hv.isLive_right hab

lemma keeps_shrink (hv : σ.Valid W) {h h' : Heap} {extra extra' : List Handle}
    (hl : σ.left.Kept extra h) (hr : σ.right.Kept extra' h')
    (he : List.Forall₂ σ.Known extra extra') : Keeps σ (σ.shrink h h') where
  roots := hl.frame.roots
  roots' := hr.frame.roots
  current := hl.frame.currentEnv
  base := hl.frame.baseEnv
  capacity := hl.frame.capacity
  size := Nat.le_of_eq hl.frame.size.symm
  rel ha := rel_shrink hv hl hr he ha.of_nil
  object ha := hl.kept _ ha.of_nil

lemma keeps_grow (hv : σ.Valid W) {h h' : Heap} (hl : Grown σ.left d v h)
    (hr : Grown σ.right d' v' h') (hs : σ.left.cells.size ≤ h.cells.size) :
    Keeps σ (σ.grow h h' r v v') where
  roots := hl.roots
  roots' := hr.roots
  current := hl.currentEnv
  base := hl.baseEnv
  capacity := hl.capacity
  size := hs
  rel _ hab := .inl hab
  object {a} ha := by
    obtain ⟨e, he⟩ := isLive_iff.mp (hv.left.isLive_of_reachable (by simp) ha)
    rw [he]
    exact hl.object?_of_rel he

lemma grown_of_claim {h h' : Heap} {i : Nat} (hw : h'.WellFormed)
    (ho : ∀ w, h'.object? w = if w.index = i then some d else h.object? w)
    (hn : h.object? ⟨i⟩ = none) (hf : SameFrame h h') : Grown h d ⟨i⟩ h' := by
  refine ⟨hw, fun w => ?_, hn, hf.capacity, hf.roots, hf.baseEnv, hf.currentEnv, hf.audited⟩
  rw [ho]
  by_cases hi : w.index = i
  · rw [if_pos hi, if_pos (congrArg Handle.mk hi)]
  · rw [if_neg hi, if_neg fun he => hi (congrArg Handle.index he)]

lemma matched_outOfMemory (hv : σ.Valid W) : Fault.matched σ Handle.outOfMemory .outOfMemory := by
  obtain ⟨h1, h2, -⟩ := hv.sentinel (v := .outOfMemory) (by decide)
  exact ⟨h1, _, _, h2⟩

/-- Allocation of corresponding objects. -/
lemma Runs.alloc (hv : σ.Valid W) (hf : Fits W σ r d d') :
    Runs W Keeps (alloc d) (alloc d') σ (New σ r d) := by
  have hch := hf.children hv
  obtain ⟨k, hprep, hwk, hkept⟩ := prepare_spec hv.left fun w hm => hf.isLive_left hv hm
  obtain ⟨k', hprep', hwk', hkept'⟩ := prepare_spec hv.right fun w hm => hf.isLive_right hv hm
  have hsame : W.same → k = k' ∧ d = d' := fun hs => by
    obtain rfl := hf.eq_of_same hv hs
    rw [(hv.same hs).1] at hprep
    exact ⟨Except.ok.inj (hprep.symm.trans hprep'), rfl⟩
  have hvs := hv.shrink hwk hwk' hkept hkept' fun hs => (hsame hs).1
  have hks := keeps_shrink hv hkept hkept' hch
  have hfs : Fits W (σ.shrink k k') r d d' :=
    hf.carry hv (carries_shrink hv hwk hwk' hkept hkept') (fun hk ⟨s, hs⟩ => ⟨s, hs, hk⟩)
      (fun _ hk hs => ⟨hs, hk⟩) fun c hc c' hc' ⟨s, hs⟩ =>
        (rel_shrink hv hkept hkept' hch (.of_extra hc) hs).2
  cases hfree : k.free with
  | none =>
    have hl : HeapM.alloc d σ.left = .error .outOfMemory k := by
      simp only [HeapM.alloc, hprep, hfree]
    cases hfree' : k'.free with
    | none =>
      exact .error (τ := σ.shrink k k') hl (by simp only [HeapM.alloc, hprep', hfree']; rfl) hvs hks
        (matched_outOfMemory hvs)
    | some j =>
      have hs : ¬ W.same := fun hs => by
        rw [(hsame hs).1, hfree'] at hfree
        simp at hfree
      exact .starve_left (τ := σ.shrink k k') hs hl rfl hvs hks
  | some i =>
    obtain ⟨h, hclaim, hw, hobj, hnone, -, hfr⟩ := claim_wellFormed hwk hfree hf.not_free.1
      fun w hm => hfs.isLive_left hvs hm
    have hl : HeapM.alloc d σ.left = .ok ⟨i⟩ h := by
      simp only [HeapM.alloc, hprep, hfree, hclaim]
    cases hfree' : k'.free with
    | none =>
      have hs : ¬ W.same := fun hs => by
        rw [(hsame hs).1, hfree'] at hfree
        simp at hfree
      have hr : HeapM.alloc d' σ.right = .error .outOfMemory k' := by
        simp only [HeapM.alloc, hprep', hfree']
      exact .starve_right (τ := σ.shrink k k') hs hr rfl hvs hks
    | some j =>
      obtain ⟨h', hclaim', hw', hobj', hnone', -, hfr'⟩ := claim_wellFormed hwk' hfree'
        hf.not_free.2 fun w hm => hfs.isLive_right hvs hm
      have hr : HeapM.alloc d' σ.right = .ok ⟨j⟩ h' := by
        simp only [HeapM.alloc, hprep', hfree', hclaim']
      have hg : Grown (σ.shrink k k').left d ⟨i⟩ h := grown_of_claim hw hobj hnone hfr
      have hg' : Grown (σ.shrink k k').right d' ⟨j⟩ h' := grown_of_claim hw' hobj' hnone' hfr'
      have hvg : ((σ.shrink k k').grow h h' r ⟨i⟩ ⟨j⟩).Valid W := by
        refine hvs.grow hg hg' hfs ?_ (fun n hn => ?_) (fun name => ?_) fun hs => ?_
        · rw [hfr.size, hfr'.size, hfr.regionEnd, hfr'.regionEnd]
          exact hvs.permanents
        · rw [hfr.regionEnd, hfr.size] at hn
          rw [hfr.regionEnd, hfr'.regionEnd]
          obtain ⟨s, hs⟩ := hvs.permanent n hn
          exact ⟨s, .inl hs⟩
        · rw [hfr.symbols, hfr'.symbols]
          exact optionRel_mono (fun _ _ h => .inl h) (hvs.symbols name)
        · obtain ⟨rfl, rfl⟩ := hsame hs
          obtain rfl := Option.some.inj (hfree.symm.trans hfree')
          exact ⟨Except.ok.inj (hclaim.symm.trans hclaim'), rfl⟩
      have hkg : Keeps (σ.shrink k k') ((σ.shrink k k').grow h h' r ⟨i⟩ ⟨j⟩) :=
        keeps_grow hvs hg hg' (Nat.le_of_eq hfr.size.symm)
      refine .ok (τ := (σ.shrink k k').grow h h' r ⟨i⟩ ⟨j⟩) hl hr hvg (hks.trans hkg)
        ⟨.inr ⟨rfl, rfl, rfl⟩, ?_, fun ha hab => .inl (rel_shrink hv hkept hkept' hch ha hab),
          fun {u} ha => ?_, fun ha => ?_⟩
      · change h.object? ⟨i⟩ = _
        rw [hg.object?, if_pos rfl]
      · obtain ⟨e, he⟩ := isLive_iff.mp (hv.left.isLive_of_reachable
          (fun w hm => hf.isLive_left hv hm) ha)
        rw [he]
        exact hg.object?_of_rel ((hkept.kept u ha).trans he)
      · obtain ⟨e, he⟩ := isLive_iff.mp (hv.left.isLive_of_reachable
          (fun w hm => hf.isLive_left hv hm) ha)
        rw [← hkept.kept _ ha, hnone] at he
        simp at he

lemma New.pairAt {x c : Handle} (hn : New σ r (.pair x c) v v' τ) : τ.left.pairAt v = some (x, c) :=
  pairAt_eq_some.mpr hn.object

/-- A new atom that is no symbol and no procedure. -/
lemma Runs.atom (hv : σ.Valid W) (hf : d.isFree = false) (hc : d.children = [])
    (hs : d.type ≠ .symbol) (hn : d.type ≠ .foreign) :
    Runs W Keeps (HeapM.alloc d) (HeapM.alloc d) σ (New σ .shown d) :=
  .alloc hv (.atom hf hc (fun _ he => absurd (by rw [he]; rfl) hs)
    fun _ _ he => absurd (by rw [he]; rfl) hn)

/-- A new atom is shown. -/
lemma Runs.shown_atom (hv : σ.Valid W) (hf : d.isFree = false) (hc : d.children = [])
    (hs : d.type ≠ .symbol) (hn : d.type ≠ .foreign) :
    Runs W Keeps (HeapM.alloc d) (HeapM.alloc d) σ fun v v' τ => τ.rel .shown v v' :=
  (Runs.atom hv hf hc hs hn).post fun _ _ _ _ _ h => h.rel

lemma Runs.makeInt (hv : σ.Valid W) (n : Int64) :
    Runs W Keeps (makeInt n) (makeInt n) σ fun v v' τ => τ.rel .shown v v' :=
  .shown_atom (d := .int n) hv rfl rfl (by simp [Datum.type]) (by simp [Datum.type])

lemma Runs.makeReal (hv : σ.Valid W) (x : Flonum) :
    Runs W Keeps (makeReal x) (makeReal x) σ fun v v' τ => τ.rel .shown v v' :=
  .shown_atom (d := .real x) hv rfl rfl (by simp [Datum.type]) (by simp [Datum.type])

/-- Failing with a new error object. -/
lemma Runs.raise [Motion R] (hv : σ.Valid W) (kind : ErrorKind) (message : String)
    {Q : α → α' → Twin → Prop} : Runs W R (raise kind message) (raise kind message) σ Q := by
  refine Runs.keeps ?_
  unfold HeapM.raise makeError
  split
  · exact .fail hv (matched_outOfMemory hv)
  · refine .recover (.atom (d := .error kind message) hv rfl rfl (by simp [Datum.type])
      (by simp [Datum.type])) (fun v v' τ hvt _ hq => .fail hvt ?_) (fun _ _ => Keeps.trans)
      (fun τ hvt hk => .starved rfl ⟨τ, rfl, hvt, hk⟩)
      fun τ hvt hk => .starved rfl ⟨τ, rfl, hvt, hk⟩
    rcases hq with hq | hq
    · exact ⟨hq.rel, _, _, hq.object⟩
    · exact hq

/-! ## Looking at objects -/

variable {P : β → β' → Twin → Prop}

lemma Runs.datum (hv : σ.Valid W) (hab : σ.rel r a b) {f : Datum → HeapM ε β}
    {g : Datum → HeapM ε β'}
    (hf : ∀ d d', σ.left.object? a = some d → σ.right.object? b = some d' → Fits W σ r d d' →
      Runs W R (f d) (g d') σ P) : Runs W R (datum a >>= f) (datum b >>= g) σ P := by
  obtain ⟨d, d', h1, h2, hfit⟩ := hv.data hab
  exact .look (datum_apply h1) (datum_apply h2) (hf d d' h1 h2 hfit)

lemma Runs.typeOf (hv : σ.Valid W) (hab : σ.rel r a b) {f : DatumType → HeapM ε β}
    {g : DatumType → HeapM ε β'}
    (hf : ∀ t, σ.left.typeAt a = some t → Runs W R (f t) (g t) σ P) :
    Runs W R (typeOf a >>= f) (typeOf b >>= g) σ P := by
  obtain ⟨d, d', h1, h2, hfit⟩ := hv.data hab
  refine .look (typeOf_apply h1) (typeOf_apply h2) ?_
  rw [hfit.type_eq]
  exact hf _ (by rw [typeAt, h1]; rfl)

lemma Runs.hasType (hv : σ.Valid W) (hab : σ.rel r a b) (t : DatumType) {f : Bool → HeapM ε β}
    {g : Bool → HeapM ε β'} (hyes : σ.left.typeAt a = some t → Runs W R (f true) (g true) σ P)
    (hno : σ.left.typeAt a ≠ some t → Runs W R (f false) (g false) σ P) :
    Runs W R (hasType t a >>= f) (hasType t b >>= g) σ P := by
  obtain ⟨d, d', h1, h2, hfit⟩ := hv.data hab
  have ht : σ.left.typeAt a = some d.type := by rw [typeAt, h1]; rfl
  refine .look (hasType_apply h1 t) (hasType_apply h2 t) ?_
  rw [hfit.type_eq]
  by_cases he : d.type = t
  · rw [beq_iff_eq.mpr he]
    exact hyes (he ▸ ht)
  · rw [beq_eq_false_iff_ne.mpr he]
    exact hno fun hn => he (Option.some.inj (ht.symm.trans hn))

lemma Runs.asPair (hv : σ.Valid W) (hab : σ.rel .shown a b)
    {f : Option (Handle × Handle) → HeapM ε β} {g : Option (Handle × Handle) → HeapM ε β'}
    (hsome : ∀ x c x' c', σ.left.pairAt a = some (x, c) → σ.right.pairAt b = some (x', c') →
      Runs W R (f (some (x, c))) (g (some (x', c'))) σ P)
    (hnone : σ.left.pairAt a = none → Runs W R (f none) (g none) σ P) :
    Runs W R (asPair a >>= f) (asPair b >>= g) σ P := by
  obtain ⟨d, d', h1, h2, -⟩ := hv.data hab
  refine .look (asPair_apply h1) (asPair_apply h2) ?_
  have hp : σ.left.pairAt a = d.pair? := by rw [Heap.pairAt, h1]; rfl
  have hp' : σ.right.pairAt b = d'.pair? := by rw [Heap.pairAt, h2]; rfl
  cases hq : d.pair? with
  | none =>
    rw [hq] at hp
    rw [← hp', hv.pairAt_right_none hab hp]
    exact hnone hp
  | some xc =>
    rw [hq] at hp
    obtain ⟨x', c', hq', -⟩ := hv.pairAt_right hab hp
    rw [← hp', hq']
    exact hsome _ _ _ _ hp hq'

/-! ## Walking down spines -/

/-- A relation that follows corresponding spines, with a relation between their elements. -/
structure Follows (σ : Twin) (S E : Handle → Handle → Prop) : Prop where
  known : ∀ {u u'}, S u u' → σ.Known u u'
  pair : ∀ {u u' x c}, S u u' → σ.left.pairAt u = some (x, c) →
    ∃ x' c', σ.right.pairAt u' = some (x', c') ∧ E x x' ∧ S c c'

/-- The tail of a pair. -/
def TailOf (h : Heap) (u c : Handle) : Prop := ∃ x, h.pairAt u = some (x, c)

lemma Follows.walkFrom {S E : Handle → Handle → Prop} (hS : Follows σ S E) (hv : σ.Valid W)
    (n : Nat)
    {slow slow' fast fast' : Handle} {seen seen' : Array Handle} (hslow : S slow slow')
    (hfast : S fast fast') (hpath : Relation.ReflTransGen (TailOf σ.left) slow fast)
    (hseen : List.Forall₂ E seen.toList seen'.toList) :
    ∃ w w', σ.left.walkFrom n slow fast seen = .ok w ∧
      σ.right.walkFrom n slow' fast' seen' = .ok w' ∧ List.Forall₂ E w.visited w'.visited ∧
      Option.Rel S w.ending w'.ending := by
  induction n generalizing slow slow' fast fast' seen seen' with
  | zero => exact ⟨_, _, rfl, rfl, hseen, .none⟩
  | succ n ih =>
    have hlive : ∀ {u u'}, S u u' → σ.left.isLive u = true ∧ σ.right.isLive u' = true := fun h =>
      have ⟨_, hr⟩ := hS.known h
      ⟨hv.isLive_left hr, hv.isLive_right hr⟩
    have hnone : ∀ {u u'}, S u u' → σ.left.pairAt u = none → σ.right.pairAt u' = none := fun h =>
      have ⟨_, hr⟩ := hS.known h
      hv.pairAt_right_none hr
    have happend : ∀ {xs xs' : Array Handle} {x x' : Handle}, List.Forall₂ E xs.toList xs'.toList →
        E x x' → List.Forall₂ E (xs.push x).toList (xs'.push x').toList := by
      intro xs xs' x x' h hx
      rw [Array.toList_push, Array.toList_push]
      exact List.rel_append h (.cons hx .nil)
    cases hf : σ.left.pairAt fast with
    | none =>
      exact ⟨_, _, walkFrom_stop (hlive hfast).1 hf,
        walkFrom_stop (hlive hfast).2 (hnone hfast hf), hseen, .some hfast⟩
    | some fp =>
      obtain ⟨first, second⟩ := fp
      obtain ⟨first', second', hf', hfirst, hsecond⟩ := hS.pair hfast hf
      cases hs : σ.left.pairAt second with
      | none =>
        exact ⟨_, _, walkFrom_stop_second hf (hlive hsecond).1 hs,
          walkFrom_stop_second hf' (hlive hsecond).2 (hnone hsecond hs),
          happend hseen hfirst, .some hsecond⟩
      | some sp =>
        obtain ⟨head, next⟩ := sp
        obtain ⟨head', next', hs', hhead, hnext⟩ := hS.pair hsecond hs
        -- the slow cursor is behind the fast one, so it is at a pair
        have hgo : Relation.TransGen (TailOf σ.left) slow next :=
          .tail' (hpath.tail ⟨first, hf⟩) ⟨head, hs⟩
        obtain ⟨c, ⟨x, hx⟩, hc⟩ := Relation.TransGen.head'_iff.mp hgo
        obtain ⟨x', c', hx', -, hcc⟩ := hS.pair hslow hx
        rw [walkFrom_go hf hs hx, walkFrom_go hf' hs' hx']
        have hseen2 := happend (happend hseen hfirst) hhead
        obtain ⟨r, hr⟩ := hS.known hcc
        obtain ⟨r', hr'⟩ := hS.known hnext
        by_cases he : c = next
        · rw [if_pos he, if_pos ((hv.eq_iff hr hr').mp he)]
          exact ⟨_, _, rfl, rfl, hseen2, .none⟩
        · rw [if_neg he, if_neg (mt (hv.eq_iff hr hr').mpr he)]
          exact ih hcc hnext hc hseen2

/-- The walks down corresponding spines. -/
lemma Follows.walkSpine {S E : Handle → Handle → Prop} (hS : Follows σ S E)
    (hv : σ.Valid W) (hab : S a b) :
    ∃ w w', σ.left.walkSpine a = .ok w ∧ σ.right.walkSpine b = .ok w' ∧
      List.Forall₂ E w.visited w'.visited ∧ Option.Rel S w.ending w'.ending := by
  -- a common bound on the rounds
  have hl : σ.left.cells.size < σ.left.cells.size + σ.right.cells.size + 1 := by omega
  have hr : σ.right.cells.size < σ.left.cells.size + σ.right.cells.size + 1 := by omega
  rw [walkSpine_eq a hl, walkSpine_eq b hr]
  exact hS.walkFrom hv _ hab hab .refl .nil

end Twin

end ArenaScheme
