/-
# Elementary changes of a twin

What the two heaps of a twin undergo in step with each other: objects that cannot be reached are
reclaimed, on either side; corresponding objects are made on both sides, or overwritten on both
sides; the root stacks and the current frames change; and a finished draft becomes an object that
the program may hold, or a list of a frame.  Each of these keeps the invariant.

Reclaiming is where the two heaps go apart.  Correspondence is then restricted to the objects that
are left on both sides.
-/
import ArenaScheme.Proofs.Twin.Invariant

namespace ArenaScheme

namespace Twin

open Heap

variable {W : Regime} {σ τ : Twin} {r : Role} {a b a' b' : Handle} {d d' e e' : Datum}

lemma optionRel_mono {α β : Type} {R S : α → β → Prop} (h : ∀ x y, R x y → S x y) {x : Option α}
    {y : Option β} (hr : Option.Rel R x y) : Option.Rel S x y := by
  cases hr with
  | none => exact .none
  | some hr => exact .some (h _ _ hr)

/-- Where the objects are the same, correspondence carries over. -/
lemma carries_of_objects (hl : ∀ v, τ.left.object? v = σ.left.object? v)
    (hr : ∀ v, τ.right.object? v = σ.right.object? v)
    (hrel : ∀ {r a b}, (∀ k, r ≠ .draft k) → σ.rel r a b → τ.rel r a b) :
    Carries W σ τ fun _ _ => True := by
  have hpl : ∀ {v x c}, σ.left.pairAt v = some (x, c) → τ.left.pairAt v = some (x, c) :=
    fun hp => by
    rw [pairAt, hl, ← pairAt, hp]
  have hpr : ∀ {v x c}, σ.right.pairAt v = some (x, c) → τ.right.pairAt v = some (x, c) :=
    fun hp => by
    rw [pairAt, hr, ← pairAt, hp]
  refine ⟨fun _ hd h => hrel hd h, fun _ _ hp hp' => ?_, fun _ _ _ hp hp' => ?_, fun _ _ hd => ?_,
    fun {a b p n v} _ _ hd => ?_⟩
  · exact ⟨_, _, hpl hp, hpr hp', fun r hd h => hrel hd h, trivial⟩
  · exact ⟨hpl hp, hpr hp', trivial, trivial⟩
  · rw [hl, hd]
  · exact ⟨n, v, by rw [hl, hd], fun _ _ _ _ => trivial⟩

/-- Under a regime of one run, what fits is equal. -/
lemma Fits.eq_of_same (hv : σ.Valid W) (hw : W.same) (hf : Fits W σ r d d') : d = d' := by
  have he : ∀ {r a b}, σ.rel r a b → a = b := (hv.same hw).2
  have hk : ∀ {a b}, σ.Known a b → a = b := fun ⟨_, h⟩ => he h
  cases hf with
  | atom | secret => rfl
  | pair ha hb => rw [he ha, he hb]
  | closure ha _ hp _ hb => rw [he ha, he hp, he hb]
  | frame hp _ hb =>
    obtain ⟨h1, h2⟩ := hb.known hv
    cases hp with
    | none => rw [hk h1, hk h2]
    | some hq => rw [he hq, hk h1, hk h2]
  | binding ha hb | naming ha hb => rw [hk ha, hk hb]
  | draft ha hb =>
    rw [he ha]
    rcases hb with hb | hb <;> rw [he hb]

/-! ## Roots and current frames -/

/-- Hold two more objects. -/
def push (σ : Twin) (v v' : Handle) : Twin :=
  { σ with
    left := { σ.left with roots := σ.left.roots.push v }
    right := { σ.right with roots := σ.right.roots.push v' } }

/-- Give up the latest slots. -/
def pop (σ : Twin) : Twin :=
  { σ with
    left := { σ.left with roots := σ.left.roots.pop }
    right := { σ.right with roots := σ.right.roots.pop } }

/-- Replace what a slot holds. -/
def put (σ : Twin) (i : Nat) (v v' : Handle) : Twin :=
  { σ with
    left := { σ.left with roots := σ.left.roots.setIfInBounds i v }
    right := { σ.right with roots := σ.right.roots.setIfInBounds i v' } }

/-- Look names up in other frames. -/
def switch (σ : Twin) (env env' : Handle) : Twin :=
  { σ with
    left := { σ.left with currentEnv := env }
    right := { σ.right with currentEnv := env' } }

namespace Valid

lemma reframe (hv : σ.Valid W) {roots roots' : Array Handle} {env env' : Handle}
    (hd : roots'.size = roots.size)
    (hr : ∀ {i a b}, roots[i]? = some a → roots'[i]? = some b →
      ∃ r, σ.rel r a b ∧ ∀ j, r = .draft j → j ≤ i)
    (he : σ.rel .shown env env') (hs : σ.left.Scope env) (hsame : W.same → roots = roots') :
    Valid W { σ with
      left := { σ.left with roots, currentEnv := env }
      right := { σ.right with roots := roots', currentEnv := env' } } := by
  have hc := carries_of_objects (W := W) (σ := σ) (τ := { σ with
      left := { σ.left with roots, currentEnv := env }
      right := { σ.right with roots := roots', currentEnv := env' } })
    (fun _ => rfl) (fun _ => rfl) (fun _ h => h)
  have hscope : ∀ {v v'}, σ.rel .shown v v' → σ.left.Scope v → Scope { σ.left with
      roots, currentEnv := env } v := fun h hs => scope_carry hv hc hs h trivial
  have hlive : ∀ v ∈ roots.toList, σ.left.isLive v = true := by
    intro v hm
    obtain ⟨i, hi⟩ := Array.mem_iff_getElem?.mp (Array.mem_toList_iff.mp hm)
    have hlt : i < roots'.size := hd ▸ (Array.getElem?_eq_some_iff.mp hi).1
    obtain ⟨r, h, -⟩ := hr hi (Array.getElem?_eq_getElem hlt)
    exact hv.isLive_left h
  have hlive' : ∀ v ∈ roots'.toList, σ.right.isLive v = true := by
    intro v hm
    obtain ⟨i, hi⟩ := Array.mem_iff_getElem?.mp (Array.mem_toList_iff.mp hm)
    have hlt : i < roots.size := hd ▸ (Array.getElem?_eq_some_iff.mp hi).1
    obtain ⟨r, h, -⟩ := hr (Array.getElem?_eq_getElem hlt) hi
    exact hv.isLive_right h
  refine {
    left := (hv.left.switchEnv (hv.isLive_left he)).setRoots hlive
    right := (hv.right.switchEnv (hv.isLive_right he)).setRoots hlive'
    functional := hv.functional
    injective := hv.injective
    data := fun hab => ?_
    depth := hd
    roots := hr
    base := hv.base
    baseScope := hscope hv.base hv.baseScope
    current := he
    currentScope := hscope he hs
    sentinel := hv.sentinel
    permanents := hv.permanents
    permanent := hv.permanent
    symbols := hv.symbols
    audited := hv.audited
    same := fun hw => ?_ }
  · obtain ⟨d, d', h1, h2, hf⟩ := hv.data hab
    exact ⟨d, d', h1, h2, hf.carry hv hc (fun _ h => h) (fun _ _ h => h) fun _ _ _ _ _ => trivial⟩
  · obtain ⟨heq, hrel⟩ := hv.same hw
    refine ⟨?_, hrel⟩
    rw [heq, hsame hw, hrel he]

lemma push (hv : σ.Valid W) {v v' : Handle} (hr : σ.rel r v v')
    (hj : ∀ j, r = .draft j → j ≤ σ.left.roots.size) : (σ.push v v').Valid W := by
  refine hv.reframe (by simp [hv.depth]) (fun {i a b} ha hb => ?_) hv.current hv.currentScope
    fun hw => ?_
  · rw [Array.getElem?_push] at ha hb
    rw [hv.depth] at hb
    split at ha
    · next hi =>
      rw [if_pos hi] at hb
      obtain rfl := Option.some.inj ha
      obtain rfl := Option.some.inj hb
      exact ⟨r, hr, fun j hd => hi ▸ hj j hd⟩
    · next hi =>
      rw [if_neg hi] at hb
      exact hv.roots ha hb
  · obtain ⟨heq, hrel⟩ := hv.same hw
    rw [heq, hrel hr]

lemma pop (hv : σ.Valid W) : σ.pop.Valid W := by
  refine hv.reframe (by simp [hv.depth]) (fun {i a b} ha hb => ?_) hv.current hv.currentScope
    fun hw => by rw [(hv.same hw).1]
  rw [Array.getElem?_pop] at ha hb
  split at ha
  · split at hb
    · exact hv.roots ha hb
    · simp at hb
  · simp at ha

lemma put (hv : σ.Valid W) {i : Nat} {v v' : Handle} (hr : σ.rel r v v')
    (hj : ∀ j, r = .draft j → j ≤ i) : (σ.put i v v').Valid W := by
  refine hv.reframe (by simp [hv.depth]) (fun {k a b} ha hb => ?_) hv.current hv.currentScope
    fun hw => ?_
  · rw [Array.getElem?_setIfInBounds] at ha hb
    rw [hv.depth] at hb
    split at ha
    · next hi =>
      rw [if_pos hi] at hb
      split at ha
      · next hlt =>
        rw [if_pos hlt] at hb
        obtain rfl := Option.some.inj ha
        obtain rfl := Option.some.inj hb
        exact ⟨r, hr, fun j hd => hi ▸ hj j hd⟩
      · simp at ha
    · next hi =>
      rw [if_neg hi] at hb
      exact hv.roots ha hb
  · obtain ⟨heq, hrel⟩ := hv.same hw
    rw [heq, hrel hr]

lemma switch (hv : σ.Valid W) {env env' : Handle} (he : σ.rel .shown env env')
    (hs : σ.left.Scope env) : (σ.switch env env').Valid W :=
  hv.reframe hv.depth hv.roots he hs fun hw => by rw [(hv.same hw).1]

end Valid

/-! ## Overwriting -/

/-- Overwrite two objects. -/
def write (σ : Twin) (a b : Handle) (e e' : Datum) : Twin :=
  { σ with left := σ.left.setCell a.index e, right := σ.right.setCell b.index e' }

/-- Which contents may take the place of others.  Pairs of bindings keep their tails, and in place
of a shown object they get a shown one; frames keep their parents. -/
inductive Replaces (W : Regime) (σ : Twin) : Role → Datum → Datum → Datum → Datum → Prop
  | pair {x c x' c' y b y' b' : Handle} {r : Role} (hr : r ≠ .binding) (hf : ¬ W.Fixed r) :
      Replaces W σ r (.pair x c) (.pair x' c') (.pair y b) (.pair y' b')
  | value {x c x' c' y y' : Handle} {r : Role} (hx : σ.rel r x x') (hy : σ.rel r y y') :
      Replaces W σ .binding (.pair x c) (.pair x' c') (.pair y c) (.pair y' c')
  | frame {p p' : Option Handle} {n n' v v' ns ns' vs vs' : Handle} :
      Replaces W σ .shown (.frame p n v) (.frame p' n' v') (.frame p ns vs) (.frame p' ns' vs')

/-- A program that may change pairs changes those that it holds. -/
lemma Replaces.rewrite (hw : W.rewriting) {x c x' c' y t y' t' : Handle} :
    Replaces W σ .shown (.pair x c) (.pair x' c') (.pair y t) (.pair y' t') :=
  .pair (by simp) (by simp [Regime.Fixed, hw])

lemma Replaces.type_ne (hr : Replaces W σ r d d' e e') : d.type ≠ .symbol ∧ d'.type ≠ .symbol := by
  cases hr <;> simp [Datum.type]

lemma object?_write_left {f : Datum} (ha : σ.left.object? a = some d) (hf : e.isFree = false)
    (v : Handle) : (σ.write a b e f).left.object? v = if v =
      a then some e else σ.left.object? v := by
  change (σ.left.setCell a.index e).object? v = _
  rw [object?_setCell _ (lt_size_of_object? ha), hf]
  by_cases hv : v = a
  · simp [hv]
  · rw [if_neg hv, if_neg fun hi => hv (congrArg Handle.mk hi)]

lemma object?_write_right {f : Datum} (hb : σ.right.object? b = some d') (hf : f.isFree = false)
    (v : Handle) : (σ.write a b e f).right.object? v = if v =
      b then some f else σ.right.object? v := by
  change (σ.right.setCell b.index f).object? v = _
  rw [object?_setCell _ (lt_size_of_object? hb), hf]
  by_cases hv : v = b
  · simp [hv]
  · rw [if_neg hv, if_neg fun hi => hv (congrArg Handle.mk hi)]

lemma carries_write (hv : σ.Valid W) (hab : σ.rel r a b) (ha : σ.left.object? a = some d)
    (hb : σ.right.object? b = some d') (hf : Fits W σ r e e') (hrep : Replaces W σ r d d' e e') :
    Carries W σ (σ.write a b e e') fun _ _ => True := by
  have hol := object?_write_left (b := b) (f := e') ha hf.not_free.1
  have hor := object?_write_right (a := a) (e := e) hb hf.not_free.2
  have hne : ∀ {s u w x c x' c'}, u ≠ a → σ.rel s u w → σ.left.pairAt u = some (x, c) →
      σ.right.pairAt w = some (x', c') → (σ.write a b e e').left.pairAt u = some (x, c) ∧
        (σ.write a b e e').right.pairAt w = some (x', c') := fun hu huw hp hp' => by
    have hw := fun he => hu ((hv.eq_iff huw hab).mpr he)
    constructor
    · rw [pairAt, hol, if_neg hu, ← pairAt, hp]
    · rw [pairAt, hor, if_neg hw, ← pairAt, hp']
  refine ⟨fun _ _ h => h, fun {u w x c x' c'} _ hbd hp hp' => ?_,
    fun {s u w x c x' c'} hfix _ huw hp hp' => ?_, fun {s u w name} _ _ hd => ?_,
    fun {u w p n v} _ hs hd => ?_⟩
  · by_cases hu : u = a
    · subst hu
      obtain ⟨rfl, rfl⟩ := hv.functional hab hbd
      rw [pairAt_eq_some] at hp hp'
      obtain rfl := Option.some.inj (ha.symm.trans hp)
      obtain rfl := Option.some.inj (hb.symm.trans hp')
      cases hrep with
      | pair hr _ => exact absurd rfl hr
      | value hx hy =>
        refine ⟨_, _, pairAt_eq_some.mpr (by rw [hol, if_pos rfl]),
          pairAt_eq_some.mpr (by rw [hor, if_pos rfl]), fun s _ hs => ?_, trivial⟩
        rwa [(hv.functional hs hx).1]
    · obtain ⟨h1, h2⟩ := hne hu hbd hp hp'
      exact ⟨x, x', h1, h2, fun _ _ h => h, trivial⟩
  · -- what is replaced is no pair of a role that is never changed
    have hu : u ≠ a := by
      rintro rfl
      obtain ⟨rfl, -⟩ := hv.functional hab huw
      rw [pairAt_eq_some] at hp
      obtain rfl := Option.some.inj (ha.symm.trans hp)
      cases hrep with
      | pair _ hnot => exact hnot hfix
      | value => rcases hfix with h | ⟨h, -⟩ <;> simp at h
    obtain ⟨h1, h2⟩ := hne hu huw hp hp'
    exact ⟨h1, h2, trivial, trivial⟩
  · rw [hol, if_neg, hd]
    rintro rfl
    obtain rfl := Option.some.inj (ha.symm.trans hd)
    exact hrep.type_ne.1 rfl
  · by_cases hu : u = a
    · subst hu
      obtain rfl := Option.some.inj (ha.symm.trans hd)
      cases hrep with
      | frame => exact ⟨_, _, by rw [hol, if_pos rfl], fun _ _ _ _ => trivial⟩
    · exact ⟨n, v, by rw [hol, if_neg hu, hd], fun _ _ _ _ => trivial⟩

/-- Replacing corresponding objects by corresponding contents. -/
lemma Valid.write (hv : σ.Valid W) (hab : σ.rel r a b) (ha : σ.left.object? a = some d)
    (hb : σ.right.object? b = some d') (hf : Fits W σ r e e') (hrep : Replaces W σ r d d' e e') :
    (σ.write a b e e').Valid W := by
  have hc := carries_write hv hab ha hb hf hrep
  have hol := object?_write_left (b := b) (f := e') ha hf.not_free.1
  have hor := object?_write_right (a := a) (e := e) hb hf.not_free.2
  have hch := hf.children hv
  have hlive : ∀ w ∈ e.children, σ.left.isLive w = true := by
    intro w hm
    obtain ⟨i, hi⟩ := List.mem_iff_getElem?.mp hm
    obtain ⟨hlt, rfl⟩ := List.getElem?_eq_some_iff.mp hi
    obtain ⟨s, hs⟩ := (List.forall₂_iff_get.mp hch).2 i hlt (hch.length_eq ▸ hlt)
    exact hv.isLive_left hs
  have hlive' : ∀ w ∈ e'.children, σ.right.isLive w = true := by
    intro w hm
    obtain ⟨i, hi⟩ := List.mem_iff_getElem?.mp hm
    obtain ⟨hlt, rfl⟩ := List.getElem?_eq_some_iff.mp hi
    obtain ⟨s, hs⟩ := (List.forall₂_iff_get.mp hch).2 i (hch.length_eq ▸ hlt) hlt
    exact hv.isLive_right hs
  have hscope : ∀ {v v'}, σ.rel .shown v v' → σ.left.Scope v → (σ.write a b e e').left.Scope v :=
    fun h hs => scope_carry hv hc hs h trivial
  refine {
    left := hv.left.setCell ha hrep.type_ne.1 hf.not_free.1 hlive
    right := hv.right.setCell hb hrep.type_ne.2 hf.not_free.2 hlive'
    functional := hv.functional
    injective := hv.injective
    data := fun {s u w} huw => ?_
    depth := hv.depth
    roots := hv.roots
    base := hv.base
    baseScope := hscope hv.base hv.baseScope
    current := hv.current
    currentScope := hscope hv.current hv.currentScope
    sentinel := fun {v} hi => ?_
    permanents := ?_
    permanent := fun k hk => hv.permanent k ?_
    symbols := hv.symbols
    audited := hv.audited
    same := fun hw => ?_ }
  · by_cases hu : u = a
    · subst hu
      obtain ⟨rfl, rfl⟩ := hv.functional hab huw
      exact ⟨e, e', by rw [hol, if_pos rfl], by rw [hor, if_pos rfl],
        hf.carry hv hc (fun _ h => h) (fun _ _ h => h) fun _ _ _ _ _ => trivial⟩
    · have hw : w ≠ b := fun he => hu ((hv.eq_iff huw hab).mpr he)
      obtain ⟨f, f', h1, h2, hff⟩ := hv.data huw
      exact ⟨f, f', by rw [hol, if_neg hu, h1], by rw [hor, if_neg hw, h2],
        hff.carry hv hc (fun _ h => h) (fun _ _ h => h) fun _ _ _ _ _ => trivial⟩
  · -- the sentinels are atoms, and atoms are not replaced
    obtain ⟨h1, h2, h3⟩ := hv.sentinel hi
    have hva : v ≠ a := by
      rintro rfl
      rw [ha] at h2
      obtain ⟨i⟩ := v
      match i, hi with
      | 0, _ | 1, _ | 2, _ | 3, _ =>
        cases hrep <;> simp [sentinels] at h2
    have hvb : v ≠ b := fun he => hva ((hv.eq_iff h1 hab).mpr he)
    exact ⟨h1, by rw [hol, if_neg hva, h2], by rw [hor, if_neg hvb, h3]⟩
  · have h1 := (SameFrame.setCell σ.left a.index e).size
    have h2 := (SameFrame.setCell σ.right b.index e').size
    have := hv.permanents
    change (σ.left.setCell a.index e).cells.size + σ.right.regionEnd =
      (σ.right.setCell b.index e').cells.size + σ.left.regionEnd
    omega
  · have h1 := (SameFrame.setCell σ.left a.index e).size
    rw [← h1]
    exact hk
  · obtain ⟨heq, hrel⟩ := hv.same hw
    refine ⟨?_, hrel⟩
    change σ.left.setCell a.index e = σ.right.setCell b.index e'
    rw [heq, hrel hab, hf.eq_of_same hv hw]

/-! ## Finishing a draft -/

/-- Give another role to the pairs of the draft in a slot. -/
def settle (σ : Twin) (k : Nat) (r : Role) : Twin :=
  { σ with rel := fun s a b =>
      (s ≠ .draft k ∧ σ.rel s a b) ∨ (s = r ∧ σ.rel (.draft k) a b) }

lemma settle_of_ne {k : Nat} {s : Role} (hs : s ≠ .draft k) (hab : σ.rel s a b) :
    (σ.settle k r).rel s a b := .inl ⟨hs, hab⟩

lemma settle_draft {k : Nat} (hab : σ.rel (.draft k) a b) : (σ.settle k r).rel r a b :=
  .inr ⟨rfl, hab⟩

lemma known_settle {k : Nat} (hab : σ.Known a b) : (σ.settle k r).Known a b := by
  obtain ⟨s, hs⟩ := hab
  by_cases hk : s = .draft k
  · exact ⟨r, settle_draft (hk ▸ hs)⟩
  · exact ⟨s, settle_of_ne hk hs⟩

/-- A finished draft may be shown to the program, or become a list of a frame. -/
lemma Valid.settle (hv : σ.Valid W) (k : Nat) (hr : r = .shown ∨ r = .binding) :
    (σ.settle k r).Valid W := by
  have hc : Carries W σ (σ.settle k r) fun _ _ => True :=
    carries_of_objects (fun _ => rfl) (fun _ => rfl) fun hd h => settle_of_ne (hd k) h
  have hshown : ∀ {a b}, σ.rel .shown a b → (σ.settle k r).rel .shown a b :=
    fun h => settle_of_ne (by simp) h
  refine {
    left := hv.left
    right := hv.right
    functional := ?_
    injective := ?_
    data := fun {s u w} huw => ?_
    depth := hv.depth
    roots := fun {i u w} hu hw => ?_
    base := hshown hv.base
    baseScope := hv.baseScope
    current := hshown hv.current
    currentScope := hv.currentScope
    sentinel := fun hi => ⟨hshown (hv.sentinel hi).1, (hv.sentinel hi).2⟩
    permanents := hv.permanents
    permanent := fun j hj => known_settle (hv.permanent j hj)
    symbols := fun name => ?_
    audited := hv.audited
    same := fun hw => ⟨(hv.same hw).1, ?_⟩ }
  · rintro s s' u w w' (⟨h1, h2⟩ | ⟨rfl, h2⟩) (⟨h3, h4⟩ | ⟨rfl, h4⟩)
    · exact hv.functional h2 h4
    · exact absurd (hv.functional h2 h4).1 h1
    · exact absurd (hv.functional h4 h2).1 h3
    · exact ⟨rfl, (hv.functional h2 h4).2⟩
  · rintro s s' u u' w (⟨h1, h2⟩ | ⟨rfl, h2⟩) (⟨h3, h4⟩ | ⟨rfl, h4⟩)
    · exact hv.injective h2 h4
    · exact absurd (hv.injective h2 h4).1 h1
    · exact absurd (hv.injective h4 h2).1 h3
    · exact ⟨rfl, (hv.injective h2 h4).2⟩
  · rcases huw with ⟨hs, huw⟩ | ⟨rfl, huw⟩
    · obtain ⟨d, d', h1, h2, hf⟩ := hv.data huw
      exact ⟨d, d', h1, h2, hf.carry hv hc (fun _ h => known_settle h)
        (fun hd _ h => settle_of_ne (hd ▸ hs) h) fun _ _ _ _ _ => trivial⟩
    · obtain ⟨x, c, x', c', h1, h2, hx, hcc⟩ := hv.draft_pair huw
      refine ⟨_, _, pairAt_eq_some.mp h1, pairAt_eq_some.mp h2, ?_⟩
      rcases hr with rfl | rfl
      · refine .pair (hshown hx) ?_
        rcases hcc with hcc | hcc
        · exact hshown hcc
        · exact settle_draft hcc
      · refine .binding ⟨_, hshown hx⟩ ?_
        rcases hcc with hcc | hcc
        · exact ⟨_, hshown hcc⟩
        · exact ⟨_, settle_draft hcc⟩
  · obtain ⟨s, hs, hj⟩ := hv.roots hu hw
    by_cases hd : s = .draft k
    · refine ⟨r, settle_draft (hd ▸ hs), ?_⟩
      rcases hr with rfl | rfl <;> simp
    · exact ⟨s, settle_of_ne hd hs, hj⟩
  · refine optionRel_mono (fun v v' hs => settle_of_ne ?_ hs) (hv.symbols name)
    unfold Regime.roleOf
    split <;> simp
  · rintro s u w (⟨-, h⟩ | ⟨-, h⟩)
    · exact (hv.same hw).2 h
    · exact (hv.same hw).2 h

/-! ## Reclaiming -/

/-- Restrict correspondence to the objects of two other heaps. -/
def shrink (σ : Twin) (h h' : Heap) : Twin where
  left := h
  right := h'
  rel := fun r a b => σ.rel r a b ∧ h.isLive a = true ∧ h'.isLive b = true

lemma isLive_child {h : Heap} (hw : h.WellFormed) (ha : h.object? a = some d) {w : Handle}
    (hm : w ∈ d.children) : h.isLive w = true := hw.child _ _ ha _ hm

lemma object?_of_kept {h k : Heap} {extra : List Handle} (hk : h.Kept extra k)
    (ha : k.isLive a = true) : k.object? a = h.object? a := by
  obtain ⟨d, hd⟩ := isLive_iff.mp ha
  rw [hd, hk.old _ _ hd]

lemma carries_shrink (hv : σ.Valid W) {h h' : Heap} {extra extra' : List Handle}
    (hw : h.WellFormed) (hw' : h'.WellFormed) (hl : σ.left.Kept extra h)
    (hr : σ.right.Kept extra' h') :
    Carries W σ (σ.shrink h h') fun a b => h.isLive a = true ∧ h'.isLive b = true := by
  have hpair : ∀ {u w x c x' c'}, h.isLive u = true ∧ h'.isLive w = true →
      σ.left.pairAt u = some (x, c) → σ.right.pairAt w = some (x', c') →
      h.pairAt u = some (x, c) ∧ h'.pairAt w = some (x', c') ∧
        (h.isLive x = true ∧ h'.isLive x' = true) ∧ h.isLive c = true ∧ h'.isLive c' = true := by
    intro u w x c x' c' hk hp hp'
    have h1 : h.pairAt u = some (x, c) := by rw [pairAt, object?_of_kept hl hk.1, ← pairAt, hp]
    have h2 : h'.pairAt w = some (x', c') := by rw [pairAt, object?_of_kept hr hk.2, ← pairAt, hp']
    exact ⟨h1, h2, ⟨isLive_child hw (pairAt_eq_some.mp h1) (by simp [Datum.children]),
      isLive_child hw' (pairAt_eq_some.mp h2) (by simp [Datum.children])⟩,
      isLive_child hw (pairAt_eq_some.mp h1) (by simp [Datum.children]),
      isLive_child hw' (pairAt_eq_some.mp h2) (by simp [Datum.children])⟩
  refine ⟨fun hk _ hab => ⟨hab, hk⟩, fun {u w x c x' c'} hk _ hp hp' => ?_,
    fun _ hk _ hp hp' => hpair hk hp hp', fun hk _ hd => (object?_of_kept hl hk.1).trans hd,
    fun {u w p n v} hk huw hd => ?_⟩
  · obtain ⟨h1, h2, hx, hc⟩ := hpair hk hp hp'
    exact ⟨x, x', h1, h2, fun _ _ hs => ⟨hs, hx⟩, hc⟩
  · have h1 := (object?_of_kept hl hk.1).trans hd
    refine ⟨n, v, h1, ?_⟩
    rintro q q' rfl hq
    obtain ⟨e, he, hf⟩ := hv.data_of_left huw hd
    cases hf with
    | atom _ hc => simp [Datum.children] at hc
    | frame hp _ _ =>
      obtain ⟨hp⟩ := hp
      obtain rfl := (hv.functional hp hq).2
      exact ⟨isLive_child hw h1 (by simp [Datum.children]),
        isLive_child hw' ((object?_of_kept hr hk.2).trans he) (by simp [Datum.children])⟩

/-- Reclaiming objects on either side, as long as what can be reached is kept. -/
lemma Valid.shrink (hv : σ.Valid W) {h h' : Heap} {extra extra' : List Handle}
    (hw : h.WellFormed) (hw' : h'.WellFormed) (hl : σ.left.Kept extra h)
    (hr : σ.right.Kept extra' h') (hsame : W.same → h = h') : (σ.shrink h h').Valid W := by
  have hc := carries_shrink hv hw hw' hl hr
  have hlive : ∀ {s u w}, σ.rel s u w → σ.left.Reachable [] u → σ.right.Reachable [] w →
      (σ.shrink h h').rel s u w := fun {s u w} huw hu hw => by
    refine ⟨huw, ?_, ?_⟩
    · rw [isLive_eq_isSome, hl.kept u hu.of_nil, ← isLive_eq_isSome]
      exact hv.isLive_left huw
    · rw [isLive_eq_isSome, hr.kept w hw.of_nil, ← isLive_eq_isSome]
      exact hv.isLive_right huw
  have hlive' : ∀ {s u w}, σ.rel s u w → σ.left.Reachable [] u → (σ.shrink h h').rel s u w :=
    fun huw hu => hlive huw hu (hv.reachable_right .nil huw hu)
  have hscope : ∀ {v v'}, σ.rel .shown v v' → σ.left.Reachable [] v → σ.left.Scope v → h.Scope v :=
    fun huw hu hs => scope_carry hv hc hs huw (hlive' huw hu).2
  have hsl := hl.frame
  have hsr := hr.frame
  refine {
    left := hw
    right := hw'
    functional := fun h1 h2 => hv.functional h1.1 h2.1
    injective := fun h1 h2 => hv.injective h1.1 h2.1
    data := fun {s u w} huw => ?_
    depth := ?_
    roots := fun {i u w} hu hw => ?_
    base := ?_
    baseScope := ?_
    current := ?_
    currentScope := ?_
    sentinel := fun {v} hi => ?_
    permanents := ?_
    permanent := fun k hk => ?_
    symbols := fun name => ?_
    audited := by
      change h'.audited = h.audited
      rw [hsl.audited, hsr.audited, hv.audited]
    same := fun hs => ⟨hsame hs, fun huw => (hv.same hs).2 huw.1⟩ }
  · obtain ⟨d, d', h1, h2, hf⟩ := hv.data huw.1
    have h1' := (object?_of_kept hl huw.2.1).trans h1
    have h2' := (object?_of_kept hr huw.2.2).trans h2
    refine ⟨d, d', h1', h2', hf.carry hv hc (fun hk ⟨s, hs⟩ => ⟨s, hs, hk⟩)
      (fun _ hk hs => ⟨hs, hk⟩) fun c hm c' hm' _ => ?_⟩
    exact ⟨isLive_child hw h1' hm, isLive_child hw' h2' hm'⟩
  · change h'.roots.size = h.roots.size
    rw [hsl.roots, hsr.roots, hv.depth]
  · replace hu : h.roots[i]? = some u := hu
    replace hw : h'.roots[i]? = some w := hw
    rw [hsl.roots] at hu
    rw [hsr.roots] at hw
    obtain ⟨s, hs, hj⟩ := hv.roots hu hw
    exact ⟨s, hlive' hs (.anchor (.root (Array.mem_toList_iff.mpr (Array.mem_of_getElem? hu)))), hj⟩
  · change (σ.shrink h h').rel .shown h.baseEnv h'.baseEnv
    rw [hsl.baseEnv, hsr.baseEnv]
    exact hlive' hv.base (.anchor .base)
  · change h.Scope h.baseEnv
    rw [hsl.baseEnv]
    exact hscope hv.base (.anchor .base) hv.baseScope
  · change (σ.shrink h h').rel .shown h.currentEnv h'.currentEnv
    rw [hsl.currentEnv, hsr.currentEnv]
    exact hlive' hv.current (.anchor .current)
  · change h.Scope h.currentEnv
    rw [hsl.currentEnv]
    exact hscope hv.current (.anchor .current) hv.currentScope
  · obtain ⟨h1, h2, h3⟩ := hv.sentinel hi
    refine ⟨hlive' h1 (.anchor (.sentinel hi)), ?_, ?_⟩
    · change h.object? v = _
      rw [hl.kept v (.anchor (.sentinel hi)), h2]
    · change h'.object? v = _
      rw [hr.kept v (.anchor (.sentinel hi)), h3]
  · change h.cells.size + h'.regionEnd = h'.cells.size + h.regionEnd
    rw [hsl.size, hsr.size, hsl.regionEnd, hsr.regionEnd]
    exact hv.permanents
  · change (σ.shrink h h').Known ⟨h.regionEnd + k⟩ ⟨h'.regionEnd + k⟩
    replace hk : h.regionEnd + k < h.cells.size := hk
    rw [hsl.regionEnd, hsl.size] at hk
    rw [hsl.regionEnd, hsr.regionEnd]
    obtain ⟨s, hs⟩ := hv.permanent k hk
    exact ⟨s, hlive' hs (.anchor (.permanent (Nat.le_add_right ..) hk))⟩
  · change Option.Rel ((σ.shrink h h').rel _) h.symbols[name]? h'.symbols[name]?
    rw [hsl.symbols, hsr.symbols]
    have hs := hv.symbols name
    cases hls : σ.left.symbols[name]? <;> cases hrs : σ.right.symbols[name]? <;> rw [hls, hrs] at hs
    · exact .none
    · cases hs
    · cases hs
    · next v v' =>
      obtain ⟨hs⟩ := hs
      obtain ⟨hn, hd⟩ := hv.left.table name v hls
      exact .some (hlive' hs (.of_not_collectible (lt_size_of_object? hd) hn))

/-! ## Making objects -/

/-- Let two new objects correspond. -/
def grow (σ : Twin) (h h' : Heap) (r : Role) (v v' : Handle) : Twin where
  left := h
  right := h'
  rel := fun s a b => σ.rel s a b ∨ (s = r ∧ a = v ∧ b = v')

/-- `h'` is `h` with a new object `d` at `v`, and possibly with a larger table of symbols. -/
structure Grown (h : Heap) (d : Datum) (v : Handle) (h' : Heap) : Prop where
  wellFormed : h'.WellFormed
  object? : ∀ w, h'.object? w = if w = v then some d else h.object? w
  absent : h.object? v = none
  capacity : h'.capacity = h.capacity
  roots : h'.roots = h.roots
  baseEnv : h'.baseEnv = h.baseEnv
  currentEnv : h'.currentEnv = h.currentEnv
  audited : h'.audited = h.audited

lemma Grown.object?_of_rel {h k : Heap} {v : Handle} (hg : Grown h d v k) {w : Handle} {e : Datum}
    (hw : h.object? w = some e) : k.object? w = some e := by
  rw [hg.object?, if_neg, hw]
  rintro rfl
  rw [hg.absent] at hw
  simp at hw

/-- Making corresponding objects. -/
lemma Valid.grow (hv : σ.Valid W) {h h' : Heap} {v v' : Handle} (hl : Grown σ.left d v h)
    (hr : Grown σ.right d' v' h') (hf : Fits W σ r d d')
    (hsize : h.cells.size + h'.regionEnd = h'.cells.size + h.regionEnd)
    (hperm : ∀ k, h.regionEnd + k < h.cells.size →
      (σ.grow h h' r v v').Known ⟨h.regionEnd + k⟩ ⟨h'.regionEnd + k⟩)
    (hsym : ∀ name : String, Option.Rel ((σ.grow h h' r v v').rel (W.roleOf name))
      h.symbols[name]? h'.symbols[name]?)
    (hsame : W.same → h = h' ∧ v = v') : (σ.grow h h' r v v').Valid W := by
  have hne : ∀ {s u w}, σ.rel s u w → u ≠ v ∧ w ≠ v' := by
    intro s u w huw
    obtain ⟨e, e', h1, h2, -⟩ := hv.data huw
    constructor
    · rintro rfl
      rw [hl.absent] at h1
      simp at h1
    · rintro rfl
      rw [hr.absent] at h2
      simp at h2
  have hc : Carries W σ (σ.grow h h' r v v') fun _ _ => True := by
    have hpl : ∀ {u x c}, σ.left.pairAt u = some (x, c) → h.pairAt u = some (x, c) := fun hp =>
      pairAt_eq_some.mpr (hl.object?_of_rel (pairAt_eq_some.mp hp))
    have hpr : ∀ {u x c}, σ.right.pairAt u = some (x, c) → h'.pairAt u = some (x, c) := fun hp =>
      pairAt_eq_some.mpr (hr.object?_of_rel (pairAt_eq_some.mp hp))
    refine ⟨fun _ _ h => .inl h, fun {u w x c x' c'} _ _ hp hp' => ?_, fun _ _ _ hp hp' => ?_,
      fun _ _ hd => hl.object?_of_rel hd, fun {u w p n q} _ _ hd => ?_⟩
    · exact ⟨x, x', hpl hp, hpr hp', fun _ _ h => .inl h, trivial⟩
    · exact ⟨hpl hp, hpr hp', trivial, trivial⟩
    · exact ⟨n, q, hl.object?_of_rel hd, fun _ _ _ _ => trivial⟩
  have hfits : ∀ {s e e'}, Fits W σ s e e' → Fits W (σ.grow h h' r v v') s e e' := fun hf =>
    hf.carry hv hc (fun _ ⟨s, hs⟩ => ⟨s, .inl hs⟩) (fun _ _ h => .inl h) fun _ _ _ _ _ => trivial
  have hscope : ∀ {u u'}, σ.rel .shown u u' → σ.left.Scope u → h.Scope u :=
    fun huw hs => scope_carry hv hc hs huw trivial
  refine {
    left := hl.wellFormed
    right := hr.wellFormed
    functional := ?_
    injective := ?_
    data := fun {s u w} huw => ?_
    depth := by
      change h'.roots.size = h.roots.size
      rw [hl.roots, hr.roots, hv.depth]
    roots := fun {i u w} hu hw => ?_
    base := ?_
    baseScope := ?_
    current := ?_
    currentScope := ?_
    sentinel := fun {u} hi => ?_
    permanents := hsize
    permanent := hperm
    symbols := hsym
    audited := by
      change h'.audited = h.audited
      rw [hl.audited, hr.audited, hv.audited]
    same := fun hs => ⟨(hsame hs).1, ?_⟩ }
  · rintro s s' u w w' (h1 | ⟨rfl, rfl, rfl⟩) (h2 | ⟨rfl, hu, rfl⟩)
    · exact hv.functional h1 h2
    · exact absurd hu (hne h1).1
    · exact absurd rfl (hne h2).1
    · exact ⟨rfl, rfl⟩
  · rintro s s' u u' w (h1 | ⟨rfl, rfl, rfl⟩) (h2 | ⟨rfl, rfl, hw⟩)
    · exact hv.injective h1 h2
    · exact absurd hw (hne h1).2
    · exact absurd rfl (hne h2).2
    · exact ⟨rfl, rfl⟩
  · rcases huw with huw | ⟨rfl, rfl, rfl⟩
    · obtain ⟨e, e', h1, h2, hf'⟩ := hv.data huw
      exact ⟨e, e', hl.object?_of_rel h1, hr.object?_of_rel h2, hfits hf'⟩
    · refine ⟨d, d', ?_, ?_, hfits hf⟩
      · change h.object? u = _
        rw [hl.object?, if_pos rfl]
      · change h'.object? w = _
        rw [hr.object?, if_pos rfl]
  · replace hu : h.roots[i]? = some u := hu
    replace hw : h'.roots[i]? = some w := hw
    rw [hl.roots] at hu
    rw [hr.roots] at hw
    obtain ⟨s, hs, hj⟩ := hv.roots hu hw
    exact ⟨s, .inl hs, hj⟩
  · change (σ.grow h h' r v v').rel .shown h.baseEnv h'.baseEnv
    rw [hl.baseEnv, hr.baseEnv]
    exact .inl hv.base
  · change h.Scope h.baseEnv
    rw [hl.baseEnv]
    exact hscope hv.base hv.baseScope
  · change (σ.grow h h' r v v').rel .shown h.currentEnv h'.currentEnv
    rw [hl.currentEnv, hr.currentEnv]
    exact .inl hv.current
  · change h.Scope h.currentEnv
    rw [hl.currentEnv]
    exact hscope hv.current hv.currentScope
  · obtain ⟨h1, h2, h3⟩ := hv.sentinel hi
    refine ⟨.inl h1, ?_, ?_⟩
    · change h.object? u = _
      rw [hl.object?, if_neg (hne h1).1, h2]
    · change h'.object? u = _
      rw [hr.object?, if_neg (hne h1).2, h3]
  · rintro s u w (huw | ⟨rfl, rfl, rfl⟩)
    · exact (hv.same hs).2 huw
    · exact (hsame hs).2

end Twin

end ArenaScheme
