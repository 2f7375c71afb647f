/-
# Lists in step

Walks down corresponding spines visit corresponding elements.  Lists are made from their ends, and
all elements are held in root slots meanwhile.  A list may be made to be shown, or to become a list
of a frame.
-/
import ArenaScheme.Proofs.Twin.Objects

namespace ArenaScheme

namespace Twin

open Heap HeapM

variable {ε α α' β β' : Type} [Fault ε] {W : Regime} {σ τ : Twin} {R : Twin → Twin → Prop}
  {r : Role} {a b a' b' v v' : Handle} {d d' : Datum} {m n : Nat} {A : Nat → Prop}

/-! ## Which spines are followed -/

/-- Shown spines, with any property that is inherited along pairs. -/
lemma follows_shown (hv : σ.Valid W) {T : Handle → Prop}
    (hT : ∀ {u x c}, T u → σ.left.pairAt u = some (x, c) → T x ∧ T c) :
    Follows σ (fun u u' => σ.rel .shown u u' ∧ T u) (fun u u' => σ.rel .shown u u' ∧ T u) where
  known h := ⟨_, h.1⟩
  pair h hp := by
    obtain ⟨x', c', hp', -⟩ := hv.pairAt_right h.1 hp
    have hs := hv.shown_pair h.1 hp hp'
    have ht := hT h.2 hp
    exact ⟨x', c', hp', ⟨hs.1, ht.1⟩, ⟨hs.2, ht.2⟩⟩

lemma follows_sees (hv : σ.Valid W) (A : Nat → Prop) : Follows σ (σ.Sees A) (σ.Sees A) :=
  follows_shown hv fun hu hp => ⟨hu.car hp, hu.cdr hp⟩

/-- Proper lists of pairs of one role, with any property that is inherited along pairs. -/
lemma follows_spine (hv : σ.Valid W) (r : Role) {T : Handle → Prop}
    (hT : ∀ {u x c}, T u → σ.left.pairAt u = some (x, c) → T x ∧ T c) :
    Follows σ (fun u u' => (∃ n, σ.Spine r n u u') ∧ T u)
      (fun u u' => σ.rel .shown u u' ∧ T u) where
  known h := by
    obtain ⟨⟨n, hs⟩, -⟩ := h
    exact hs.known hv
  pair h hp := by
    obtain ⟨⟨n, hs⟩, ht⟩ := h
    cases n with
    | zero =>
      obtain ⟨rfl, rfl⟩ := hs
      have := (hv.sentinel (v := .emptyList) (by decide)).2.1
      rw [pairAt_eq_some, this] at hp
      simp [sentinels, Handle.emptyList] at hp
    | succ n =>
      obtain ⟨-, x, c, x', c', hl, hl', hx, hs⟩ := hs
      obtain ⟨rfl, rfl⟩ : x = _ ∧ c = _ := by simpa using hl.symm.trans hp
      have := hT ht hp
      exact ⟨x', c', hl', ⟨hx, this.1⟩, ⟨⟨n, hs⟩, this.2⟩⟩

/-! ## Walks -/

variable {S E : Handle → Handle → Prop} {P : β → β' → Twin → Prop}

lemma Runs.walkSpine (hv : σ.Valid W) (hS : Follows σ S E) (hab : S a b) {f : Walk → HeapM ε β}
    {g : Walk → HeapM ε β'}
    (hf : ∀ w w', σ.left.walkSpine a = .ok w → List.Forall₂ E w.visited w'.visited →
      Option.Rel S w.ending w'.ending → Runs W R (f w) (g w') σ P) :
    Runs W R (walkSpine a >>= f) (walkSpine b >>= g) σ P := by
  obtain ⟨w, w', h1, h2, h3, h4⟩ := hS.walkSpine hv hab
  refine .look ?_ ?_ (hf w w' h1 h3 h4)
  · rw [HeapM.walkSpine, inspect, h1]
  · rw [HeapM.walkSpine, inspect, h2]

/-- Corresponding spines are both proper lists, or neither is. -/
lemma Follows.items (hS : Follows σ S E) (hv : σ.Valid W) (hab : S a b) :
    ∃ w w', σ.left.walkSpine a = .ok w ∧ σ.right.walkSpine b = .ok w' ∧
      Option.Rel (List.Forall₂ E) w.items? w'.items? := by
  obtain ⟨w, w', h1, h2, h3, h4⟩ := hS.walkSpine hv hab
  refine ⟨w, w', h1, h2, ?_⟩
  have hend : w.ending = some .emptyList ↔ w'.ending = some .emptyList := by
    generalize w.ending = o at h4
    generalize w'.ending = o' at h4
    cases h4 with
    | none => simp
    | some hs =>
      obtain ⟨r, hr⟩ := hS.known hs
      rw [Option.some_inj, Option.some_inj]
      exact hv.eq_sentinel_iff hr (by decide)
  unfold Walk.items?
  by_cases he : w.ending = some .emptyList
  · rw [if_pos he, if_pos (hend.mp he)]
    exact .some h3
  · rw [if_neg he, if_neg (mt hend.mpr he)]
    exact .none

/-- The elements of corresponding lists. -/
lemma Runs.items (hv : σ.Valid W) (hS : Follows σ S E) (hab : S a b)
    {f : Option (List Handle) → HeapM ε β} {g : Option (List Handle) → HeapM ε β'}
    (hsome : ∀ vs vs', List.Forall₂ E vs vs' → Runs W R (f (some vs)) (g (some vs')) σ P)
    (hnone : Runs W R (f none) (g none) σ P) :
    Runs W R (items? a >>= f) (items? b >>= g) σ P := by
  obtain ⟨w, w', h1, h2, hi⟩ := hS.items hv hab
  refine .look (items?_eq h1) (items?_eq h2) ?_
  generalize w.items? = o at hi
  generalize w'.items? = o' at hi
  cases hi with
  | none => exact hnone
  | some hvs => exact hsome _ _ hvs

/-- The lengths of corresponding lists are the same. -/
lemma Runs.length (hv : σ.Valid W) (hS : Follows σ S E) (hab : S a b)
    {f : Option Nat → HeapM ε β} {g : Option Nat → HeapM ε β'}
    (hf : ∀ w, σ.left.walkSpine a = .ok w →
      Runs W R (f (w.items?.map List.length)) (g (w.items?.map List.length)) σ P) :
    Runs W R (length? a >>= f) (length? b >>= g) σ P := by
  obtain ⟨w, w', h1, h2, hi⟩ := hS.items hv hab
  have hlen : w'.items?.map List.length = w.items?.map List.length := by
    generalize w.items? = o at hi
    generalize w'.items? = o' at hi
    cases hi with
    | none => rfl
    | some hvs => exact congrArg some hvs.length_eq.symm
  exact .look (length?_eq h1) (length?_eq h2) (hlen ▸ hf w h1)

/-! ## Looking at all elements -/

/-- Looking at corresponding elements one after the other. -/
lemma Runs.mapM (hv : σ.Valid W) {T : β → β' → Prop} {f : Handle → HeapM ε β}
    {g : Handle → HeapM ε β'} {vs vs' : List Handle} (hvs : List.Forall₂ E vs vs')
    (hf : ∀ v v', E v v' → Runs W Keeps (f v) (g v') σ fun x y τ => τ = σ ∧ T x y) :
    Runs W Keeps (vs.mapM f) (vs'.mapM g) σ fun xs ys τ =>
      τ = σ ∧ xs.length = vs.length ∧ List.Forall₂ T xs ys := by
  induction hvs with
  | nil => exact .pure hv ⟨rfl, rfl, .nil⟩
  | cons hx _ ih =>
    rw [List.mapM_cons, List.mapM_cons]
    refine (hf _ _ hx).bind ?_
    rintro x y _ _ - ⟨rfl, hxy⟩
    refine ih.bind ?_
    rintro xs ys _ _ - ⟨rfl, hlen, hxs⟩
    exact .pure hv ⟨rfl, congrArg (· + 1) hlen, .cons hxy hxs⟩

/-- Testing corresponding elements one after the other. -/
lemma Runs.allM (hv : σ.Valid W) {T : Handle → Prop} {f g : Handle → HeapM ε Bool}
    {vs vs' : List Handle} (hvs : List.Forall₂ E vs vs') (hf : ∀ v v', E v v' →
      Runs W Keeps (f v) (g v') σ fun x y τ => τ = σ ∧ x = y ∧ (x = true ↔ T v)) :
    Runs W Keeps (vs.allM f) (vs'.allM g) σ fun x y τ => τ = σ ∧ x = y ∧
      (x = true ↔ ∀ v ∈ vs, T v) := by
  induction hvs with
  | nil => exact .pure hv ⟨rfl, rfl, by simp⟩
  | cons hx _ ih =>
    refine (hf _ _ hx).bind ?_
    rintro t _ _ _ - ⟨rfl, rfl, ht⟩
    simp only [List.forall_mem_cons, ← ht]
    cases t with
    | false => exact .pure hv ⟨rfl, rfl, by simp⟩
    | true => exact ih.post fun _ _ _ _ _ h => by simpa using h

/-! ## Making lists -/

/-- A new shown pair. -/
lemma Runs.cons (hv : σ.Valid W) {x x' : Handle} (hx : σ.rel .shown x x')
    (hc : σ.rel .shown v v') :
    Runs W Keeps (HeapM.cons x v) (HeapM.cons x' v') σ fun u u' τ => τ.rel .shown u u' :=
  (Runs.alloc hv (.pair hx hc)).post fun _ _ _ _ _ h => h.rel

/-- The right one of two corresponding pairs, given what its parts correspond to. -/
lemma Valid.pairAt_right_of_known (hv : σ.Valid W) (hab : σ.rel r a b) {x c x' c' : Handle}
    (hp : σ.left.pairAt a = some (x, c)) (hx : σ.Known x x') (hc : σ.Known c c') :
    σ.right.pairAt b = some (x', c') := by
  obtain ⟨y, e, hp', hf⟩ := hv.pairAt_right hab hp
  have h2 := hf.children hv
  simp only [Datum.children, List.forall₂_cons, List.Forall₂.nil, and_true] at h2
  obtain ⟨s, hs⟩ := hx
  obtain ⟨s', hs'⟩ := h2.1
  obtain ⟨t, ht⟩ := hc
  obtain ⟨t', ht'⟩ := h2.2
  rw [hp', (hv.functional hs hs').2, (hv.functional ht ht').2]

lemma Spine.keep {extra : List Handle} (hvt : τ.Valid W)
    (hrel : ∀ {s a b}, σ.left.Reachable extra a → σ.rel s a b → τ.rel s a b)
    (hobj : ∀ {a}, σ.left.Reachable extra a → τ.left.object? a = σ.left.object? a)
    (hr : σ.left.Reachable extra v) (hs : σ.Spine r n v v') : τ.Spine r n v v' := by
  induction n generalizing v v' with
  | zero => exact hs
  | succ n ih =>
    obtain ⟨hrv, x, c, x', c', hl, hl', hx, hs⟩ := hs
    have hlt : τ.left.pairAt v = some (x, c) := by rw [Heap.pairAt, hobj hr, ← Heap.pairAt, hl]
    have hc := ih (hr.cdr hl) hs
    have hxt := hrel (hr.car hl) hx
    exact ⟨hrel hr hrv, x, c, x', c', hlt,
      hvt.pairAt_right_of_known (hrel hr hrv) hlt ⟨_, hxt⟩ (hc.known hvt), hxt, hc⟩

/-- The left one of corresponding lists is a proper list. -/
lemma Spine.row (hs : σ.Spine r n v v') :
    ∃ vs cells, vs.length = n ∧ σ.left.Row .emptyList vs cells v := by
  induction n generalizing v v' with
  | zero =>
    obtain ⟨rfl, -⟩ := hs
    exact ⟨_, _, rfl, .nil⟩
  | succ n ih =>
    obtain ⟨-, x, c, x', c', hl, -, -, hs⟩ := hs
    obtain ⟨vs, cells, hlen, hrow⟩ := ih hs
    exact ⟨x :: vs, v :: cells, congrArg (· + 1) hlen, .cons (pairAt_eq_some.mp hl) hrow⟩

lemma Keeps.row (hk : Keeps σ τ) {vs cells : List Handle} (hr : σ.left.Reachable [] v)
    (hrow : σ.left.Row .emptyList vs cells v) : τ.left.Row .emptyList vs cells v :=
  hrow.congr fun c hc => hk.object ((hrow.reachable hr).1 c hc)

lemma Spine.pop (hs : σ.Spine r n v v') : σ.pop.Spine r n v v' := by
  induction n generalizing v v' with
  | zero => exact hs
  | succ n ih =>
    obtain ⟨hrv, x, c, x', c', hl, hl', hx, hs⟩ := hs
    exact ⟨hrv, x, c, x', c', hl, hl', hx, ih hs⟩

lemma Spine.shown (hv : σ.Valid W) (hs : σ.Spine .shown n v v') : σ.rel .shown v v' := by
  cases n with
  | zero =>
    obtain ⟨rfl, rfl⟩ := hs
    exact (hv.sentinel (by decide)).1
  | succ n => exact hs.1

/-- A new pair in front of a list. -/
lemma Runs.cons_spine (hv : σ.Valid W) (hr : r = .shown ∨ r = .binding) {x x' : Handle}
    {vs cells : List Handle} (hx : σ.rel .shown x x') (hs : σ.Spine r n v v')
    (hrow : σ.left.Row .emptyList vs cells v) :
    Runs W Keeps (HeapM.cons x v) (HeapM.cons x' v') σ fun u u' τ =>
      τ.Spine r (n + 1) u u' ∧ τ.left.Row .emptyList (x :: vs) (u :: cells) u := by
  have hfit : Fits W σ r (.pair x v) (.pair x' v') := by
    rcases hr with rfl | rfl
    · exact .pair hx (hs.shown hv)
    · exact .binding ⟨_, hx⟩ (hs.known hv)
  refine (Runs.alloc hv hfit).post fun u u' τ hvt _ hn => ?_
  have hreach : σ.left.Reachable (Datum.pair x v).children v := .of_extra (by simp [Datum.children])
  have hst := hs.keep hvt hn.held hn.kept hreach
  have hxt := hn.held (.of_extra (by simp [Datum.children])) hx
  exact ⟨⟨hn.rel, x, v, x', v', hn.pairAt,
    hvt.pairAt_right_of_known hn.rel hn.pairAt ⟨_, hxt⟩ (hst.known hvt), hxt, hst⟩,
    .cons hn.object (hrow.congr fun c hc => hn.kept ((hrow.reachable hreach).1 c hc))⟩

lemma Runs.foldrM_cons (hv : σ.Valid W) (hr : r = .shown ∨ r = .binding) {vs vs' : List Handle}
    (hvs : List.Forall₂ (σ.Holds .shown) vs vs') :
    Runs W Keeps (vs.foldrM HeapM.cons .emptyList) (vs'.foldrM HeapM.cons .emptyList) σ
      fun u u' τ => τ.Spine r vs.length u u' ∧ ∃ cells, τ.left.Row .emptyList vs cells u := by
  induction hvs with
  | nil => exact .pure hv ⟨⟨rfl, rfl⟩, _, .nil⟩
  | @cons x x' vs vs' hx _ ih =>
    rw [List.foldrM_cons, List.foldrM_cons]
    refine ih.bind ?_
    rintro u u' τ hvt hk ⟨hs, cells, hrow⟩
    exact (Runs.cons_spine hvt hr (hk.holds hx).1 hs hrow).post fun _ _ _ _ _ h => ⟨h.1, _, h.2⟩

lemma reachable_push (ha : σ.left.Reachable [] a) (v v' : Handle) :
    (σ.push v v').left.Reachable [] a := by
  induction ha with
  | anchor ha =>
    refine .anchor ?_
    cases ha with
    | sentinel hi => exact .sentinel hi
    | permanent hr hs => exact .permanent hr hs
    | root hm =>
      refine .root ?_
      change _ ∈ (σ.left.roots.push v).toList
      rw [Array.toList_push]
      exact List.mem_append_left _ hm
    | base => exact .base
    | current => exact .current
    | extra hm => simp at hm
  | child _ hd hm ih => exact .child ih hd hm

lemma reachable_of_push (v v' : Handle) : (σ.push v v').left.Reachable [] v :=
  .of_slot (i := σ.left.roots.size) Array.getElem?_push_size

/-- Holding several objects in slots. -/
lemma Runs.rootedAll (hv : σ.Valid W) {u w vs vs' : List Handle}
    (hus : List.Forall₂ (σ.Holds .shown) u w) (hvs : List.Forall₂ (σ.rel .shown) vs vs')
    {x : HeapM ε α} {y : HeapM ε α'} {Q : α → α' → Twin → Prop}
    (hQ : ∀ a b τ, Q a b τ → Q a b τ.pop)
    (hx : ∀ τ : Twin, τ.Valid W → List.Forall₂ (τ.Holds .shown) (u ++ vs) (w ++ vs') →
      Runs W Keeps x y τ Q) :
    Runs W Keeps (HeapM.rootedAll vs x) (HeapM.rootedAll vs' y) σ Q := by
  induction vs generalizing σ u w vs' with
  | nil =>
    cases hvs
    rw [List.append_nil, List.append_nil] at hx
    exact hx σ hv hus
  | cons v vs ih =>
    obtain _ | @⟨_, v', _, vs', hvv, hvs⟩ := hvs
    refine .rooted_keeps hv (.post (ih (u := u ++ [v]) (w := w ++ [v'])
      (hv.push hvv (by simp)) ?_ hvs fun τ hvt h => ?_) fun a b τ _ _ => hQ a b τ)
    · refine List.rel_append (hus.imp fun _ _ h => ⟨h.1, reachable_push h.2 v v'⟩) ?_
      exact .cons ⟨hvv, reachable_of_push v v'⟩ .nil
    · rw [List.append_assoc, List.append_assoc] at h
      exact hx τ hvt h

/-- Lists made of corresponding elements, which the left one consists of. -/
lemma Runs.list_row (hv : σ.Valid W) (hr : r = .shown ∨ r = .binding) {vs vs' : List Handle}
    (hvs : List.Forall₂ (σ.rel .shown) vs vs') :
    Runs W Keeps (HeapM.list vs) (HeapM.list vs') σ fun u u' τ =>
      τ.Spine r vs.length u u' ∧ ∃ cells, τ.left.Row .emptyList vs cells u :=
  .rootedAll hv .nil hvs (fun _ _ _ ⟨hs, cells, hrow⟩ => ⟨hs.pop, cells, hrow.congr fun _ _ => rfl⟩)
    fun _ hvt h => .foldrM_cons hvt hr h

lemma Runs.list (hv : σ.Valid W) (hr : r = .shown ∨ r = .binding) {vs vs' : List Handle}
    (hvs : List.Forall₂ (σ.rel .shown) vs vs') :
    Runs W Keeps (HeapM.list vs) (HeapM.list vs') σ fun u u' τ => τ.Spine r vs.length u u' :=
  (Runs.list_row hv hr hvs).post fun _ _ _ _ _ h => h.1

/-! ## Changing pairs and slots -/

/-- Extending a draft at a pair of it. -/
lemma Runs.setCdr_draft (hv : σ.Valid W) (hA : σ.Active A) (hm : m ≤ n)
    (hab : σ.rel (.draft n) a b) {w w' : Handle}
    (hw : σ.rel .shown w w' ∨ σ.rel (.draft n) w w') :
    Runs W (Evolves m A) (HeapM.setCdr a w : HeapM ε Unit) (HeapM.setCdr b w') σ fun _ _ τ =>
      ∃ x c x' c', σ.left.pairAt a = some (x, c) ∧ σ.right.pairAt b = some (x', c') ∧
        τ = σ.write a b (.pair x w) (.pair x' w') := by
  obtain ⟨x, c, x', c', hl, hr, hx, -⟩ := hv.draft_pair hab
  have hf : Fits W σ (.draft n) (.pair x w) (.pair x' w') := .draft hx hw
  have hrep : Replaces W σ (.draft n) (.pair x c) (.pair x' c') (.pair x w) (.pair x' w') :=
    .pair (by simp) (by simp [Regime.Fixed])
  refine .ok (τ := σ.write a b (.pair x w) (.pair x' w')) (setCdr_apply hl w) (setCdr_apply hr w')
    (hv.write hab (pairAt_eq_some.mp hl) (pairAt_eq_some.mp hr) hf hrep) ?_
    ⟨x, c, x', c', hl, hr, rfl⟩
  refine evolves_write (pairAt_eq_some.mp hl) hab rfl hrep hv
    (fun hp => absurd hp (hA.not_part hv hab (by simp))) ?_
  rintro _ ⟨⟩
  exact hm

/-! ## Copying lists -/

/-- Putting an element in front of the list in a slot. -/
lemma Runs.consOnto (hv : σ.Valid W) (hm : m ≤ n) (hA : ¬ A n) (hn : σ.At n .shown)
    (hab : σ.rel .shown a b) :
    Runs W (Evolves m A) (do HeapM.store ⟨n⟩ (← HeapM.cons a (← HeapM.contents ⟨n⟩)))
      (do HeapM.store ⟨n⟩ (← HeapM.cons b (← HeapM.contents ⟨n⟩))) σ fun _ _ τ =>
        τ.At n .shown := by
  obtain ⟨u, u', hu, hu', hr⟩ := hn
  refine .contents hu hu' ?_
  refine (Runs.keeps (.cons hv hab hr)).bind fun w w' τ hvt he hw => ?_
  have hlt : n < τ.left.roots.size := he.depth ▸ (Array.getElem?_eq_some_iff.mp hu).1
  exact .store hvt hlt hw (by simp) (evolves_put hm hA w w') (at_put hvt hlt hw)

/-- Putting elements in front of the list in a slot, one after the other. -/
lemma Runs.forM_copy (hv : σ.Valid W) (hm : m ≤ n) (hA : ¬ A n) (hn : σ.At n .shown)
    {vs vs' : List Handle} (hvs : List.Forall₂ (σ.Sees A) vs vs') :
    Runs W (Evolves m A)
      (vs.forM fun v => do HeapM.store ⟨n⟩ (← HeapM.cons v (← HeapM.contents ⟨n⟩)))
      (vs'.forM fun v => do HeapM.store ⟨n⟩ (← HeapM.cons v (← HeapM.contents ⟨n⟩))) σ
      fun _ _ τ => τ.At n .shown := by
  induction vs generalizing σ vs' with
  | nil =>
    cases hvs
    exact .pure hv hn
  | cons v vs ih =>
    obtain _ | @⟨_, v', _, vs', hvv, hvs⟩ := hvs
    rw [List.forM_eq_forM, List.forM_cons, List.forM_cons]
    exact (Runs.consOnto hv hm hA hn hvv.1).bind fun _ _ τ hvt he hq =>
      ih hvt hq (hvs.imp fun _ _ h => he.sees h)

lemma Spine.role (hv : σ.Valid W) (hs : σ.Spine r n v v') : σ.rel .shown v v' ∨ σ.rel r v v' := by
  cases n with
  | zero =>
    obtain ⟨rfl, rfl⟩ := hs
    exact .inl (hv.sentinel (by decide)).1
  | succ n => exact .inr hs.1

/-- A copy of a proper list is shown, whatever list it is a copy of. -/
lemma Runs.append (hv : σ.Valid W) (hm : m ≤ σ.left.roots.size)
    (hA : ∀ i, A i → i < σ.left.roots.size) (hs : σ.Spine r n a b)
    (hj : ∀ j, r = .draft j → j ≤ σ.left.roots.size) :
    Runs W (Evolves m A) (append a .emptyList) (append b .emptyList) σ
      fun v v' τ => τ.rel .shown v v' := by
  have hnil : σ.rel .shown Handle.emptyList .emptyList := (hv.sentinel (by decide)).1
  obtain ⟨s, hab, hsj⟩ : ∃ s, σ.rel s a b ∧ ∀ j, s = .draft j → j ≤ σ.left.roots.size := by
    rcases hs.role hv with h | h
    · exact ⟨_, h, by simp⟩
    · exact ⟨r, h, hj⟩
  refine .ite (hv.eq_sentinel_iff hab (by decide)) (fun _ => .pure hv hnil) fun _ => ?_
  have hv1 := hv.push hab hsj
  have hs1 : (σ.push a b).left.roots.size = σ.left.roots.size + 1 := Array.size_push _
  have hv2 := hv1.push hnil (by simp)
  -- the elements are parts of what the first of the two slots holds
  set υ := (σ.push a b).push .emptyList .emptyList with hυ
  have hslot : υ.left.roots[σ.left.roots.size]? = some a := by
    change ((σ.left.roots.push a).push _)[_]? = _
    rw [getElem?_push_of_lt (by simp)]
    exact Array.getElem?_push_size
  refine .items hv (follows_spine hv r (T := υ.left.Part (also A σ.left.roots.size))
    fun hu hp => ⟨hu.car hp, hu.cdr hp⟩) ⟨⟨n, hs⟩, .slot (.inr rfl) hslot⟩ (fun vs vs' hvs => ?_)
    (.raise hv _ _)
  refine .rooted_evolves hv hm hA (.rooted_evolves hv1 (by omega)
    (fun i hi => by have := hA i hi; omega) ?_)
  rw [hs1]
  refine .motion (S := Evolves m (also A σ.left.roots.size)) ?_ fun _ h =>
    h.mono le_rfl fun _ => .inl
  have hfar : ¬ also A σ.left.roots.size (σ.left.roots.size + 1) := by
    rintro (h | h)
    · have := hA _ h
      omega
    · omega
  refine (Runs.forM_copy hv2 (by omega) hfar ?_ (List.rel_reverse hvs)).bind
    fun _ _ τ hvt _ hq => ?_
  · rw [← hs1]
    exact at_push hv1 hnil
  · obtain ⟨u, u', hu, hu', hr⟩ := hq
    exact .ok (contents_apply hu) (contents_apply hu') hvt (Motion.refl _ _) hr

end Twin

end ArenaScheme
