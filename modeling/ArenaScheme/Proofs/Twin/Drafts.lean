/-
# Lists under construction

A list that is built from its front is held in a root slot, as a draft, and the builder knows its
last pair.  Extending it changes that pair and nothing else, and the program cannot have changed it
in between, since it does not hold any pair of the draft.
-/
import ArenaScheme.Eval.Quasiquote
import ArenaScheme.Proofs.Twin.Procedures

namespace ArenaScheme

namespace Twin

open Heap HeapM

variable {ε α α' β β' : Type} [Fault ε] {W : Regime} {σ τ : Twin} {R : Twin → Twin → Prop}
  {r : Role} {a b a' b' c c' l l' v v' x x' : Handle} {m n k : Nat} {A : Nat → Prop}

/-! ## Chains of pairs -/

/-- Corresponding proper lists of one role with shown elements, given their first and last pairs. -/
inductive Chain (σ : Twin) (r : Role) : Nat → Handle → Handle → Handle → Handle → Prop
  | last {v v' x x' : Handle} (hv : σ.rel r v v') (hl : σ.left.pairAt v = some (x, .emptyList))
      (hr : σ.right.pairAt v' = some (x', .emptyList)) (hx : σ.rel .shown x x') :
      Chain σ r 0 v v' v v'
  | more {k : Nat} {v v' x x' c c' l l' : Handle} (hv : σ.rel r v v')
      (hl : σ.left.pairAt v = some (x, c)) (hr : σ.right.pairAt v' = some (x', c'))
      (hx : σ.rel .shown x x') (hc : Chain σ r k c c' l l') : Chain σ r (k + 1) v v' l l'

namespace Chain

lemma rel_first (hc : σ.Chain r k v v' l l') : σ.rel r v v' := by
  cases hc with
  | last hv | more hv => exact hv

lemma rel_last (hc : σ.Chain r k v v' l l') : σ.rel r l l' := by
  induction hc with
  | last hv => exact hv
  | more _ _ _ _ _ ih => exact ih

lemma spine (hc : σ.Chain r k v v' l l') : σ.Spine r (k + 1) v v' := by
  induction hc with
  | last hv hl hr hx => exact ⟨hv, _, _, _, _, hl, hr, hx, rfl, rfl⟩
  | more hv hl hr hx _ ih => exact ⟨hv, _, _, _, _, hl, hr, hx, ih⟩

lemma reachable_last {extra : List Handle} (hc : σ.Chain r k v v' l l')
    (hv : σ.left.Reachable extra v) : σ.left.Reachable extra l := by
  induction hc with
  | last => exact hv
  | more _ hl _ _ _ ih => exact ih (hv.cdr hl)

/-- A chain stays as it is if its pairs, and what is shown, stay as they are. -/
lemma congr (hvt : τ.Valid W) {T : Handle → Prop}
    (hrel : ∀ {a b}, T a → σ.rel r a b → τ.rel r a b)
    (hshown : ∀ {a b}, T a → σ.rel .shown a b → τ.rel .shown a b)
    (hpair : ∀ {a b}, T a → σ.rel r a b → τ.left.pairAt a = σ.left.pairAt a)
    (hT : ∀ {a b x c}, T a → σ.rel r a b → σ.left.pairAt a = some (x, c) → T x ∧ T c)
    (hc : σ.Chain r k v v' l l') (h : T v) : τ.Chain r k v v' l l' := by
  induction hc with
  | last hr' hl hr hx =>
    have h1 := hrel h hr'
    have h2 := (hpair h hr').trans hl
    have h3 := hshown (hT h hr' hl).1 hx
    exact .last h1 h2 (hvt.pairAt_right_of_known h1 h2 ⟨_, h3⟩
      ⟨_, (hvt.sentinel (by decide)).1⟩) h3
  | more hr' hl hr hx _ ih =>
    have h1 := hrel h hr'
    have h2 := (hpair h hr').trans hl
    have h3 := hshown (hT h hr' hl).1 hx
    have h4 := ih (hT h hr' hl).2
    exact .more h1 h2 (hvt.pairAt_right_of_known h1 h2 ⟨_, h3⟩ ⟨_, h4.rel_first⟩) h3 h4

/-- The drafts in older slots last. -/
lemma lasts (hl : Lasts m A σ τ) (hvt : τ.Valid W) (hn : n < m)
    (hc : σ.Chain (.draft n) k v v' l l') (h : σ.Pinned m A v) :
    τ.Chain (.draft n) k v v' l l' := by
  refine hc.congr hvt (T := σ.Pinned m A) (fun ha h => hl.rel ha ?_ h)
    (fun ha h => hl.rel ha (by simp) h) (fun ha h => hl.draft hn ha h)
    (fun ha h hp => ⟨.car hn ha h hp, .cdr hn ha h hp⟩) h
  rintro _ ⟨⟩
  exact hn

/-- Appending a pair. -/
lemma snoc (hv : σ.Valid W) (hr : r ≠ .shown) (hc : σ.Chain r k v v' l l')
    (hcell : σ.Chain r 0 c c' c c') (hne : c ≠ l) :
    ∃ x x', σ.left.pairAt l = some (x, .emptyList) ∧ σ.right.pairAt l' = some (x', .emptyList) ∧
      (σ.write l l' (.pair x c) (.pair x' c')).Chain r (k + 1) v v' c c' := by
  have hnil : σ.rel .shown Handle.emptyList .emptyList := (hv.sentinel (by decide)).1
  induction hc with
  | @last v v' x x' hvv hl hr' hx =>
    refine ⟨x, x', hl, hr', ?_⟩
    have hol := object?_write_left (b := v') (f := .pair x' c') (pairAt_eq_some.mp hl)
      (e := .pair x c) rfl
    have hor := object?_write_right (a := v) (e := .pair x c) (pairAt_eq_some.mp hr')
      (f := .pair x' c') rfl
    obtain ⟨y, y', hcc, hcl, hcr, hcx⟩ : ∃ y y', σ.rel r c c' ∧
        σ.left.pairAt c = some (y, .emptyList) ∧ σ.right.pairAt c' = some (y', .emptyList) ∧
        σ.rel .shown y y' := by
      cases hcell with
      | last h1 h2 h3 h4 => exact ⟨_, _, h1, h2, h3, h4⟩
    have hne' : c' ≠ v' := fun he => hne ((hv.eq_iff hcc hvv).mpr he)
    refine .more hvv (pairAt_eq_some.mpr (by rw [hol, if_pos rfl]))
      (pairAt_eq_some.mpr (by rw [hor, if_pos rfl])) hx (.last hcc ?_ ?_ hcx)
    · rw [Heap.pairAt, hol, if_neg hne, ← Heap.pairAt, hcl]
    · rw [Heap.pairAt, hor, if_neg hne', ← Heap.pairAt, hcr]
  | @more k v v' x x' u u' l l' hvv hl hr' hx hc ih =>
    obtain ⟨y, y', hy, hy', hchain⟩ := ih hne
    refine ⟨y, y', hy, hy', ?_⟩
    have hol := object?_write_left (b := l') (f := .pair y' c') (pairAt_eq_some.mp hy)
      (e := .pair y c) rfl
    have hor := object?_write_right (a := l) (e := .pair y c) (pairAt_eq_some.mp hy')
      (f := .pair y' c') rfl
    -- the last pair is followed by the empty list, which is no pair of the chain
    have hvl : v ≠ l := by
      rintro rfl
      obtain ⟨rfl, rfl⟩ : x = y ∧ u = .emptyList := by simpa using hl.symm.trans hy
      exact hr (hv.functional hc.rel_first hnil).1
    have hvl' : v' ≠ l' := fun he => hvl ((hv.eq_iff hvv hc.rel_last).mpr he)
    refine .more hvv ?_ ?_ hx hchain
    · rw [Heap.pairAt, hol, if_neg hvl, ← Heap.pairAt, hl]
    · rw [Heap.pairAt, hor, if_neg hvl', ← Heap.pairAt, hr']

end Chain

/-! ## Drafts -/

/-- The slot `n` holds the beginning of a list, given by its last pair; or, if the list has no pairs
yet, something shown. -/
def Drafting (σ : Twin) (n : Nat) : Option Handle → Option Handle → Prop
  | none, none => σ.At n .shown
  | some l, some l' => ∃ k v v', σ.left.roots[n]? = some v ∧ σ.right.roots[n]? = some v' ∧
      σ.Chain (.draft n) k v v' l l'
  | _, _ => False

/-- The slot `n` holds a list that is complete, except that it may still be called a draft. -/
def Complete (σ : Twin) (n : Nat) : Prop := σ.At n .shown ∨ σ.At n (.draft n)

lemma At.lasts (hl : Lasts m A σ τ) (hn : n < m) (hr : ∀ k, r = .draft k → k < m) (ha : σ.At n r) :
    τ.At n r := by
  obtain ⟨a, b, h1, h2, h⟩ := ha
  exact ⟨a, b, (hl.roots n (.inl hn)).trans h1, (hl.roots' n (.inl hn)).trans h2,
    hl.rel (.slot hn h1) hr h⟩

lemma Drafting.lasts {last last' : Option Handle} (hl : Lasts m A σ τ) (hvt : τ.Valid W)
    (hn : n < m) (hd : σ.Drafting n last last') : τ.Drafting n last last' := by
  match last, last', hd with
  | none, none, hd => exact At.lasts hl hn (by simp) hd
  | some l, some l', ⟨k, v, v', h1, h2, hc⟩ =>
    exact ⟨k, v, v', (hl.roots n (.inl hn)).trans h1, (hl.roots' n (.inl hn)).trans h2,
      hc.lasts hl hvt hn (.slot hn h1)⟩

lemma Drafting.keeps {last last' : Option Handle} (hk : Keeps σ τ) (hvt : τ.Valid W)
    (hd : σ.Drafting n last last') : τ.Drafting n last last' :=
  hd.lasts (m := n + 1) (A := fun _ => False) (hk.lasts _ _) hvt (Nat.lt_succ_self n)

lemma Drafting.lt {last last' : Option Handle} (hd : σ.Drafting n last last') :
    n < σ.left.roots.size := by
  match last, last', hd with
  | none, none, hd => exact At.lt hd
  | some l, some l', ⟨k, v, v', h1, _, _⟩ => exact (Array.getElem?_eq_some_iff.mp h1).1

/-- A new last pair, which is not linked to the draft yet. -/
lemma New.chain (hvt : τ.Valid W) (hn : New σ r (.pair x .emptyList) c c' τ)
    (hx : σ.rel .shown x x') : τ.Chain r 0 c c' c c' := by
  have hxt := hn.held (.of_extra (by simp [Datum.children])) hx
  exact .last hn.rel hn.pairAt (hvt.pairAt_right_of_known hn.rel hn.pairAt ⟨_, hxt⟩
    ⟨_, (hvt.sentinel (by decide)).1⟩) hxt

/-- A pair for a draft. -/
lemma Runs.draft_cell (hv : σ.Valid W) (n : Nat) (hx : σ.rel .shown x x') :
    Runs W Keeps (HeapM.cons x .emptyList) (HeapM.cons x' .emptyList) σ
      (New σ (.draft n) (.pair x .emptyList)) :=
  .alloc hv (.draft hx (.inl (hv.sentinel (by decide)).1))

/-- Linking a new pair to a draft. -/
lemma Runs.link_cell (hv : σ.Valid W) (hA : σ.Active A) (hm : m ≤ n) (hn : ¬ A n)
    {last last' : Option Handle} (hd : σ.Drafting n last last')
    (hc : σ.Chain (.draft n) 0 c c' c c') (hne : last ≠ some c) :
    Runs W (Evolves m A) (Template.link ⟨n⟩ last c) (Template.link ⟨n⟩ last' c') σ fun _ _ τ =>
      τ.Drafting n (some c) (some c') := by
  match last, last', hd with
  | none, none, hd =>
    refine .store hv hd.lt hc.rel_first ?_ (evolves_put hm hn c c') ?_
    · rintro _ ⟨⟩
      exact le_rfl
    · refine ⟨0, c, c', Array.getElem?_setIfInBounds_self_of_lt hd.lt,
        Array.getElem?_setIfInBounds_self_of_lt (hv.depth ▸ hd.lt), ?_⟩
      cases hc with
      | last h1 h2 h3 h4 => exact .last h1 h2 h3 h4
  | some l, some l', ⟨k, v, v', h1, h2, hchain⟩ =>
    refine (Runs.setCdr_draft hv hA hm hchain.rel_last (.inr hc.rel_first)).post ?_
    rintro _ _ _ _ - ⟨x, t, x', t', hl, hr, rfl⟩
    obtain ⟨y, y', hl', hr', hnew⟩ := hchain.snoc hv (by simp) hc fun he => hne (he ▸ rfl)
    obtain ⟨rfl, -⟩ : y = x ∧ _ := by simpa using hl'.symm.trans hl
    obtain ⟨rfl, -⟩ : y' = x' ∧ _ := by simpa using hr'.symm.trans hr
    exact ⟨k + 1, v, v', h1, h2, hnew⟩

/-- Completing a draft with whatever ends the list. -/
lemma Runs.link_rest (hv : σ.Valid W) (hA : σ.Active A) (hm : m ≤ n) (hn : ¬ A n)
    {last last' : Option Handle} (hd : σ.Drafting n last last') (hx : σ.rel .shown x x') :
    Runs W (Evolves m A) (Template.link ⟨n⟩ last x) (Template.link ⟨n⟩ last' x') σ fun _ _ τ =>
      τ.Complete n := by
  match last, last', hd with
  | none, none, hd =>
    exact .store hv hd.lt hx (by simp) (evolves_put hm hn x x') (.inl (at_put hv hd.lt hx))
  | some l, some l', ⟨k, v, v', h1, h2, hchain⟩ =>
    refine (Runs.setCdr_draft hv hA hm hchain.rel_last (.inl hx)).post ?_
    rintro _ _ _ _ - ⟨y, t, y', t', -, -, rfl⟩
    exact .inr ⟨v, v', h1, h2, hchain.rel_first⟩

/-- Extending a draft by an element. -/
lemma Runs.push (hv : σ.Valid W) (hA : σ.Active A) (hm : m ≤ n) (hn : ¬ A n)
    {last last' : Option Handle} (hd : σ.Drafting n last last') (hx : σ.rel .shown x x') :
    Runs W (Evolves m A) (Template.push ⟨n⟩ last x) (Template.push ⟨n⟩ last' x') σ fun c c' τ =>
      τ.Drafting n (some c) (some c') := by
  refine .bind_keeps (.draft_cell hv n hx) fun c c' τ hvt hk hc => ?_
  refine (Runs.link_cell hvt ((hk.lasts m A).active hA) hm hn (hd.keeps hk hvt)
    (hc.chain hvt hx) ?_).bind fun _ _ υ hvu _ hq => .pure hvu hq
  -- the last pair can be reached, so it is not the new one
  rintro rfl
  match last', hd with
  | some l', ⟨k, v, v', h1, h2, hchain⟩ =>
    exact hc.fresh (hchain.reachable_last (.of_slot h1)).of_nil

/-- The end of a draft: what the slot holds may be shown. -/
lemma Runs.finish (hv : σ.Valid W) (hm : m ≤ n) (hc : σ.Complete n) :
    Runs W (Evolves m A) (HeapM.contents ⟨n⟩ : HeapM ε Handle) (HeapM.contents ⟨n⟩) σ
      fun v v' τ => τ.rel .shown v v' := by
  rcases hc with ⟨v, v', h1, h2, hr⟩ | ⟨v, v', h1, h2, hr⟩
  · exact .ok (contents_apply h1) (contents_apply h2) hv (Motion.refl _ σ) hr
  · exact .ok (τ := σ.settle n .shown) (contents_apply h1) (contents_apply h2)
      (hv.settle n (.inl rfl)) (evolves_settle hm .shown) (settle_draft hr)

end Twin

end ArenaScheme
