/-
# Templates in step

The copy of a list within a template is a draft while it is built.  Between two extensions parts of
the template are copied and unquoted expressions are evaluated, and the draft outlasts that because
its slot is older than all slots that are taken meanwhile.
-/
import ArenaScheme.Proofs.Twin.Steps

namespace ArenaScheme

namespace Twin

open Heap HeapM

variable {W : Regime} {ρ σ τ : Twin} {a b v v' : Handle} {last last' : Option Handle}
  {k k' m n : Nat} {A : Nat → Prop} {kw kw' : Keywords} {nested nested' : Nested}
  {copy copy' : Template.Copier}

/-- Both ways of copying run in step on corresponding parts of expressions under evaluation. -/
def Copies (W : Regime) (A : Nat → Prop) (kw kw' : Keywords) (ρ : Twin)
    (copy copy' : Template.Copier) : Prop :=
  ∀ {σ : Twin} {t t' : Handle} {m : Nat} (level : Nat), Ready W A kw kw' ρ σ → σ.Sees A t t' →
    m ≤ σ.left.roots.size →
    Runs W (Evolves m A) (copy t level) (copy' t' level) σ fun v v' τ => τ.rel .shown v v'

/-- A new list of a symbol and a copy of a part. -/
lemma Runs.copyMarked (hc : Copies W A kw kw' ρ copy copy') (h : Ready W A kw kw' ρ σ)
    (hs : σ.Sees A a b) (hm : m ≤ σ.left.roots.size) (level : Nat)
    (hw : ∀ τ, Evolves m A σ τ → τ.rel .shown v v') :
    Runs W (Evolves m A) (do HeapM.list [v, ← copy a level]) (do HeapM.list [v', ← copy' b level]) σ
      fun v v' τ => τ.rel .shown v v' :=
  (hc level h hs hm).bind fun _ _ τ hvt he hq =>
    (Runs.keeps (.list hvt (.inl rfl) (.cons (hw τ he) (.cons hq .nil)))).post
      fun _ _ _ hvu _ hl => hl.shown hvu

/-- Copying a nested quotation, or evaluating an unquoted part. -/
lemma Runs.copyQuotation (hn : Nests W A kw kw' ρ nested nested')
    (hc : Copies W A kw kw' ρ copy copy') (h : Ready W A kw kw' ρ σ) (hs : σ.Sees A a b)
    (hm : m ≤ σ.left.roots.size) (level : Nat) :
    Runs W (Evolves m A) (Template.copyQuotation kw nested copy a level)
      (Template.copyQuotation kw' nested' copy' b level) σ fun v v' τ => τ.rel .shown v v' := by
  have hv := h.valid
  refine .asPair hv hs.1 (fun x c x' c' hp hp' => ?_) fun _ => .pure hv hs.1
  obtain ⟨hx, hcc⟩ := hs.pair hv hp hp'
  refine .ite (h.word_iff hx.1 h.words.quasiquote) (fun _ => ?_) fun _ => ?_
  · refine .items hv (follows_sees hv A) hcc (fun vs vs' hvs => ?_) (.raise hv _ _)
    rcases hvs with _ | ⟨h1, _ | _⟩
    · exact .raise hv _ _
    · exact .copyMarked hc h h1 hm _ fun τ he => (he.lasting h.words.quasiquote).1
    · exact .raise hv _ _
  · refine .items hv (follows_sees hv A) hcc (fun vs vs' hvs => ?_) ?_
    · rcases hvs with _ | ⟨h1, _ | _⟩
      · exact .raise hv _ _
      · cases level with
        | zero => exact hn h h1 hm
        | succ outer => exact .copyMarked hc h h1 hm _ fun τ he => (he.sees hx).1
      · exact .raise hv _ _
    · exact .raise hv _ _

/-- Extending a draft by one element after the other. -/
lemma Runs.foldlM_push (h : Ready W A kw kw' ρ σ) (hm : m ≤ n) (hA : ¬ A n)
    (hd : σ.Drafting n last last') {vs vs' : List Handle} (hvs : List.Forall₂ (σ.Sees A) vs vs') :
    Runs W (Evolves m A) (vs.foldlM (fun last v => return some (← Template.push ⟨n⟩ last v)) last)
      (vs'.foldlM (fun last v => return some (← Template.push ⟨n⟩ last v)) last') σ
      fun last last' τ => τ.Drafting n last last' := by
  induction vs generalizing σ vs' last last' with
  | nil =>
    cases hvs
    exact .pure h.valid hd
  | cons v vs ih =>
    obtain _ | @⟨_, v', _, vs', hvv, hvs⟩ := hvs
    rw [List.foldlM_cons, List.foldlM_cons, bind_assoc, bind_assoc]
    refine (Runs.push h.valid h.active hm hA hd hvv.1).bind fun c c' τ hvt he hq => ?_
    exact ih (h.lasts he.1 hvt) hq (hvs.imp fun _ _ h => he.sees h)

lemma Drafting.push (hv : σ.Valid W) (hd : σ.Drafting n last last') (hr : σ.rel .shown v v') :
    (σ.push v v').Drafting n last last' :=
  hd.lasts (lasts_push (A := fun _ => False) hv.depth hd.lt (fun _ => False.elim) v v')
    (hv.push hr (by simp))
    (Nat.lt_succ_self n)

lemma Drafting.pop (hv : σ.Valid W) (hd : σ.Drafting n last last')
    (hn : n + 1 < σ.left.roots.size) :
    σ.pop.Drafting n last last' :=
  hd.lasts (lasts_pop (A := fun _ => False) hv.depth hn fun _ => False.elim) hv.pop
    (Nat.lt_succ_self n)

/-- Extending a draft by the elements of a list, which is held in a slot meanwhile. -/
lemma Runs.splice (h : Ready W A kw kw' ρ σ) (hm : m ≤ n) (hA : ¬ A n)
    (hd : σ.Drafting n last last') (hab : σ.rel .shown a b) :
    Runs W (Evolves m A) (Template.splice ⟨n⟩ last a) (Template.splice ⟨n⟩ last' b) σ
      fun last last' τ => τ.Drafting n last last' := by
  have hv := h.valid
  have hlt := hd.lt
  have h1 := h.push hab (by simp)
  have hs1 : (σ.push a b).left.roots.size = σ.left.roots.size + 1 := Array.size_push _
  -- the elements are parts of what the new slot holds
  refine .items hv (follows_shown hv (T := (σ.push a b).left.Part (also A σ.left.roots.size))
    fun hu hp => ⟨hu.car hp, hu.cdr hp⟩) ⟨hab, .slot (.inr rfl) Array.getElem?_push_size⟩
    (fun vs vs' hvs => ?_) (.raise hv _ _)
  refine .rooted_evolves hv (by omega) h.lt ?_
  have h2 : Ready W (also A σ.left.roots.size) kw kw' (σ.push a b) (σ.push a b) :=
    ⟨h1.valid, h1.active.also (at_push hv hab), Motion.refl _ _, h1.words⟩
  refine (Runs.foldlM_push h2 hm ?_ (hd.push hv hab) hvs).mono
    (fun _ _ he => he.mono le_rfl fun _ => .inl) fun _ _ τ hvt he hq => hq.pop hvt ?_
  · rintro (hn | rfl)
    · exact hA hn
    · exact lt_irrefl _ hlt
  · rw [he.depth, hs1]
    omega

/-- Whether an element is to be spliced in is the same for both runs, and if so it is a pair. -/
lemma Runs.isSplice (h : Ready W A kw kw' ρ σ) (hab : σ.rel .shown a b) (level : Nat) :
    Runs W Keeps (Template.isSplice kw level a) (Template.isSplice kw' level b) σ fun t t' τ =>
      τ = σ ∧ t = t' ∧ (t = true → ∃ x c, σ.left.pairAt a = some (x, c)) := by
  have hv := h.valid
  refine .ite Iff.rfl (fun _ => ?_) fun _ => .pure hv ⟨rfl, rfl, by simp⟩
  refine .asPair hv hab (fun x c x' c' hp hp' => .pure hv ⟨rfl, ?_, fun _ => ⟨x, c, hp⟩⟩)
    fun _ => .pure hv ⟨rfl, rfl, by simp⟩
  rw [Bool.eq_iff_iff, beq_iff_eq, beq_iff_eq]
  exact h.word_iff (hv.shown_pair hab hp hp').1 h.words.unquoteSplicing

/-- Completing a draft and taking the list. -/
lemma Runs.close (h : Ready W A kw kw' ρ σ) (hm : m ≤ n) (hA : ¬ A n) (hd : σ.Drafting n last last')
    (hab : σ.rel .shown a b) :
    Runs W (Evolves m A) (do Template.link ⟨n⟩ last a; HeapM.contents ⟨n⟩)
      (do Template.link ⟨n⟩ last' b; HeapM.contents ⟨n⟩) σ fun v v' τ => τ.rel .shown v v' :=
  (Runs.link_rest h.valid h.active hm hA hd hab).bind fun _ _ _ hvt _ hq => .finish hvt hm hq

/-- Copying the rest of a list onto a draft. -/
lemma Runs.copySpine (hn : Nests W A kw kw' ρ nested nested') (hc : Copies W A kw kw' ρ copy copy')
    (hb : W.same → k = k') (h : Ready W A kw kw' ρ σ) (hs : σ.Sees A a b) (hm : m ≤ n) (hA : ¬ A n)
    (hd : σ.Drafting n last last') (level : Nat) :
    Runs W (Evolves m A) (Template.copySpine kw nested copy ⟨n⟩ level k last a)
      (Template.copySpine kw' nested' copy' ⟨n⟩ level k' last' b) σ
      fun v v' τ => τ.rel .shown v v' := by
  induction k generalizing k' σ a b last last' with
  | zero =>
    exact .spent (y := (Template.copySpine kw' nested' copy' ⟨n⟩ level · last' b)) hb rfl rfl
  | succ k ih =>
    refine .spend (y := (Template.copySpine kw' nested' copy' ⟨n⟩ level · last' b)) hb rfl
      fun l hb => ?_
    have hv := h.valid
    refine .asPair hv hs.1 (fun x c x' c' hp hp' => ?_) fun _ => .close h hm hA hd hs.1
    obtain ⟨hx, hcc⟩ := hs.pair hv hp hp'
    have hmn : m ≤ n + 1 := Nat.le_succ_of_le hm
    refine .ite (h.isQuotation hx.1) (fun _ => ?_) fun _ => ?_
    · -- the rest of the list is a quotation itself
      refine (Runs.copyQuotation hn hc h hs hd.lt level).bind_evolves hmn (fun _ h => h)
        fun v v' τ hvt he hq => ?_
      exact .close (h.lasts he.1 hvt) hm hA (hd.lasts he.1 hvt (Nat.lt_succ_self n)) hq
    refine .bind_keeps (.isSplice h hx.1 level) ?_
    rintro t _ _ _ - ⟨rfl, rfl, ht⟩
    refine .ite Iff.rfl (fun hsplice => ?_) fun _ => ?_
    · obtain ⟨tag, operands, htag⟩ := ht hsplice
      obtain ⟨tag', operands', htag', -⟩ := hv.pairAt_right hx.1 htag
      refine .look (cdr_apply htag) (cdr_apply htag') ?_
      refine .items hv (follows_sees hv A) (hx.pair hv htag htag').2 (fun vs vs' hvs => ?_)
        (.raise hv _ _)
      rcases hvs with _ | ⟨h1, _ | _⟩
      · exact .raise hv _ _
      · refine (hn h h1 hd.lt).bind_evolves hmn (fun _ h => h) fun v v' τ hvt he hq => ?_
        have hτ := h.lasts he.1 hvt
        refine (Runs.splice hτ hm hA (hd.lasts he.1 hvt (Nat.lt_succ_self n)) hq).bind
          fun last last' υ hvu hu hq => ?_
        exact ih hb (hτ.lasts hu.1 hvu) (hu.sees (he.sees hcc)) hq
      · exact .raise hv _ _
    · refine (hc level h hx hd.lt).bind_evolves hmn (fun _ h => h) fun v v' τ hvt he hq => ?_
      have hτ := h.lasts he.1 hvt
      refine (Runs.push hvt hτ.active hm hA (hd.lasts he.1 hvt (Nat.lt_succ_self n)) hq).bind
        fun cell cell' υ hvu hu hq => ?_
      exact ih hb (hτ.lasts hu.1 hvu) (hu.sees (he.sees hcc)) hq

/-- Copying templates. -/
lemma copies_copy (hn : Nests W A kw kw' ρ nested nested') (hb : W.same → k = k') :
    Copies W A kw kw' ρ (Template.copy kw nested k) (Template.copy kw' nested' k') := by
  induction k generalizing k' with
  | zero => exact fun level _ _ _ => .spent (y := (Template.copy kw' nested' · _ level)) hb rfl rfl
  | succ k ih =>
    intro σ t t' m level h hs hm
    refine .spend (y := (Template.copy kw' nested' · t' level)) hb rfl fun l hb => ?_
    have hv := h.valid
    refine .asPair hv hs.1 (fun x c x' c' hp hp' => ?_) fun _ => .pure hv hs.1
    refine .ite (h.isQuotation (hs.pair hv hp hp').1.1)
      (fun _ => .copyQuotation hn (ih hb) h hs hm level) fun _ => ?_
    have hnil : σ.rel .shown Handle.emptyList .emptyList := (hv.sentinel (by decide)).1
    have h1 := h.push hnil (by simp)
    have hd : (σ.push .emptyList .emptyList).Drafting σ.left.roots.size none none := at_push hv hnil
    refine .rooted_evolves hv hm h.lt ?_
    exact .copySpine hn (ih hb) hb h1 (hs.push h.active _ _) hm (fun hA => lt_irrefl _ (h.lt _ hA))
      hd level

end Twin

end ArenaScheme
