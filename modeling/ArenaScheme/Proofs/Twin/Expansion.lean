/-
# Expanding `let` in step

An expansion only makes objects, so it keeps all that can be reached.  What it is given can be
reached from the form that is expanded, and what it has made so far is held in slots.
-/
import ArenaScheme.Let
import ArenaScheme.Proofs.Twin.Application

namespace ArenaScheme

namespace Twin

open Heap HeapM

variable {W : Regime} {ρ σ τ : Twin} {r : Role} {a b v v' : Handle} {A : Nat → Prop}
  {kw kw' : Keywords} {bindings bindings' body body' name name' : Handle}

lemma Holds.push (h : σ.Holds r a b) (v v' : Handle) : (σ.push v v').Holds r a b :=
  ⟨h.1, reachable_push h.2 v v'⟩

lemma holds_push (hr : σ.rel r v v') : (σ.push v v').Holds r v v' := ⟨hr, reachable_of_push v v'⟩

/-- Taking a binding apart. -/
lemma Runs.splitBinding (hv : σ.Valid W) (complaint : String) (hs : σ.Holds .shown a b) :
    Runs W Keeps (Let.splitBinding complaint a) (Let.splitBinding complaint b) σ fun p p' τ =>
      τ = σ ∧ σ.Holds .shown p.1 p'.1 ∧ σ.Holds .shown p.2 p'.2 := by
  refine .items hv (follows_shown hv fun hu hp => ⟨hu.car hp, hu.cdr hp⟩) hs (fun vs vs' hvs => ?_)
    (.raise hv _ _)
  rcases hvs with _ | ⟨h1, _ | ⟨h2, _ | _⟩⟩
  · exact .raise hv _ _
  · exact .raise hv _ _
  · exact .hasType hv h1.1 .symbol (fun _ => .pure hv ⟨rfl, h1, h2⟩) fun _ => .raise hv _ _
  · exact .raise hv _ _

/-- Taking all bindings apart. -/
lemma Runs.splitBindings (hv : σ.Valid W) (complaint : String) (hs : σ.Holds .shown a b) :
    Runs W Keeps (Let.splitBindings complaint a) (Let.splitBindings complaint b) σ fun p p' τ =>
      τ.rel .shown p.1 p'.1 ∧ τ.rel .shown p.2 p'.2 := by
  refine .items hv (follows_shown hv fun hu hp => ⟨hu.car hp, hu.cdr hp⟩) hs (fun vs vs' hvs => ?_)
    (.raise hv _ _)
  refine (Runs.mapM hv hvs fun v v' => Runs.splitBinding hv complaint).bind ?_
  rintro parts parts' υ _ - ⟨rfl, -, hparts⟩
  have hnames : List.Forall₂ (υ.Holds .shown) (parts.map Prod.fst) (parts'.map Prod.fst) :=
    List.forall₂_map_left_iff.mpr (List.forall₂_map_right_iff.mpr (hparts.imp fun _ _ h => h.1))
  have hvalues : List.Forall₂ (υ.Holds .shown) (parts.map Prod.snd) (parts'.map Prod.snd) :=
    List.forall₂_map_left_iff.mpr (List.forall₂_map_right_iff.mpr (hparts.imp fun _ _ h => h.2))
  refine (Runs.list hv (.inl rfl) (hnames.imp fun _ _ h => h.1)).bind fun ns ns' τ hvt hk hns => ?_
  have hn := hns.shown hvt
  refine .rooted_keeps hvt ((Runs.list (hvt.push hn (by simp)) (.inl rfl)
    (hvalues.imp fun _ _ h => (hk.holds h).1)).bind fun vs vs' ω hvw hkw hvs => .pure hvw ?_)
  exact ⟨(hkw.holds (holds_push hn)).1, hvs.pop.shown hvw.pop⟩

/-- Expanding a plain `let`. -/
lemma Runs.expandPlain (h : Ready W A kw kw' ρ σ) (hs : σ.Holds .shown bindings bindings')
    (hb : σ.Holds .shown body body') :
    Runs W Keeps (Let.expandPlain kw bindings body) (Let.expandPlain kw' bindings' body') σ
      fun v v' τ => τ.rel .shown v v' := by
  have hv := h.valid
  refine .hasType hv hb.1 .pair (fun _ => ?_) fun _ => .raise hv _ _
  refine (Runs.splitBindings hv _ hs).bind ?_
  rintro ⟨names, initials⟩ ⟨names', initials'⟩ τ hvt hk ⟨hn, hi⟩
  have h1 := h.keeps hk hvt
  have h2 := h1.push hn (by simp)
  have h3 := h2.push hi (by simp)
  refine .rooted_keeps hvt (.rooted_keeps h2.valid ?_)
  have hi3 : ((τ.push names names').push initials initials').Holds .shown initials initials' :=
    holds_push hi
  refine (Runs.cons h3.valid hn (hk.holds hb).1).bind fun rest rest' υ hvu hku hrest => ?_
  have h4 := h3.keeps hku hvu
  refine (Runs.cons hvu h4.words.lambda.1 hrest).bind fun l l' ω hvw hkw hl => ?_
  exact (Runs.cons hvw hl (hkw.holds (hku.holds hi3)).1).post fun _ _ _ _ _ h => h

/-- Expanding a named `let`. -/
lemma Runs.expandNamed (h : Ready W A kw kw' ρ σ) (hn : σ.Holds .shown name name')
    (hs : σ.Holds .shown a b) :
    Runs W Keeps (Let.expandNamed kw name a) (Let.expandNamed kw' name' b) σ
      fun v v' τ => τ.rel .shown v v' := by
  have hv := h.valid
  refine .asPair hv hs.1 (fun bindings body bindings' body' hp hp' => ?_) fun _ => .raise hv _ _
  obtain ⟨hbs, hb⟩ := hs.pair hv hp hp'
  refine .hasType hv hb.1 .pair (fun _ => ?_) fun _ => .raise hv _ _
  refine (Runs.splitBindings hv _ hbs).bind ?_
  rintro ⟨names, initials⟩ ⟨names', initials'⟩ τ hvt hk ⟨hns, hi⟩
  have h1 := h.keeps hk hvt
  have h2 := h1.push hns (by simp)
  have h3 := h2.push hi (by simp)
  refine .rooted_keeps hvt (.rooted_keeps h2.valid ?_)
  set υ := (τ.push names names').push initials initials' with hυ
  have hnsυ : υ.Holds .shown names names' := (holds_push hns).push _ _
  have hnυ : υ.Holds .shown name name' := ((hk.holds hn).push _ _).push _ _
  have hbυ : υ.Holds .shown body body' := ((hk.holds hb).push _ _).push _ _
  -- the call of the procedure with the initial values
  refine (Runs.cons h3.valid hnυ.1 hi).bind fun call call' ω hvw hkw hcall => ?_
  have h4 := h3.keeps hkw hvw
  have h5 := h4.push hcall (by simp)
  refine .rooted_keeps hvw ?_
  have hcall5 : (ω.push call call').Holds .shown call call' := holds_push hcall
  have hn5 : (ω.push call call').Holds .shown name name' := (hkw.holds hnυ).push _ _
  -- the procedure and its definition
  refine (Runs.cons h5.valid (hkw.holds hnsυ).1 (hkw.holds hbυ).1).bind
    fun rest rest' ω₁ hv1 hk1 hrest => ?_
  have h6 := h5.keeps hk1 hv1
  refine (Runs.cons hv1 h6.words.lambda.1 hrest).bind fun inner inner' ω₂ hv2 hk2 hinner => ?_
  have h7 := h6.keeps hk2 hv2
  have hk12 := hk1.trans hk2
  refine (Runs.list hv2 (.inl rfl) (.cons h7.words.definition.1 (.cons (hk12.holds hn5).1
    (.cons hinner .nil)))).bind fun d d' ω₃ hv3 hk3 hd => ?_
  have h8 := h7.keeps hk3 hv3
  -- the expansion is a call without arguments
  refine (Runs.list hv3 (.inl rfl) (.cons h8.words.lambda.1
    (.cons (hv3.sentinel (v := .emptyList) (by decide)).1 (.cons (hd.shown hv3)
    (.cons ((hk12.trans hk3).holds hcall5).1 .nil))))).bind fun o o' ω₄ hv4 hk4 ho => ?_
  exact (Runs.list hv4 (.inl rfl) (.cons (ho.shown hv4) .nil)).post fun _ _ _ hv5 _ h =>
    h.pop.pop.pop.shown hv5.pop.pop.pop

/-- Expanding a `let` form. -/
lemma Runs.expand (h : Ready W A kw kw' ρ σ) (hs : σ.Holds .shown a b) :
    Runs W Keeps (Let.expand kw a) (Let.expand kw' b) σ fun v v' τ => τ.rel .shown v v' := by
  have hv := h.valid
  refine .asPair hv hs.1 (fun x c x' c' hp hp' => ?_) fun _ => .raise hv _ _
  obtain ⟨hx, hc⟩ := hs.pair hv hp hp'
  exact .hasType hv hx.1 .symbol (fun _ => .expandNamed h hx hc) fun _ => .expandPlain h hx hc

end Twin

end ArenaScheme
