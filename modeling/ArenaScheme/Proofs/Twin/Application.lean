/-
# Application in step

The values of a combination are collected in a draft.  When the combination is applied, that draft
gets another role, and which one depends on the parameters.  If the arguments become the values of a
frame as they are, their list becomes a list of that frame.  If they are gathered in a list for the
program, it is shown to it.
-/
import ArenaScheme.Eval.Application
import ArenaScheme.Proofs.Twin.Templates

namespace ArenaScheme

namespace Twin

open Heap HeapM Application

variable {W : Regime} {ρ σ τ : Twin} {r : Role} {a b v v' last last' args args' : Handle}
  {params params' : Handle} {i k k' m n : Nat} {A B : Nat → Prop} {kw kw' : Keywords}
  {nested nested' : Nested} {host host' : Array HostProcedure}

/-! ## Combinations -/

/-- Taking a new pair for a list and linking it is extending the list. -/
lemma cons_setCdr_eq_push {β : Type} (out : Root) (last v : Handle) (f : Handle → EvalM β) :
    (do
      let cell ← cons v .emptyList
      setCdr last cell
      f cell) = Template.push out (some last) v >>= f := by
  simp only [Template.push, Template.link, bind_assoc, pure_bind]

/-- Evaluating operands and appending their values to a draft. -/
lemma Runs.evalOperands (hn : Nests W A kw kw' ρ nested nested') (hb : W.same → k = k')
    (h : Ready W A kw kw' ρ σ) (hs : σ.Sees A a b) (hm : m ≤ n) (hA : ¬ A n)
    (hd : σ.Drafting n (some last) (some last')) :
    Runs W (Evolves m A) (evalOperands nested k last a) (evalOperands nested' k' last' b) σ
      fun _ _ τ => ∃ l l', τ.Drafting n (some l) (some l') := by
  induction k generalizing k' σ a b last last' with
  | zero => exact .spent (y := (Application.evalOperands nested' · last' b)) hb rfl rfl
  | succ k ih =>
    refine .spend (y := (Application.evalOperands nested' · last' b)) hb rfl fun l hb => ?_
    have hv := h.valid
    refine .asPair hv hs.1 (fun x c x' c' hp hp' => ?_) fun _ => ?_
    · obtain ⟨hx, hcc⟩ := hs.pair hv hp hp'
      refine (hn h hx hd.lt).bind_evolves (Nat.le_succ_of_le hm) (fun _ h => h)
        fun v v' τ hvt he hq => ?_
      have hτ := h.lasts he.1 hvt
      rw [cons_setCdr_eq_push ⟨n⟩, cons_setCdr_eq_push ⟨n⟩]
      refine (Runs.push hvt hτ.active hm hA (hd.lasts he.1 hvt (Nat.lt_succ_self n)) hq).bind
        fun cell cell' υ hvu hu hq => ?_
      exact ih hb (hτ.lasts hu.1 hvu) (hu.sees (he.sees hcc)) hq
    · exact .ite (hv.eq_sentinel_iff hs.1 (by decide)) (fun _ => .pure hv ⟨_, _, hd⟩)
        fun _ => .raise hv _ _

/-- Evaluating a combination: the list of the values is a draft in the slot that is free next. -/
lemma Runs.evalCombination (hn : Nests W A kw kw' ρ nested nested') (hb : W.same → k = k')
    (h : Ready W A kw kw' ρ σ) (ho : σ.Sees A v v') (hs : σ.Sees A a b)
    (hm : m ≤ σ.left.roots.size) :
    Runs W (Evolves m A) (evalCombination nested k v a) (evalCombination nested' k' v' b) σ
      fun l l' τ => ∃ j, τ.Spine (.draft τ.left.roots.size) (j + 1) l l' := by
  refine (hn h ho hm).bind fun x x' τ hvt he hq => ?_
  have hτ := h.lasts he.1 hvt
  refine .bind_keeps (.draft_cell hvt τ.left.roots.size hq) fun c c' υ hvu hk hc => ?_
  have hυ := hτ.keeps hk hvu
  have hroots : υ.left.roots.size = τ.left.roots.size := by rw [hk.roots]
  rw [← hroots] at hc
  have hj : ∀ j, Role.draft υ.left.roots.size = .draft j → j ≤ υ.left.roots.size := by
    rintro _ ⟨⟩
    exact le_rfl
  have hp := hυ.push hc.rel hj
  have hd : (υ.push c c').Drafting υ.left.roots.size (some c) (some c') := by
    refine ⟨0, c, c', Array.getElem?_push_size, hvu.depth ▸ Array.getElem?_push_size, ?_⟩
    cases hc.chain hvu hq with
    | last h1 h2 h3 h4 => exact .last h1 h2 h3 h4
  have hmu : m ≤ υ.left.roots.size := by
    rw [hroots, he.depth]
    exact hm
  refine .rooted_evolves hvu hmu hυ.lt ?_
  refine (Runs.evalOperands hn hb hp ((hk.lasts m A).sees (he.sees hs) |>.push hυ.active c c') hmu
    (fun hA => lt_irrefl _ (hυ.lt _ hA)) hd).bind fun _ _ ω hvw hw hq => ?_
  obtain ⟨l, l', j, u, u', h1, h2, hchain⟩ := hq
  refine .ok (contents_apply h1) (contents_apply h2) hvw (Motion.refl _ ω) ⟨j, ?_⟩
  have hs : ω.pop.left.roots.size = υ.left.roots.size := by
    change ω.left.roots.pop.size = _
    rw [Array.size_pop, hw.depth]
    change (υ.left.roots.push c).size - 1 = _
    rw [Array.size_push, Nat.add_sub_cancel]
  rw [hs]
  exact hchain.spine.pop

/-! ## Parameters -/

lemma Holds.pair (hv : σ.Valid W) (hab : σ.Holds .shown a b) {x c x' c' : Handle}
    (hp : σ.left.pairAt a = some (x, c)) (hp' : σ.right.pairAt b = some (x', c')) :
    σ.Holds .shown x x' ∧ σ.Holds .shown c c' :=
  have h := hv.shown_pair hab.1 hp hp'
  ⟨⟨h.1, hab.2.car hp⟩, ⟨h.2, hab.2.cdr hp⟩⟩

/-- The first elements of corresponding lists, as many as asked for, and what is left of them. -/
lemma Runs.splitArguments (hv : σ.Valid W) (ha : σ.Holds .shown args args') {vs cells : List Handle}
    (hrow : σ.left.Row .emptyList vs cells args) (hi : i ≤ vs.length) :
    Runs W Keeps (splitArguments i args) (splitArguments i args') σ fun p p' τ =>
      τ = σ ∧ p.1.length = i ∧ List.Forall₂ (σ.Holds .shown) p.1 p'.1 ∧
      σ.Holds .shown p.2 p'.2 := by
  induction i generalizing args args' vs cells with
  | zero => exact .pure hv ⟨rfl, rfl, .nil, ha⟩
  | succ i ih =>
    cases hrow with
    | nil => simp at hi
    | cons hd hrow =>
      have hp := pairAt_eq_some.mpr hd
      refine .asPair hv ha.1 (fun x c x' c' hq hq' => ?_) fun hn =>
        absurd (hp.symm.trans hn) (by simp)
      obtain ⟨rfl, rfl⟩ := Prod.mk.inj (Option.some.inj (hp.symm.trans hq))
      obtain ⟨hx, hc⟩ := ha.pair hv hq hq'
      refine (ih hc hrow (by simpa using hi)).bind ?_
      rintro ⟨xs, c⟩ ⟨xs', c'⟩ _ _ - ⟨rfl, hlen, hxs, hc⟩
      exact .pure hv ⟨rfl, congrArg (· + 1) hlen, .cons hx hxs, hc⟩

/-- New lists of names and values for a frame. -/
lemma Runs.pairUp (hv : σ.Valid W) {names names' values values' : List Handle}
    (hn : List.Forall₂ (σ.Holds .shown) names names')
    (hx : List.Forall₂ (σ.Holds .shown) values values') (hlen : values.length = names.length)
    (hsym : ¬ W.rewriting → ∀ v ∈ names, ∃ s, σ.left.object? v = some (.symbol s)) :
    Runs W Keeps (pairUp names values) (pairUp names' values') σ fun p p' τ =>
      τ.Bindings W names p.1 p'.1 p.2 p'.2 := by
  have hreach : ∀ v ∈ names, σ.left.Reachable [] v := fun v hm => by
    obtain ⟨i, hi, rfl⟩ := List.mem_iff_getElem.mp hm
    exact ((List.forall₂_iff_get.mp hn).2 i hi (hn.length_eq ▸ hi)).2
  refine (Runs.list_row hv (.inl rfl) (hn.imp fun _ _ h => h.1)).bind ?_
  rintro ns ns' τ hvt hk ⟨hns, cells, hrow⟩
  have hshown := hns.shown hvt
  have hslot := reachable_of_push (σ := τ) ns ns'
  refine .rooted_keeps hvt ((Runs.list (hvt.push hshown (by simp)) (.inr rfl)
    (hx.imp fun _ _ h => (hk.holds h).1)).bind fun vs vs' υ hvu hku hvs => .pure hvu ?_)
  refine .made (hku.rel hslot hshown) (fun hw => ⟨⟨cells, ?_⟩, fun v hm => ?_, .inl rfl⟩)
    (hlen ▸ hvs.pop)
  · exact (hku.row hslot (hrow.congr fun _ _ => rfl)).congr fun _ _ => rfl
  · obtain ⟨s, hd⟩ := hsym hw v hm
    exact ⟨s, (hku.object (reachable_push (hk.reachable (hreach v hm)) ns ns')).trans
      ((hk.object (hreach v hm)).trans hd)⟩

lemma Spine.settle (hs : σ.Spine (.draft n) k v v') : (σ.settle n r).Spine r k v v' := by
  induction k generalizing v v' with
  | zero => exact hs
  | succ k ih =>
    obtain ⟨hr, x, c, x', c', hl, hl', hx, hs⟩ := hs
    exact ⟨settle_draft hr, x, c, x', c', hl, hl', settle_of_ne (by simp) hx, ih hs⟩

/-- Binding parameters to the arguments that a draft holds. -/
lemma Runs.bindParameters (hv : σ.Valid W) (hp : σ.Holds .shown params params')
    (hl : ¬ W.rewriting → ∃ l last, σ.left.Specifies params l last)
    (hs : σ.Spine (.draft n) k args args') (ha : σ.left.Reachable [] args) (hm : m ≤ n) :
    Runs W (Evolves m A) (bindParameters params args) (bindParameters params' args') σ
      fun p p' τ => (∃ l, τ.Bindings W l p.1 p'.1 p.2 p'.2) ∧ ∃ r, Keeps (σ.settle n r) τ := by
  have hsent : σ.left.HasSentinels := fun _ hi => (hv.sentinel hi).2.1
  obtain ⟨vs, cells, hlen, hrow⟩ := hs.row
  refine .length hv (follows_spine hv (.draft n) (T := fun _ => True) fun _ _ => ⟨trivial, trivial⟩)
    ⟨⟨k, hs⟩, trivial⟩ fun given hgiven => ?_
  obtain rfl := Except.ok.inj (hgiven.symm.trans
    (hrow.walkSpine_eq (isLive_of_object? hsent.emptyList) hsent.pairAt_emptyList))
  refine .length hv (follows_shown hv (T := fun _ => True) fun _ _ => ⟨trivial, trivial⟩)
    ⟨hp.1, trivial⟩ fun ⟨visited, ending⟩ hwanted => ?_
  -- the walk tells the parameters
  have hspec : ¬ W.rewriting → ∃ last, σ.left.Specifies params visited last ∧ ending = some last :=
    fun hw => by
      obtain ⟨l, last, hl⟩ := hl hw
      obtain ⟨rfl, rfl⟩ := Walk.mk.inj (Except.ok.inj (hwanted.symm.trans (hl.walkSpine_eq hsent)))
      exact ⟨last, hl, rfl⟩
  simp only [Walk.items?, if_true, Option.map_some, Option.getD_some, hlen]
  by_cases hend : ending = some .emptyList
  · rw [if_pos hend, Option.map_some]
    refine .ite Iff.rfl (fun he => ?_) fun _ => .raise hv _ _
    refine .regard (τ := σ.settle n .binding) rfl rfl (evolves_settle hm _) ?_
    refine .pure (hv.settle n (.inr rfl))
      ⟨⟨visited, .made (settle_of_ne (by simp) hp.1) (fun hw => ?_)
      (he ▸ hs.settle)⟩, .binding, Keeps.refl _⟩
    obtain ⟨last, hl, he⟩ := hspec hw
    obtain rfl := Option.some.inj (he.symm.trans hend)
    exact hl
  · rw [if_neg hend, Option.map_none]
    -- from here on the arguments are shown to the program
    have hvs : (σ.settle n .shown).Valid W := hv.settle n (.inl rfl)
    have hps : (σ.settle n .shown).Holds .shown params params' :=
      ⟨settle_of_ne (by simp) hp.1, hp.2⟩
    have has : (σ.settle n .shown).Holds .shown args args' := ⟨hs.settle.shown hvs, ha⟩
    refine .regard (τ := σ.settle n .shown) rfl rfl (evolves_settle hm _) ?_
    refine .hasType hvs hps.1 .symbol (fun ht => ?_) fun _ => ?_
    · exact (Runs.pairUp hvs (.cons hps .nil) (.cons has .nil) rfl
        fun _ => List.forall_mem_singleton.mpr (type_eq_symbol.mp ht)).mono
        (fun _ _ hk => Motion.keeps hk) fun _ _ _ _ hk hq => ⟨⟨_, hq⟩, _, hk⟩
    · refine .walkSpine hvs (follows_shown hvs (T := (σ.settle n .shown).left.Reachable [])
        fun hu hp => ⟨hu.car hp, hu.cdr hp⟩) hps ?_
      rintro w ⟨visited', ending'⟩ hwalk hvisited hending
      obtain rfl := Except.ok.inj (hwalk.symm.trans hwanted)
      simp only [← hvisited.length_eq]
      refine .ite Iff.rfl (fun _ => .raise hvs _ _) fun hge => ?_
      refine .bind_keeps (.splitArguments hvs has (hrow.congr fun _ _ => rfl) (by omega)) ?_
      rintro ⟨firsts, rest⟩ ⟨firsts', rest'⟩ _ _ - ⟨rfl, hlen', hfirsts, hrest⟩
      refine (Runs.pairUp hvs (List.rel_append hvisited (.cons ?_ .nil))
        (List.rel_append hfirsts (.cons hrest .nil)) (by simp [hlen']) fun hw => ?_).mono
        (fun _ _ hk => Motion.keeps hk) fun _ _ _ _ hk hq => ⟨⟨_, hq⟩, _, hk⟩
      · cases hending with
        | none => exact ⟨(hvs.sentinel (v := .emptyList) (by decide)).1, .sentinel (by decide)⟩
        | some h => exact h
      · obtain ⟨last, hl, rfl⟩ := hspec hw
        exact List.forall_mem_append.mpr ⟨hl.symbols, List.forall_mem_singleton.mpr
          (hl.ending.resolve_left fun he => hend (congrArg some he))⟩

/-! ## Procedures -/

/-- Calling code that the program may call. -/
lemma Runs.callNative {code : Native} (hv : σ.Valid W) (hc : W.natives code)
    (hs : σ.Spine r k args args') (hj : ∀ j, r = .draft j → j ≤ σ.left.roots.size)
    (hm : m ≤ σ.left.roots.size) (hB : ∀ i, B i → i < σ.left.roots.size) :
    Runs W (Moves W m B) (callNative host code args) (callNative host' code args') σ
      fun v v' τ => τ.rel .shown v v' := by
  cases code with
  | builtin p => exact .call hv hc hm hB hs hj
  | host slot => exact absurd hc (W.host slot)

lemma over_applied {h : Heap} {P : Heap → Prop} (ho : h.object? .outOfMemory = some .exhausted)
    (hh : P h) : Outcome.Over P ((HeapM.hasType .error .outOfMemory >>= fun t =>
      if t then fail .outOfMemory else pure (Step.done .outOfMemory) : EvalM Step) h) := by
  rw [bind_of_ok (hasType_apply ho .error)]
  exact .starved rfl hh

/-- Applying a foreign procedure. -/
lemma Runs.applyForeign {code : Native} (hv : σ.Valid W) (hc : W.natives code)
    (hs : σ.Spine r k args args') (hj : ∀ j, r = .draft j → j ≤ σ.left.roots.size)
    (hm : m ≤ σ.left.roots.size) (hB : ∀ i, B i → i < σ.left.roots.size) :
    Runs W (Moves W m B) (applyForeign host code args) (applyForeign host' code args') σ
      fun s s' τ => s.Agree (τ.rel .shown) s' := by
  refine .recover (U := (· = ·)) (Runs.callNative hv hc hs hj hm hB) (fun v v' τ hvt _ hq => ?_)
    ?_ (fun τ hvt hm => over_applied (hvt.sentinel (v := .outOfMemory) (by decide)).2.1
      ⟨τ, rfl, hvt, hm⟩) fun τ hvt hm =>
        over_applied (hvt.sentinel (v := .outOfMemory) (by decide)).2.2 ⟨τ, rfl, hvt, hm⟩
  · have hr : τ.rel .shown v v' := hq.elim id fun h => h.1
    refine .hasType hvt hr .error (fun ht => ?_) fun _ => ?_
    · exact .error (τ := τ) rfl rfl hvt rfl (matched_of_typeAt hvt hr ht)
    · exact .ok (τ := τ) rfl rfl hvt rfl (.done hr)
  · rintro τ _ h rfl
    exact h

/-- Entering a closure that is at the head of the list in a slot. -/
lemma Runs.applyClosure (hv : σ.Valid W) {l p env env' body body' : Handle}
    (hl : σ.left.roots[n]? = some l) (hpair : σ.left.pairAt l = some (p, args))
    (hd : σ.left.object? p = some (.closure env params body)) (he : σ.rel .shown env env')
    (hsc : σ.left.Scope env) (hp : σ.rel .shown params params')
    (hspec : ¬ W.rewriting → ∃ l last, σ.left.Specifies params l last)
    (hb : σ.rel .shown body body') (hs : σ.Spine (.draft n) k args args') (hm : m ≤ n)
    (hB : ∀ i, B i → i < σ.left.roots.size) :
    Runs W (Evolves m B) (applyClosure env params body args) (applyClosure env' params' body' args')
      σ fun s s' τ => s.Agree (τ.rel .shown) s' := by
  have hn : n < σ.left.roots.size := (Array.getElem?_eq_some_iff.mp hl).1
  have hlr : σ.left.Reachable [] l := .of_slot hl
  have hpr : σ.left.Reachable [] p := hlr.car hpair
  have her : σ.left.Reachable [] env := .child hpr hd (by simp [Datum.children])
  have hbr : σ.left.Reachable [] body := .child hpr hd (by simp [Datum.children])
  obtain ⟨q, ns, vs, hframe⟩ := hsc.frame
  have hparams : σ.left.Reachable [] params := .child hpr hd (by simp [Datum.children])
  refine (Runs.bindParameters hv ⟨hp, hparams⟩ hspec hs (hlr.cdr hpair) hm).bind ?_
  rintro ⟨names, values⟩ ⟨names', values'⟩ τ hvt - ⟨⟨j, hbind⟩, r, hk⟩
  -- the frame and the body of the closure are there as before
  have heτ : τ.rel .shown env env' := hk.rel her (settle_of_ne (by simp) he)
  have hbτ : τ.rel .shown body body' := hk.rel hbr (settle_of_ne (by simp) hb)
  have hsτ : τ.left.Scope env := hvt.scope_of_frame heτ ((hk.object her).trans hframe)
  have hlτ : τ.left.roots[n]? = some l := (congrArg (·[n]?) hk.roots).trans hl
  have hroots : τ.left.roots.size = σ.left.roots.size := congrArg Array.size hk.roots
  obtain ⟨⟨t, hnames, htj⟩, s, hvalues, hsj⟩ := hbind.role hvt
  have hv1 := hvt.push (r := t) hnames fun j hj => absurd hj (htj j)
  have hs1 : (τ.push names names').left.roots.size = τ.left.roots.size + 1 := Array.size_push _
  have hv2 := hv1.push (r := s) hvalues fun j hj => absurd hj (hsj j)
  have hmτ : m ≤ τ.left.roots.size := by omega
  refine .bind (Q := fun _ _ τ => τ.rel .shown body body') ?_ fun _ _ _ hvu _ hq =>
    .pure hvu (.body hq)
  refine .rooted_evolves hvt hmτ (hroots ▸ hB) ?_
  refine .rooted_evolves hv1 (by omega) (fun i hi => by have := hB i hi; omega) ?_
  set υ := (τ.push names names').push values values' with hυ
  refine (Runs.setCurrentEnv hv2 heτ
    (hv2.scope_of_frame heτ ((hk.object her).trans hframe))).bind ?_
  rintro _ _ _ hvs - rfl
  -- the body can still be reached from the list of the call
  have hslot : (υ.switch env env').left.roots[n]? = some l :=
    (getElem?_push_of_lt (by omega) values).trans
      ((getElem?_push_of_lt (by omega) names).trans hlτ)
  have hbody : (υ.switch env env').left.Reachable [] body :=
    .child (.car (.of_slot hslot) ((hk.pairAt hlr).trans hpair)) ((hk.object hpr).trans hd)
      (by simp [Datum.children])
  have hc : Carries W τ (υ.switch env env') fun _ _ => True :=
    carries_of_objects (fun _ => rfl) (fun _ => rfl) fun _ h => h
  exact (Runs.pushFrame hvs (hbind.carry hvt hc trivial trivial)).bind fun _ _ ω hvw _ hq =>
    .pure hvw (hq ⟨hbτ, hbody⟩)

/-- Applying the head of the list in a slot to its tail. -/
lemma Runs.apply (hv : σ.Valid W) {l p p' : Handle} (hl : σ.left.roots[n]? = some l)
    (hpair : σ.left.pairAt l = some (p, args)) (hp : σ.rel .shown p p')
    (hs : σ.Spine (.draft n) k args args') (hm : m ≤ n) (hB : ∀ i, B i → i < σ.left.roots.size) :
    Runs W (Moves W m B) (Application.apply host p args) (Application.apply host' p' args') σ
      fun s s' τ => s.Agree (τ.rel .shown) s' := by
  have hn : n < σ.left.roots.size := (Array.getElem?_eq_some_iff.mp hl).1
  have hkeeps : ∀ τ, Keeps σ τ → Moves W m B σ τ := fun _ h => .inl (Motion.keeps h)
  refine .datum hv hp fun d d' hd hd' hf => ?_
  cases hf with
  | atom _ hch _ hc =>
    cases d with
    | closure => simp [Datum.children] at hch
    | foreign name code =>
      refine .applyForeign hv (hc name code rfl) hs ?_ (by omega) hB
      rintro _ ⟨⟩
      exact hn.le
    | _ => exact (Runs.raise hv _ _).motion hkeeps
  | closure he hsc hpr hspec hb =>
    exact (Runs.applyClosure hv hl hpair hd he hsc hpr hspec hb hs hm hB).motion fun _ => .inl
  | _ => exact (Runs.raise hv _ _).motion hkeeps

lemma Spine.push (hs : σ.Spine r k a b) : (σ.push v v').Spine r k a b := by
  induction k generalizing a b with
  | zero => exact hs
  | succ k ih =>
    obtain ⟨hr, x, c, x', c', hl, hl', hx, hs⟩ := hs
    exact ⟨hr, x, c, x', c', hl, hl', hx, ih hs⟩

/-- Evaluating and applying a combination. -/
lemma Runs.ofCombination (hn : Nests W A kw kw' ρ nested nested') (hb : W.same → k = k')
    (h : Ready W A kw kw' ρ σ) (ho : σ.Sees A v v') (hs : σ.Sees A a b)
    (hm : m ≤ σ.left.roots.size) (hB : ∀ i, B i → A i) :
    Runs W (Moves W m B) (ofCombination host nested k v a) (ofCombination host' nested' k' v' b) σ
      fun s s' τ => s.Agree (τ.rel .shown) s' := by
  refine ((Runs.evalCombination hn hb h ho hs hm).motion fun τ he =>
    he.mono le_rfl hB).chain (U := Moves W m B) (fun _ => .inl) (fun l l' τ hvt he hq => ?_)
    fun _ _ => Evolves.moves
  obtain ⟨j, hr, x, c, x', c', hl, hl', hx, hcc⟩ := hq
  have hlt : ∀ i, B i → i < τ.left.roots.size := fun i hi => he.depth ▸ h.lt i (hB i hi)
  have hmτ : m ≤ τ.left.roots.size := he.depth ▸ hm
  have hj : ∀ j, Role.draft τ.left.roots.size = .draft j → j ≤ τ.left.roots.size := by
    rintro _ ⟨⟩
    exact le_rfl
  have hvp := hvt.push hr hj
  have hs1 : (τ.push l l').left.roots.size = τ.left.roots.size + 1 := Array.size_push _
  refine .rooted hvt ?_ fun υ hvu => Moves.of_push hvt hvu hmτ hlt
  refine .look (pairParts_apply hl) (pairParts_apply hl') ?_
  have hcp : (τ.push l l').Spine (.draft τ.left.roots.size) j c c' := hcc.push
  exact .apply hvp Array.getElem?_push_size hl hx hcp hmτ fun i hi => by
    have := hlt i hi
    omega

end Twin

end ArenaScheme
