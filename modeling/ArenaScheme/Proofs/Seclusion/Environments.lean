/-
# Safe work on lists and environments

A new list may be kept as a draft or given away, as a new pair may.  Names are looked up, assigned
and defined by way of the bindings themselves, but what is given away is only what they are bound
to; and a definition makes a draft the first binding of its frame.
-/
import ArenaScheme.Let
import ArenaScheme.Proofs.Seclusion.Objects
import ArenaScheme.Proofs.Walks

namespace ArenaScheme

open Heap HeapM

variable {ε α : Type} {R : Prop} {V W : Veil} {h k : Heap} {a b c f u v : Handle}

/-! ## Lists -/

/-- There is a new proper list whose pairs are drafts. -/
def Veil.Drafted (V : Veil) (h : Heap) (v : Handle) (k : Heap) : Prop :=
  ∃ l, Advance V V h (V.draft l) k ∧ V.Drafts l k v

namespace Safe

variable [Exhibit ε] [Exhibit α]

lemma foldrM_cons_draft (hs : V.Seals h) {vs : List Handle} (hvs : ∀ v ∈ vs, V.Shows h v) :
    ((vs.foldrM HeapM.cons .emptyList) h).Ends R (V.Drafted h)
      fun e k => V.Keeps h k ∧ V.Shows k e := by
  induction vs with
  | nil => exact ⟨[], by rw [Veil.draft_nil]; exact .refl hs, fun _ => rfl, by simp⟩
  | cons v vs ih =>
    rw [List.foldrM_cons]
    refine ends_bind (ih fun u hu => hvs u (List.mem_cons_of_mem v hu)) ?_
    rintro r k ⟨l, hk, hl⟩
    refine (cons_draft hk.seals (hk.shows (hvs v List.mem_cons_self)) (hl.live hk.seals)).mono
      (fun c m hc => ?_) fun e m he => ?_
    · obtain ⟨hm, hr⟩ := hc
      refine ⟨c :: l, ?_, fun hu => ?_, fun hu x hx => ?_⟩
      · rw [← Veil.draft_cons]
        exact hk.trans (hm.mono (V.le_draft l))
      · obtain ⟨hn, hrw⟩ := hr hu
        exact ⟨rfl, v, r, hrw.self, (hl.spine (hm.unswept hu)).fresh hn hrw⟩
      · rcases List.mem_cons.mp hx with rfl | hx
        · exact fun hV => (hk.seals (hm.unswept hu)).not_draft (hr hu).1 ((V.le_draft l).1 hV)
        · exact hl.fresh (hm.unswept hu) x hx
    · have hm : Advance V (V.draft l) k V m :=
        (he.1.mono (V.le_draft l)).trans (.publish he.1.seals)
      exact ⟨hk.trans hm, fun hu => (he.2 hu).mono (V.le_draft l).1⟩

/-- A new list as a draft. -/
lemma list_draft (hs : V.Seals h) {vs : List Handle} (hvs : ∀ v ∈ vs, V.Shows h v) :
    ((HeapM.list vs) h).Ends R (V.Drafted h) fun e k => V.Keeps h k ∧ V.Shows k e := by
  suffices hall : ∀ (us : List Handle) (h : Heap), V.Seals h → (∀ v ∈ us, V.Shows h v) →
      (∀ v ∈ vs, V.Shows h v) → ((HeapM.rootedAll us (vs.foldrM HeapM.cons .emptyList)) h).Ends R
        (V.Drafted h) fun e k => V.Keeps h k ∧ V.Shows k e from hall vs h hs hvs hvs
  intro us
  induction us with
  | nil => exact fun h hs _ hvs => foldrM_cons_draft hs hvs
  | cons u us ih =>
    intro h hs hus hvs
    have hpush : V.Keeps h { h with roots := h.roots.push u } :=
      .push hs (hus u List.mem_cons_self)
    refine ends_rooted (ih _ hpush.seals
      (fun v hv => hpush.shows (hus v (List.mem_cons_of_mem u hv)))
      fun v hv => hpush.shows (hvs v hv)) (fun v k hv hsize => ?_) fun e k he hsize => ?_
    · obtain ⟨l, hk, hl⟩ := hv
      have hk : Advance V V h (V.draft l) k := hpush.trans hk
      have hp : Advance (V.draft l) (V.draft l) k (V.draft l)
          { k with roots := k.roots.pop } :=
        .pop_back hs hk.seals hk.unswept rfl rfl (.inl rfl) subset_rfl hsize
      exact ⟨l, hk.trans (hp.mono (V.le_draft l)), hl.advance hp⟩
    · have hk := hpush.trans he.1
      have hp : V.Keeps k { k with roots := k.roots.pop } :=
        .pop_back hs hk.seals hk.unswept rfl rfl (.inl rfl) subset_rfl hsize
      exact ⟨hk.trans hp, hp.shows he.2⟩

/-- A new list that is given away. -/
lemma list (hs : V.Seals h) {vs : List Handle} (hvs : ∀ v ∈ vs, V.Shows h v) :
    ((list vs) h).Safe R V h := by
  refine (list_draft hs hvs).mono (fun v k hv => ?_) fun _ _ => id
  obtain ⟨l, hk, hl⟩ := hv
  exact ⟨hk.trans (.publish hk.seals), hl.shows hk.seals⟩

/-- A copy of a list in front of an open object. -/
lemma append (hs : V.Seals h) {front back : Handle} (hb : V.Shows h back) :
    ((append front back) h).Safe R V h := by
  refine ends_ite (fun _ => pure hs hb) fun _ => ends_items hs fun vs hvs => ?_
  cases vs with
  | none => exact raise hs _ _
  | some vs =>
    have hvs : ∀ v ∈ vs, V.Shows h v := hvs vs rfl
    refine holding hs front fun n k hk _ => rooted hk.seals (hk.shows hb) fun result l hl hr => ?_
    refine bind (forM hl.seals fun v hv m hm => ?_) fun _ m hm _ => contents hm.seals (hm.bares hr)
    refine bind (contents hm.seals (hm.bares hr)) fun r m' hm' hr' => ?_
    have hvm : (V.hide n).Shows m' v := (hm.trans hm').shows
      (hl.shows (hk.shows (hvs v (List.mem_reverse.mp hv))))
    refine bind (cons hm'.seals hvm hr') fun c m'' hm'' hc => store hm''.seals ?_ hc
    exact hm''.bares (hm'.bares (hm.bares hr))

end Safe

/-! ## Finding bindings -/

namespace Heap

/-- What is found in two lists is a pair of the second. -/
lemma mem_of_slotIn (hn : h.object? .emptyList = some .emptyList) {symbol slot : Handle} (n : Nat)
    {l : List Handle} {names values : Handle} (hl : h.Spine l values)
    (hs : h.slotIn symbol n names values = .ok (some slot)) : slot ∈ l := by
  induction n generalizing l names values with
  | zero => simp [slotIn] at hs
  | succ n ih =>
    simp only [slotIn, bind, Except.bind] at hs
    split at hs
    · simp at hs
    split at hs
    · simp at hs
    next d hr =>
    split at hs
    · next a b =>
      have hobj := object?_eq_some.mpr ⟨cells_of_read hr, rfl⟩
      cases l with
      | nil =>
        obtain rfl : values = .emptyList := hl
        rw [hn] at hobj
        simp at hobj
      | cons c l =>
        obtain ⟨rfl, x, y, hp, hl⟩ := hl
        rw [hobj] at hp
        obtain ⟨rfl, rfl⟩ := Datum.pair.inj (Option.some.inj hp)
        split at hs
        · obtain rfl := Option.some.inj (Except.ok.inj hs)
          exact List.mem_cons_self
        · exact List.mem_cons_of_mem _ (ih hl hs)
    · simp at hs

/-- What is found in a frame is one of its bindings. -/
lemma Sealed.binds_of_localSlot (hs : h.Sealed V) {symbol slot : Handle}
    (hl : h.localSlot f symbol = .ok (some slot)) : h.Binds f slot := by
  simp only [localSlot, bind, Except.bind] at hl
  split at hl
  · simp at hl
  next parts hf =>
  obtain ⟨l, hl'⟩ := hs.listed f _ _ _ (frameAt_eq_ok hf)
  exact ⟨_, _, _, l, frameAt_eq_ok hf, hl', mem_of_slotIn hs.emptyList _ hl' hl⟩

/-- What is found in an environment is a binding of one of its frames. -/
lemma Sealed.binds_of_slotFrom (hs : h.Sealed V) {symbol slot : Handle} (n : Nat) {env : Handle}
    (hl : h.slotFrom symbol n env = .ok (some slot)) : ∃ f, h.Binds f slot := by
  induction n generalizing env with
  | zero => simp [slotFrom] at hl
  | succ n ih =>
    simp only [slotFrom, bind, Except.bind] at hl
    split at hl
    · simp at hl
    next o ho =>
    cases o with
    | some slot' =>
      obtain rfl := Option.some.inj (Except.ok.inj hl)
      exact ⟨env, hs.binds_of_localSlot ho⟩
    | none =>
      dsimp only at hl
      split at hl
      · simp at hl
      · split at hl
        · exact ih hl
        · simp at hl

end Heap

/-! ## Environments -/

namespace Safe

variable [Exhibit ε] [Exhibit α]

lemma find? (hs : V.Seals h) (env symbol : Handle) :
    ((find? env symbol : HeapM ε (Option Handle)) h).Safe R V h := by
  refine ends_look (fun _ => observed_slotFrom _ _) fun slot hslot => ?_
  cases slot with
  | none => exact pure hs (by simp [Exhibit.shown])
  | some slot =>
    have hcar : ((car slot : HeapM ε Handle) h).Safe R V h := by
      refine ends_expect fun d p hd hp => pure hs fun hu => ?_
      cases d with
      | pair x y =>
        obtain rfl := Option.some.inj hp
        exact (hs hu).open_part (object?_eq_some.mpr ⟨cells_of_read hd, rfl⟩)
          (by simp [Datum.parts])
      | _ => simp [Datum.pair?] at hp
    exact bind hcar fun v k hk hv => pure hk.seals (by simpa [Exhibit.shown] using hv)

lemma unbound (hs : V.Seals h) (symbol : Handle) :
    ((unbound symbol : EvalM α) h).Safe R V h :=
  ends_expect fun _ _ _ _ => raise hs _ _

lemma lookup (hs : V.Seals h) (env symbol : Handle) :
    ((lookup env symbol) h).Safe R V h := by
  refine bind (find? hs env symbol) fun v k hk hv => ?_
  cases v with
  | some v => exact pure hk.seals (hv v rfl)
  | none => exact unbound hk.seals symbol

lemma assign (hs : V.Seals h) (env symbol : Handle) (hv : V.Shows h v) :
    ((assign env symbol v) h).Safe R V h := by
  refine ends_look (fun _ => observed_slotFrom _ _) fun slot hslot => ?_
  cases slot with
  | none => exact unbound hs symbol
  | some slot =>
    refine bind (setCar hs (fun hu => ?_) hv) fun _ k hk _ => pure hk.seals (hk.shows hv)
    obtain ⟨f, hb⟩ := (hs hu).binds_of_slotFrom _ hslot
    exact (hs hu).undrafted f slot hb

/-- Putting a name and a value in front of the lists of a frame. -/
lemma extend (hs : V.Seals h) {env symbol : Handle} (hsym : V.Shows h symbol) (hv : V.Shows h v) :
    ((do
      let (_, names, values) ← frameParts env
      let names ← HeapM.cons symbol names
      HeapM.rooted names fun _ => do
        let values ← HeapM.cons v values
        setBindings env names values
        return v : EvalM Handle) h).Safe R V h := by
  refine ends_expect fun d parts hd hp => ?_
  cases d with
  | frame p n w =>
    obtain rfl := Option.some.inj hp
    have hf : h.object? env = some (.frame p n w) := object?_eq_some.mpr ⟨cells_of_read hd, rfl⟩
    refine ends_bind (ends_cons hs hsym fun hu => (hs hu).open_part hf (by simp [Datum.parts]))
      fun names k hk => ?_
    obtain ⟨hk, hnames, hr⟩ := hk
    refine from_earlier hk (holding hk.seals names fun i l hl hcells => ?_)
    have hother : ∀ {x y : Heap} {u : Handle} {e : Datum}, x.object? u = none →
        x.Rewritten u e y → x.object? env = some (.frame p n w) →
        y.object? env = some (.frame p n w) := by
      intro x y u e hn hrw hx
      have hne : env ≠ u := by
        rintro rfl
        rw [hn] at hx
        simp at hx
      rw [hrw.other hne, hx]
    have hfl : l.Unswept → l.object? env = some (.frame p n w) := by
      intro hu
      obtain ⟨hn, hrw⟩ := hr (hl.unswept hu)
      rw [object?, hcells, ← object?]
      exact hother hn hrw hf
    have hvl : (V.hide i).Shows l v := hl.shows (hk.shows hv)
    refine ends_bind (cons_draft hl.seals hvl fun hu => ?_) fun c m hc => ?_
    · exact (hl.seals hu).attached env _ (hfl hu) w (by simp [Datum.children])
    · obtain ⟨hm, hrm⟩ := hc
      refine ends_bind (ends_setBindings (p := p) (n := n) (w := w) hm.seals (fun hu => ?_)
        (hm.shows (hl.shows hnames)) (fun hu => (hrm hu).2.self) fun hu => ?_) fun _ m' hm' => ?_
      · exact hother (hrm hu).1 (hrm hu).2 (hfl (hm.unswept hu))
      · exact (hl.seals (hm.unswept hu)).not_draft (hrm hu).1
      · exact ⟨hm.trans hm', (hm.trans hm').shows hvl⟩
  | _ => simp [Datum.frame?] at hp

lemma define (hs : V.Seals h) {env symbol : Handle} (hsym : V.Shows h symbol) (hv : V.Shows h v) :
    ((define env symbol v) h).Safe R V h := by
  refine ends_look (fun _ => observed_localSlot) fun slot hslot => ?_
  cases slot with
  | some slot =>
    refine bind (setCar hs (fun hu => ?_) hv) fun _ k hk _ => pure hk.seals (hk.shows hv)
    exact (hs hu).undrafted env slot ((hs hu).binds_of_localSlot hslot)
  | none =>
    refine holding hs env fun i k hk _ => holding hk.seals v fun j l hl _ => ?_
    exact extend hl.seals (hl.shows (hk.shows hsym)) (hl.shows (hk.shows hv))

end Safe

/-! ## Expanding `let` -/

namespace Safe

variable {kw : Keywords}

lemma splitBinding (hs : V.Seals h) (complaint : String) (binding : Handle) :
    ((Let.splitBinding complaint binding) h).Safe R V h := by
  refine ends_items hs fun parts hparts => ?_
  split
  · next name initial =>
    refine ends_hasType fun d _ => ends_ite (fun _ => pure hs ?_) fun _ => raise hs _ _
    exact ⟨hparts _ rfl name (by simp), hparts _ rfl initial (by simp)⟩
  · exact raise hs _ _

lemma splitBindings (hs : V.Seals h) (complaint : String) (bindings : Handle) :
    ((Let.splitBindings complaint bindings) h).Safe R V h := by
  refine ends_items hs fun entries hentries => ?_
  cases entries with
  | none => exact raise hs _ _
  | some entries =>
    refine bind (mapM hs fun e _ k hk => splitBinding hk.seals complaint e) fun parts k hk hp => ?_
    refine bind (list hk.seals fun v hv => ?_) fun names l hl hn => ?_
    · obtain ⟨p, hm, rfl⟩ := List.mem_map.mp hv
      exact (hp p hm).1
    refine holding hl.seals names fun i m hm _ => bind (list hm.seals fun v hv => ?_)
      fun initials m' hm' hi => pure hm'.seals ⟨hm'.shows (hm.shows hn), hi⟩
    obtain ⟨p, hmem, rfl⟩ := List.mem_map.mp hv
    exact hm.shows (hl.shows (hp p hmem).2)

lemma expandPlain (hs : V.Seals h) (hkw : V.Shows h kw.lambda) {bindings body : Handle}
    (hb : V.Shows h body) : ((Let.expandPlain kw bindings body) h).Safe R V h := by
  refine ends_hasType fun d _ => ends_ite (fun _ => raise hs _ _) fun _ => ?_
  refine bind (splitBindings hs _ bindings) fun parts k hk hp => ?_
  refine holding hk.seals _ fun i l hl _ => holding hl.seals _ fun j m hm _ => ?_
  have hlm : ∀ {v}, V.Shows k v → ((V.hide i).hide j).Shows m v := fun hv => hm.shows (hl.shows hv)
  refine bind (cons hm.seals (hlm hp.1) (hlm (hk.shows hb))) fun rest m₁ h₁ hr => ?_
  refine bind (cons h₁.seals (h₁.shows (hlm (hk.shows hkw))) hr) fun lambda m₂ h₂ hc => ?_
  exact cons h₂.seals hc (h₂.shows (h₁.shows (hlm hp.2)))

lemma expandNamed (hs : V.Seals h) (hlam : V.Shows h kw.lambda) (hdef : V.Shows h kw.definition)
    {name rest : Handle} (hn : V.Shows h name) (hr : V.Shows h rest) :
    ((Let.expandNamed kw name rest) h).Safe R V h := by
  refine ends_asPair (raise hs _ _) fun bindings body hp => ?_
  have hbody : V.Shows h body := fun hu => (hs hu).open_tail (hr hu) hp
  refine ends_hasType fun d _ => ends_ite (fun _ => raise hs _ _) fun _ => ?_
  refine bind (splitBindings hs _ bindings) fun parts k hk hparts => ?_
  refine holding hk.seals _ fun i l hl _ => holding hl.seals _ fun j m hm _ => ?_
  have hlm : ∀ {v}, V.Shows k v → ((V.hide i).hide j).Shows m v := fun hv => hm.shows (hl.shows hv)
  have hhm : ∀ {v}, V.Shows h v → ((V.hide i).hide j).Shows m v := fun hv => hlm (hk.shows hv)
  refine bind (cons hm.seals (hhm hn) (hlm hparts.2)) fun call m₁ h₁ hcall => ?_
  refine holding h₁.seals call fun n m₂ h₂ _ => ?_
  have h2 : ∀ {v}, ((V.hide i).hide j).Shows m v → (((V.hide i).hide j).hide n).Shows m₂ v :=
    fun hv => h₂.shows (h₁.shows hv)
  refine bind (cons h₂.seals (h2 (hlm hparts.1)) (h2 (hhm hbody))) fun rest m₃ h₃ hrest => ?_
  refine bind (cons h₃.seals (h₃.shows (h2 (hhm hlam))) hrest) fun inner m₄ h₄ hinner => ?_
  have h4 : ∀ {v}, ((V.hide i).hide j).Shows m v → (((V.hide i).hide j).hide n).Shows m₄ v :=
    fun hv => h₄.shows (h₃.shows (h2 hv))
  refine bind (list h₄.seals fun v hv => ?_) fun definition m₅ h₅ hd => ?_
  · simp only [List.mem_cons, List.not_mem_nil, or_false] at hv
    rcases hv with rfl | rfl | rfl
    · exact h4 (hhm hdef)
    · exact h4 (hhm hn)
    · exact hinner
  refine bind (list h₅.seals fun v hv => ?_) fun outer m₆ h₆ ho => ?_
  · simp only [List.mem_cons, List.not_mem_nil, or_false] at hv
    rcases hv with rfl | rfl | rfl | rfl
    · exact h₅.shows (h4 (hhm hlam))
    · exact fun hu => (h₅.seals hu).open_sentinel (by decide)
    · exact hd
    · exact h₅.shows (h₄.shows (h₃.shows (h₂.shows hcall)))
  exact list h₆.seals fun v hv => List.mem_singleton.mp hv ▸ ho

lemma expand (hs : V.Seals h) (hlam : V.Shows h kw.lambda) (hdef : V.Shows h kw.definition)
    {operands : Handle} (ho : V.Shows h operands) : ((Let.expand kw operands) h).Safe R V h := by
  refine ends_asPair (raise hs _ _) fun first rest hp => ?_
  have hrest : V.Shows h rest := fun hu => (hs hu).open_tail (ho hu) hp
  have hfirst : V.Shows h first := fun hu => (hs hu).open_part hp (by simp [Datum.parts])
  refine ends_hasType fun d _ => ends_ite (fun _ => ?_) fun _ => expandPlain hs hlam hrest
  exact expandNamed hs hlam hdef hfirst hrest

end Safe

end ArenaScheme
