/-
# Safe work on objects

Making objects of open parts, looking at open objects and changing open pairs is safe.

A new pair may also be kept as a draft, and then its tail need not be open.  Such drafts become the
lists of values of frames, so there are two rules for making pairs and lists: one leaves the pairs
behind as drafts, and the other, which follows from it, gives them away.
-/
import ArenaScheme.Proofs.Discipline.Objects
import ArenaScheme.Proofs.Seclusion.Rules

namespace ArenaScheme

open Heap HeapM

variable {ε α β : Type} {R : Prop} {U V W : Veil} {h k : Heap}
  {a b c f u v : Handle} {d : Datum}

/-! ## Collections -/

namespace Heap

lemma not_unswept_of_collectKeeping {extra : List Handle} {r : Collection}
    (hc : h.collectKeeping extra = .ok (r, k)) : ¬ k.Unswept := by
  dsimp only [collectKeeping] at hc
  split at hc
  · simp at hc
  · obtain ⟨-, rfl⟩ := Prod.mk.inj (Except.ok.inj hc)
    exact Nat.succ_ne_zero _

/-- Preparing an allocation does nothing or runs a collection. -/
lemma eq_of_prepare {extra : List Handle} (hp : h.prepare extra = .ok k) (hk : k.Unswept) :
    k = h := by
  unfold prepare at hp
  split at hp
  · cases hc : h.collectKeeping extra with
    | ok p =>
      rw [hc] at hp
      obtain rfl := Except.ok.inj hp
      exact absurd hk (not_unswept_of_collectKeeping hc)
    | error c => simp [hc, Except.map] at hp
  · exact (Except.ok.inj hp).symm

/-- What allocation does unless there is a collection. -/
lemma alloc_cases (hd : d.isFree = false) (h : Heap) :
    (∃ v k, HeapM.alloc d h = .ok v k ∧
        (k.Unswept → h.object? v = none ∧ h.Rewritten v d k)) ∨
      (∃ k, HeapM.alloc d h = .error .outOfMemory k ∧ (k.Unswept → k = h)) ∨
      ∃ c, HeapM.alloc d h = .halt c ∧ c.OfArena := by
  unfold HeapM.alloc
  cases hp : h.prepare d.children with
  | error c => exact .inr (.inr ⟨c, rfl, ofArena_prepare hp⟩)
  | ok k =>
    dsimp only
    cases hfree : k.free with
    | none => exact .inr (.inl ⟨k, rfl, eq_of_prepare hp⟩)
    | some i =>
      dsimp only
      cases hc : k.claim i d with
      | ok l =>
        refine .inl ⟨⟨i⟩, l, rfl, fun hl => ?_⟩
        obtain ⟨hn, hr⟩ := Rewritten.claim hc hd
        obtain rfl := eq_of_prepare hp (hr.collections.symm.trans hl)
        exact ⟨hn, hr⟩
      | error c => exact .inr (.inr ⟨c, rfl, ofArena_claim hc⟩)

end Heap

lemma Halt.OfArena.ne_baseFrame {c : Halt} (hc : c.OfArena) : c ≠ .baseFrame := by
  rintro rfl
  exact hc

/-! ## Drafts -/

namespace Veil

lemma draft_nil : V.draft [] = V := by
  cases V
  simp [draft]

lemma draft_cons (c : Handle) (l : List Handle) : (V.draft l).draft [c] = V.draft (c :: l) := by
  simp only [draft, Veil.mk.injEq, and_true]
  ext u
  simp only [Set.mem_union, Set.mem_ofPred_eq, List.mem_cons, List.not_mem_nil, or_false]
  tauto

lemma draft_snoc (c : Handle) (l : List Handle) :
    (V.draft l).draft [c] = V.draft (l ++ [c]) := by
  simp only [draft, Veil.mk.injEq, and_true]
  ext u
  simp only [Set.mem_union, Set.mem_ofPred_eq, List.mem_append, List.mem_singleton]
  tauto

lemma mem_draft {l : List Handle} (hc : c ∈ l) : c ∈ (V.draft l).cells := .inr hc

/-- A list under construction: the pairs `l` are drafts and make up the proper list `v`. -/
structure Drafts (V : Veil) (l : List Handle) (h : Heap) (v : Handle) : Prop where
  spine : h.Unswept → h.Spine l v
  fresh : h.Unswept → ∀ c ∈ l, c ∉ V.cells

/-- Publishing a list under construction. -/
lemma Drafts.shows {l : List Handle} (hl : V.Drafts l h v) (hs : (V.draft l).Seals h) :
    V.Shows h v := fun hu =>
  (hs hu).open_of_spine (hl.spine hu) (fun _ => mem_draft) (hl.fresh hu) (V.le_draft l).1

lemma Drafts.live {l : List Handle} (hl : V.Drafts l h v) (hs : (V.draft l).Seals h)
    (hu : h.Unswept) : ∃ d, h.object? v = some d := (hl.shows hs hu).live

/-- What leaves the pairs of the list alone leaves the list alone. -/
lemma Drafts.advance {X Y : Veil} {m : Heap} {l : List Handle} (hl : V.Drafts l k v)
    (hk : Advance (V.draft l) X k Y m) : V.Drafts l m v where
  spine hu := (hl.spine (hk.unswept hu)).congr fun c hc a b hp =>
    ⟨a, by rw [hk.fixed hu c (mem_draft hc)]; exact hp⟩
  fresh hu := hl.fresh (hk.unswept hu)

end Veil

/-- Publishing drafts. -/
lemma Advance.publish {l : List Handle} (hs : (V.draft l).Seals h) :
    Advance U (V.draft l) h V h := .unveil hs (V.le_draft l).1 rfl

lemma Advance.publishes [Exhibit α] {x : α} {l : List Handle} (hk : Advance U W h (V.draft l) k)
    (hx : Exhibit.shown (V.draft l) k x) : Advance U W h V k ∧ Exhibit.shown V k x :=
  ⟨hk.trans (.publish hk.seals), Exhibit.mono (Advance.publish (U := V) hk.seals) hx⟩

/-! ## Allocation -/

namespace Safe

variable [Exhibit ε] [Exhibit α]

/-- Allocation under a veil that may take the new object in. -/
lemma ends_alloc {W : Handle → Veil} (hs : V.Seals h) (hd : d.isFree = false)
    (hdec : ∀ v k, h.Unswept → h.Sealed V → h.object? v = none → h.Rewritten v d k →
      Decent V (W v) h v d k) :
    ((alloc d) h).Ends R
      (fun v k => Advance V V h (W v) k ∧
        (k.Unswept → h.object? v = none ∧ h.Rewritten v d k))
      fun e k => V.Keeps h k ∧ V.Shows k e := by
  rcases alloc_cases hd h with ⟨v, k, hr, hk⟩ | ⟨k, hr, hk⟩ | ⟨c, hr, hc⟩ <;> rw [hr]
  · refine ⟨?_, hk⟩
    by_cases hu : k.Unswept
    · obtain ⟨hn, hrw⟩ := hk hu
      have hh : h.Unswept := hrw.collections.symm.trans hu
      exact .of_decent hs hrw.collections (fun hsl => hdec v k hh hsl hn hrw) (·.not_draft hn)
    · exact .of_swept hu
  · by_cases hu : k.Unswept
    · obtain rfl := hk hu
      exact ⟨.refl hs, fun hu => (hs hu).open_sentinel (by decide)⟩
    · exact ⟨.of_swept hu, fun h => absurd h hu⟩
  · exact fun he => absurd he hc.ne_baseFrame

/-- A new pair as a draft. -/
lemma cons_draft (hs : V.Seals h) (ha : V.Shows h a)
    (hb : h.Unswept → ∃ e, h.object? b = some e) :
    ((cons a b) h).Ends R
      (fun v k => Advance V V h (V.draft [v]) k ∧
        (k.Unswept → h.object? v = none ∧ h.Rewritten v (.pair a b) k))
      fun e k => V.Keeps h k ∧ V.Shows k e := by
  refine ends_alloc hs rfl fun v k hu hsl hn hr =>
    .fresh hsl hn hr (fun c hc => ?_) (fun c hc => ?_)
    (fun c hc => ?_) rfl (by simp) (by simp)
  · simp only [Datum.children, List.mem_cons, List.not_mem_nil, or_false] at hc
    rcases hc with rfl | rfl
    · exact (ha hu).live
    · exact hb hu
  · simp only [Datum.parts, List.mem_singleton] at hc
    subst hc
    exact (ha hu).not_hidden
  · rcases hc with hc | hc
    · exact .inl hc
    · exact .inr ⟨List.mem_singleton.mp hc, a, b, rfl⟩

/-- A new pair that is given away, and what it has been put into. -/
lemma ends_cons (hs : V.Seals h) (ha : V.Shows h a) (hb : V.Shows h b) :
    ((cons a b) h).Ends R
      (fun v k => V.Keeps h k ∧ V.Shows k v ∧
        (k.Unswept → h.object? v = none ∧ h.Rewritten v (.pair a b) k))
      fun e k => V.Keeps h k ∧ V.Shows k e := by
  refine (cons_draft hs ha fun hu => (hb hu).live).mono (fun v k hv => ?_) fun _ _ => id
  obtain ⟨hk, hr⟩ := hv
  refine ⟨hk.trans (.publish hk.seals), fun hu => ?_, hr⟩
  obtain ⟨hn, hrw⟩ := hr hu
  have hh := hk.unswept hu
  exact (hk.seals hu).open_of_draft hrw.self (Veil.mem_draft (by simp)) ((hs hh).not_draft hn)
    ((hk.opens hu b (hb hh)).mono (V.le_draft _).1)

lemma cons (hs : V.Seals h) (ha : V.Shows h a) (hb : V.Shows h b) :
    ((cons a b) h).Safe R V h :=
  (ends_cons hs ha hb).mono (fun _ _ hv => ⟨hv.1, hv.2.1⟩) fun _ _ => id

/-- A new object that is neither a pair nor a frame. -/
lemma alloc (hs : V.Seals h) (hd : d.isFree = false) (hp : ∀ a b, d ≠ .pair a b)
    (hf : ∀ p n w, d ≠ .frame p n w) (hc : ∀ c ∈ d.children, V.Shows h c)
    (hclo : ∀ e p b, d = .closure e p b → h.Unswept → h.IsFrame e) :
    ((alloc d) h).Safe R V h := by
  refine (ends_alloc (W := fun _ => V) hs hd fun v k hu hsl hn hr => ?_).mono (fun v k hv => ?_)
    fun _ _ => id
  · refine .fresh hsl hn hr (fun c hm => (hc c hm hu).live) (fun c hm => ?_)
      (fun c hm => .inl hm) rfl
      (fun p n w he => absurd he (hf p n w)) fun e p b he => hclo e p b he hu
    exact (hc c (d.parts_subset_children hm) hu).not_hidden
  · exact ⟨hv.1, fun hu => (hv.1.seals hu).open_of_not_pair (hv.2 hu).2.self hp⟩

/-- A new atom. -/
lemma alloc_atom (hs : V.Seals h) (hd : d.isFree = false) (hc : d.children = []) :
    ((HeapM.alloc d) h).Safe R V h := by
  refine alloc hs hd (fun a b he => ?_) (fun p n w he => ?_) (by simp [hc]) fun e p b he => ?_
  all_goals
    rw [he] at hc
    simp [Datum.children] at hc

lemma makeError (hs : V.Seals h) (kind : ErrorKind) (message : String) :
    ((makeError kind message : HeapM ε Handle) h).Safe R V h := by
  refine ends_ite (fun _ => pure hs fun hu => (hs hu).open_sentinel (by decide)) fun _ => ?_
  exact recover (fun _ _ => id) (alloc_atom hs rfl rfl)

/-- Raising an error gives no value. -/
lemma ends_raise {α : Type} {P : α → Heap → Prop} (hs : V.Seals h) (kind : ErrorKind)
    (message : String) :
    ((HeapM.raise kind message : EvalM α) h).Ends R P fun e k => V.Keeps h k ∧ V.Shows k e :=
  ends_bind (P := fun e k => V.Keeps h k ∧ V.Shows k e) (makeError hs kind message) fun _ _ => id

lemma raise (hs : V.Seals h) (kind : ErrorKind) (message : String) :
    ((raise kind message : EvalM α) h).Safe R V h := ends_raise hs kind message

/-- A new permanent atom. -/
lemma allocPermanent (hs : V.Seals h) (hd : d.isFree = false) (hc : d.children = []) :
    ((allocPermanent d : HeapM ε Handle) h).Safe R V h := by
  obtain ⟨hn, hr⟩ := Rewritten.addPermanent h hd
  have hne : ∀ a b, d ≠ .pair a b := by
    rintro a b rfl
    simp [Datum.children] at hc
  have hk : Advance V V h V (h.addPermanent d).2 := by
    refine .of_decent hs rfl (fun hsl => .fresh hsl hn hr (by simp [hc])
      (fun c hm => ?_) (fun c hm => .inl hm) rfl (fun p n w he => ?_) fun e p b he => ?_)
      (·.not_draft hn)
    · have := d.parts_subset_children hm
      simp [hc] at this
    · rw [he] at hc
      simp [Datum.children] at hc
    · rw [he] at hc
      simp [Datum.children] at hc
  exact ⟨hk, fun hu => (hk.seals hu).open_of_not_pair hr.self hne⟩

lemma intern (hs : V.Seals h) (name : String) :
    ((intern name : HeapM ε Handle) h).Safe R V h := by
  simp only [HeapM.intern, changeWith, Heap.intern]
  cases hv : h.symbols[name]? with
  | some v =>
    refine ⟨.refl hs, fun hu => ?_⟩
    obtain ⟨n, hn⟩ := (hs hu).table name v hv
    exact (hs hu).open_of_not_pair hn (by simp)
  | none =>
    have hnew : ((HeapM.allocPermanent (.symbol name) : HeapM ε Handle) h).Safe R V h :=
      allocPermanent hs rfl rfl
    obtain ⟨hk, hv⟩ := hnew
    have hobj : (h.addPermanent (.symbol name)).2.object? ⟨h.cells.size⟩ = some (.symbol name) :=
      (Rewritten.addPermanent h rfl).2.self
    have hsym : Advance V V (h.addPermanent (.symbol name)).2 V
        { (h.addPermanent (.symbol name)).2 with
          symbols := h.symbols.insert name ⟨h.cells.size⟩ } := by
      refine .reframe hk.seals rfl rfl (fun _ hsl => ?_) rfl fun _ _ _ _ => rfl
      refine hsl.reframe rfl rfl hsl.current (fun n v hn => ?_) rfl hsl.slots hsl.held
      simp only [Std.TreeMap.getElem?_insert] at hn
      split at hn
      · obtain rfl := Option.some.inj hn
        exact ⟨name, hobj⟩
      · exact hsl.table n v hn
    exact ⟨hk.trans hsym, hsym.shows hv⟩

lemma collect : ((collect : HeapM ε Collection) h).Safe R V h := by
  rw [HeapM.collect, attempt]
  cases hc : Heap.collect h with
  | ok p => exact ⟨.of_swept (not_unswept_of_collectKeeping hc), trivial⟩
  | error c => exact fun he => absurd he (ofArena_collectKeeping hc).ne_baseFrame

end Safe

/-! ## Inspection -/

section Inspection

variable {P : α → Heap → Prop} {E : ε → Heap → Prop} {F : β → HeapM ε α}

lemma ends_datum {F : Datum → HeapM ε α}
    (hF : ∀ d, h.read v = .ok d → (F d h).Ends R P E) : ((datum v >>= F) h).Ends R P E :=
  ends_look (fun _ => observed_read) hF

lemma ends_asPair {F : Option (Handle × Handle) → HeapM ε α} (hn : (F none h).Ends R P E)
    (hp : ∀ a b, h.object? v = some (.pair a b) → (F (some (a, b)) h).Ends R P E) :
    ((asPair v >>= F) h).Ends R P E := by
  rw [asPair, bind_assoc]
  refine ends_datum fun d hd => ?_
  rw [pure_bind]
  cases d with
  | pair a b => exact hp a b (object?_eq_some.mpr ⟨cells_of_read hd, rfl⟩)
  | _ => exact hn

lemma ends_typeOf {F : DatumType → HeapM ε α}
    (hF : ∀ d, h.read v = .ok d → (F d.type h).Ends R P E) : ((typeOf v >>= F) h).Ends R P E := by
  rw [typeOf, bind_assoc]
  refine ends_datum fun d hd => ?_
  rw [pure_bind]
  exact hF d hd

lemma ends_hasType {t : DatumType} {F : Bool → HeapM ε α}
    (hF : ∀ d, h.read v = .ok d → (F (d.type == t) h).Ends R P E) :
    ((hasType t v >>= F) h).Ends R P E := by
  rw [hasType, bind_assoc]
  refine ends_typeOf fun d hd => ?_
  rw [pure_bind]
  exact hF d hd

lemma ends_expect {wanted : DatumType} {part : Datum → Option β}
    (hF : ∀ d b, h.read v = .ok d → part d = some b → (F b h).Ends R P E) :
    ((expect wanted part v >>= F) h).Ends R P E := by
  rw [expect, bind_assoc]
  refine ends_datum fun d hd => ?_
  cases hp : part d with
  | some b =>
    rw [pure_bind]
    exact hF d b hd hp
  | none => exact fun he => absurd he (by simp)

/-- A walk meets only what is told by the cells that it goes over: `T` is to hold of the pairs of
the spine and of its end, and `S` of the elements. -/
lemma walkFrom_invariant {T S : Handle → Prop}
    (hT : ∀ u a b, T u → h.object? u = some (.pair a b) → S a ∧ T b) (n : Nat)
    {slow fast : Handle} {seen : Array Handle} {w : Walk}
    (hw : h.walkFrom n slow fast seen = .ok w) (hf : T fast) (hseen : ∀ v ∈ seen.toList, S v) :
    (∀ v ∈ w.visited, S v) ∧ ∀ v ∈ w.ending, T v := by
  have hpair : ∀ {u a b}, T u → h.read u = .ok (.pair a b) → S a ∧ T b := fun hu hr =>
    hT _ _ _ hu (object?_eq_some.mpr ⟨cells_of_read hr, rfl⟩)
  induction n generalizing slow fast seen with
  | zero =>
    obtain rfl := Except.ok.inj hw
    exact ⟨hseen, by simp⟩
  | succ n ih =>
    simp only [walkFrom, bind, Except.bind] at hw
    split at hw
    · simp at hw
    next d hr =>
    split at hw
    · next first second =>
      obtain ⟨h1, h2⟩ := hpair hf hr
      have hseen' : ∀ v ∈ (seen.push first).toList, S v := by
        intro v hv
        simp only [Array.toList_push, List.mem_append, List.mem_singleton] at hv
        rcases hv with hv | rfl
        · exact hseen v hv
        · exact h1
      split at hw
      · simp at hw
      next e hr2 =>
      split at hw
      · next head fast' =>
        obtain ⟨h3, h4⟩ := hpair h2 hr2
        have hseen'' : ∀ v ∈ ((seen.push first).push head).toList, S v := by
          intro v hv
          rw [Array.toList_push, List.mem_append, List.mem_singleton] at hv
          rcases hv with hv | rfl
          · exact hseen' v hv
          · exact h3
        split at hw
        · simp at hw
        · split at hw
          · obtain rfl := Except.ok.inj hw
            exact ⟨hseen'', by simp⟩
          · exact ih hw h4 hseen''
      · obtain rfl := Except.ok.inj hw
        exact ⟨hseen', fun v hv => by obtain rfl := Option.some.inj hv; exact h2⟩
    · obtain rfl := Except.ok.inj hw
      exact ⟨hseen, fun v hv => by obtain rfl := Option.some.inj hv; exact hf⟩

/-- Walking down the spine of an open object. -/
lemma ends_walkSpine {F : Walk → HeapM ε α} (hs : V.Seals h) (hv : V.Shows h v)
    (hF : ∀ w : Walk, (∀ u ∈ w.visited, V.Shows h u) → (∀ u ∈ w.ending, V.Shows h u) →
      (F w h).Ends R P E) : ((walkSpine v >>= F) h).Ends R P E := by
  refine ends_look (fun _ => observed_walkFrom _ _ _ _) fun w hw => ?_
  obtain ⟨h1, h2⟩ := walkFrom_invariant (T := V.Shows h) (S := V.Shows h) (fun u a b hu hp =>
    ⟨fun ha => (hs ha).open_part hp (by simp [Datum.parts]),
      fun ha => (hs ha).open_tail (hu ha) hp⟩) _ hw hv (by simp)
  exact hF w h1 h2

/-- The elements of a list are open, whether the list is or not. -/
lemma ends_items {F : Option (List Handle) → HeapM ε α} (hs : V.Seals h)
    (hF : ∀ vs : Option (List Handle), Exhibit.shown V h vs → (F vs h).Ends R P E) :
    ((items? v >>= F) h).Ends R P E := by
  rw [items?, bind_assoc]
  refine ends_look (fun _ => observed_walkFrom _ _ _ _) fun w hw => ?_
  rw [pure_bind]
  refine hF _ fun vs hvs u hu => ?_
  obtain ⟨h1, -⟩ := walkFrom_invariant (T := fun _ => True) (S := V.Shows h) (fun u a b _ hp =>
    ⟨fun ha => (hs ha).open_part hp (by simp [Datum.parts]), trivial⟩) _ hw trivial (by simp)
  unfold Walk.items? at hvs
  split at hvs
  · exact h1 u (by rwa [Option.some.inj hvs])
  · simp at hvs

lemma ends_length {F : Option Nat → HeapM ε α} (hF : ∀ n, (F n h).Ends R P E) :
    ((length? v >>= F) h).Ends R P E := by
  rw [length?, items?, bind_assoc, bind_assoc]
  refine ends_look (fun _ => observed_walkFrom _ _ _ _) fun w hw => ?_
  rw [pure_bind, pure_bind]
  exact hF _

end Inspection

/-! ## Mutation -/

/-- Replacing the contents of a cell as is due. -/
lemma Advance.overwrite (hs : V.Seals h)
    (hd : h.Unswept → h.Sealed V → Decent V W h v d (h.setCell v.index d))
    (hv : h.Unswept → v ∉ U.cells) : Advance U V h W (h.setCell v.index d) := by
  by_cases hu : h.Unswept
  · exact .of_decent hs rfl (hd hu) fun _ => hv hu
  · exact .of_swept hu

lemma Veil.Shows.not_draft (hv : V.Shows h v) (hu : h.Unswept) : v ∉ V.cells := fun hm =>
  (hv hu).not_hidden (.draft hm)

/-- Replacing the tail of a draft. -/
lemma ends_setCdr_draft {E : ε → Heap → Prop} (hs : V.Seals h) (hd : h.Unswept → a ∈ V.cells)
    (hv : h.Unswept → ∃ e, h.object? v = some e) (hU : h.Unswept → a ∉ U.cells) :
    ((setCdr a v : HeapM ε Unit) h).Ends R
      (fun _ k => Advance U V h V k ∧
        ∃ x y, h.object? a = some (.pair x y) ∧ h.Rewritten a (.pair x v) k) E := by
  refine ends_expect fun d p hr hp => ?_
  cases d with
  | pair x y =>
    obtain rfl := Option.some.inj hp
    have hobj : h.object? a = some (.pair x y) := object?_eq_some.mpr ⟨cells_of_read hr, rfl⟩
    refine ⟨.overwrite hs (fun hu hsl => ?_) hU, x, y, hobj, .setCell hobj rfl⟩
    exact .setPair hsl hobj (hsl.open_part hobj (by simp [Datum.parts]))
      (.inr ⟨hv hu, .inl (hd hu)⟩)
  | _ => simp [Datum.pair?] at hp

/-- Putting an open list and a draft in the place of the two lists of a frame. -/
lemma ends_setBindings {E : ε → Heap → Prop} {names : Handle} {p : Option Handle} {n w : Handle}
    (hs : (V.draft [c]).Seals h) (hf : h.Unswept → h.object? f = some (.frame p n w))
    (hn : (V.draft [c]).Shows h names) (hc : h.Unswept → h.object? c = some (.pair a w))
    (hfresh : h.Unswept → c ∉ V.cells) :
    ((setBindings f names c : HeapM ε Unit) h).Ends R
      (fun _ k => Advance V (V.draft [c]) h V k) E := by
  refine ends_expect fun d parts hr hp => ?_
  cases d with
  | frame q m x =>
    obtain rfl := Option.some.inj hp
    have hobj : h.object? f = some (.frame q m x) := object?_eq_some.mpr ⟨cells_of_read hr, rfl⟩
    refine .overwrite hs (fun hu hsl => ?_) fun hu hm => ?_
    · have hw : h.object? c = some (.pair a x) := by
        have he := (hf hu).symm.trans hobj
        obtain ⟨-, -, rfl⟩ := Datum.frame.inj (Option.some.inj he)
        exact hc hu
      exact .rebind hsl hobj (hn hu) hw (Veil.mem_draft (by simp)) (V.le_draft _).1 (hfresh hu) rfl
    · obtain ⟨y, z, hp⟩ := (hs hu).drafts f ((V.le_draft _).1 hm)
      rw [hobj] at hp
      simp at hp
  | _ => simp [Datum.frame?] at hp

namespace Safe

variable [Exhibit ε]

/-- Replacing the head of a pair that is no draft by an open object. -/
lemma setCar (hs : V.Seals h) (ha : h.Unswept → a ∉ V.cells) (hv : V.Shows h v) :
    ((setCar a v : HeapM ε Unit) h).Safe R V h := by
  refine ends_expect fun d p hr hp => ?_
  cases d with
  | pair x y =>
    obtain rfl := Option.some.inj hp
    have hobj : h.object? a = some (.pair x y) := object?_eq_some.mpr ⟨cells_of_read hr, rfl⟩
    exact ⟨.overwrite hs (fun hu hsl => .setPair hsl hobj (hv hu) (.inl rfl)) ha, trivial⟩
  | _ => simp [Datum.pair?] at hp

/-- Replacing the tail of an open pair by an open object. -/
lemma setCdr (hs : V.Seals h) (ha : V.Shows h a) (hv : V.Shows h v) :
    ((setCdr a v : HeapM ε Unit) h).Safe R V h := by
  refine ends_expect fun d p hr hp => ?_
  cases d with
  | pair x y =>
    obtain rfl := Option.some.inj hp
    have hobj : h.object? a = some (.pair x y) := object?_eq_some.mpr ⟨cells_of_read hr, rfl⟩
    refine ⟨.overwrite hs (fun hu hsl => ?_) fun hu => ha.not_draft hu, trivial⟩
    exact .setPair hsl hobj (hsl.open_part hobj (by simp [Datum.parts]))
      (.inr ⟨(hv hu).live, .inr ⟨ha hu, hv hu⟩⟩)
  | _ => simp [Datum.pair?] at hp

end Safe

end ArenaScheme
