/-
# Safe application

The values of a combination are drafts while they are collected, and they are so while the operands
are evaluated.  An evaluation may rely on the drafts making up proper lists and on the hidden slots
holding drafts; so not even the list of an unfinished combination leads to a binding.

Entering a closure makes bindings of the drafts, or gives some of them away in a list of remaining
arguments; calling a built-in procedure gives all of them away.
-/
import ArenaScheme.Eval.Application
import ArenaScheme.Proofs.Seclusion.Procedures

namespace ArenaScheme

open Heap HeapM

/-! ## What an evaluation relies on -/

/-- The drafts make up proper lists, and the hidden slots hold drafts. -/
structure Veil.Tidy (V : Veil) (h : Heap) : Prop where
  tails : ∀ c ∈ V.cells, ∀ a b, h.object? c = some (.pair a b) → b = .emptyList ∨ b ∈ V.cells
  slots : ∀ i ∈ V.slots, ∀ v, h.roots[i]? = some v → v ∈ V.cells

/-- The keywords that are put into lists may be given away. -/
structure Veil.Speaks (V : Veil) (h : Heap) (kw : Keywords) : Prop where
  quote : V.Shows h kw.quote
  quasiquote : V.Shows h kw.quasiquote
  lambda : V.Shows h kw.lambda
  definition : V.Shows h kw.definition

instance : Exhibit Keywords where
  shown V h kw := V.Speaks h kw
  mono hk hs :=
    ⟨hk.shows hs.quote, hk.shows hs.quasiquote, hk.shows hs.lambda, hk.shows hs.definition⟩

/-- What an evaluation relies on when it begins. -/
structure Veil.Ready (V : Veil) (kw : Keywords) (h : Heap) : Prop where
  seals : V.Seals h
  tidy : h.Unswept → V.Tidy h
  speaks : V.Speaks h kw

/-- An evaluator that is safe wherever it may be called. -/
def Sheltering (kw : Keywords) (R : Prop) (nested : Nested) : Prop :=
  ∀ (V : Veil) (h : Heap) (expr : Handle), V.Ready kw h → V.Shows h expr →
    (nested expr h).Safe R V h

variable {ε α : Type} {R : Prop} {U V W : Veil} {h k : Heap} {l l' : List Handle}
  {a b c f u v first last : Handle} {kw : Keywords} {nested : Nested}

namespace Heap

/-! ## Lists under construction -/

lemma Spine.tail_mem (hl : h.Spine l v) (hc : c ∈ l) (hp : h.object? c = some (.pair a b)) :
    b = .emptyList ∨ b ∈ l := by
  induction l generalizing v with
  | nil => simp at hc
  | cons x l ih =>
    obtain ⟨rfl, x, y, hx, hl⟩ := hl
    rcases List.mem_cons.mp hc with rfl | hc
    · rw [hx] at hp
      obtain ⟨-, rfl⟩ := Datum.pair.inj (Option.some.inj hp)
      cases l with
      | nil => exact .inl hl
      | cons z l => exact .inr (List.mem_cons_of_mem _ (hl.1 ▸ List.mem_cons_self))
    · exact (ih hl hc).imp_right (List.mem_cons_of_mem _)

/-- Linking a pair to the end of a list. -/
lemma Spine.snoc (hn : h.object? .emptyList = some .emptyList) {pre : List Handle}
    (hl : h.Spine (pre ++ [last]) v) (hr : h.Rewritten last (.pair a c) k)
    (hc : k.object? c = some (.pair b .emptyList)) : k.Spine (pre ++ [last] ++ [c]) v := by
  induction pre generalizing v with
  | nil =>
    obtain ⟨rfl, -⟩ := hl
    exact ⟨rfl, a, c, hr.self, rfl, b, _, hc, rfl⟩
  | cons x pre ih =>
    have hnd := hl.nodup hn
    obtain ⟨rfl, y, z, hp, hl⟩ := hl
    have hne : v ≠ last := by
      rintro rfl
      simp at hnd
    exact ⟨rfl, y, z, by rw [hr.other hne]; exact hp, ih hl⟩

end Heap

namespace Veil

lemma Ready.keeps (hr : V.Ready kw h) (hk : V.Keeps h k) : V.Ready kw k where
  seals := hk.seals
  tidy hu :=
    { tails := fun c hc a b hp =>
        (hr.tidy (hk.unswept hu)).tails c hc a b (by rw [← hk.fixed hu c hc]; exact hp)
      slots := fun i hi v hv =>
        (hr.tidy (hk.unswept hu)).slots i hi v (by rw [← hk.held hu i hi]; exact hv) }
  speaks := Exhibit.mono (α := Keywords) hk hr.speaks

/-- A list that is being extended. -/
lemma Ready.extend (hr : (V.draft l).Ready kw h) (hk : Advance V (V.draft l) h (V.draft l') k)
    (hl : V.Drafts l' k v) (hsub : l ⊆ l') : (V.draft l').Ready kw k where
  seals := hk.seals
  tidy hu := by
    have ht := hr.tidy (hk.unswept hu)
    have hmono : ∀ {c}, c ∈ (V.draft l).cells → c ∈ (V.draft l').cells :=
      fun hc => hc.imp_right fun hm => hsub hm
    refine ⟨fun c hc a b hp => ?_, fun i hi v hv => ?_⟩
    · rcases hc with hc | hc
      · rw [hk.fixed hu c hc] at hp
        exact (ht.tails c (.inl hc) a b hp).imp_right hmono
      · exact ((hl.spine hu).tail_mem hc hp).imp_right .inr
    · rw [hk.held hu i hi] at hv
      exact hmono (ht.slots i hi v hv)
  speaks := Exhibit.mono (α := Keywords) hk hr.speaks

/-- Holding a draft in a slot of its own. -/
lemma Ready.hide (hr : V.Ready kw h) (hv : v ∈ V.cells) :
    (V.hide h.roots.size).Ready kw { h with roots := h.roots.push v } where
  seals := (Advance.push_hidden hr.seals v).seals
  tidy hu := by
    refine ⟨(hr.tidy hu).tails, fun i hi u hu' => ?_⟩
    simp only [Array.getElem?_push] at hu'
    split at hu'
    · rwa [← Option.some.inj hu']
    · next hne => exact (hr.tidy hu).slots i (hi.resolve_left hne) u hu'
  speaks := Exhibit.mono (α := Keywords) (Advance.push_hidden hr.seals v) hr.speaks

lemma Drafts.of_cells (hl : V.Drafts l h v) (hc : k.cells = h.cells) (hu : k.Unswept → h.Unswept)
    (hW : W.cells = V.cells) : W.Drafts l k v where
  spine hk := (hl.spine (hu hk)).of_cells hc
  fresh hk c hm := by
    rw [hW]
    exact hl.fresh (hu hk) c hm

end Veil

/-- Linking a new pair to the end of a list under construction. -/
lemma Veil.Drafts.link {pre : List Handle} {m : Heap} (hl : V.Drafts (pre ++ [last]) h first)
    (hs : (V.draft (pre ++ [last])).Seals h) (hk : k.Unswept → h.Unswept)
    (hm : m.Unswept → k.Unswept) (hn : k.Unswept → h.object? c = none)
    (hc : k.Unswept → h.Rewritten c (.pair v .emptyList) k)
    (hlast : k.Rewritten last (.pair a c) m) : V.Drafts (pre ++ [last] ++ [c]) m first := by
  have hne : ∀ {u}, k.Unswept → (∃ d, h.object? u = some d) → u ≠ c := by
    rintro u hu ⟨d, hd⟩ rfl
    rw [hn hu] at hd
    simp at hd
  refine ⟨fun hu => ?_, fun hu u hm' => ?_⟩
  · have hsp := hl.spine (hk (hm hu))
    have hrc := hc (hm hu)
    have hnil : k.object? .emptyList = some .emptyList := by
      rw [hrc.other (hne (hm hu) ⟨_, (hs (hk (hm hu))).emptyList⟩)]
      exact (hs (hk (hm hu))).emptyList
    obtain ⟨x, y, hp⟩ := hsp.pair_of_mem (c := last) (by simp)
    refine (hsp.fresh (hn (hm hu)) hrc).snoc hnil hlast (b := v) ?_
    rw [hlast.other (hne (hm hu) ⟨_, hp⟩).symm]
    exact hrc.self
  · rcases List.mem_append.mp hm' with hm' | hm'
    · exact hl.fresh (hk (hm hu)) u hm'
    · obtain rfl := List.mem_singleton.mp hm'
      exact fun hV => (hs (hk (hm hu))).not_draft (hn (hm hu)) (.inl hV)

/-! ## Holding a list under construction -/

section Holding

variable {w : Handle}

/-- Releasing a slot that has been kept to oneself. -/
lemma Advance.unhide (hs : (V.draft l).Seals h)
    (hk : Advance (V.hide h.roots.size) ((V.hide h.roots.size).draft l)
      { h with roots := h.roots.push w } ((V.hide h.roots.size).draft l') k)
    (hsize : k.roots.size = h.roots.size + 1) :
    Advance V ((V.hide h.roots.size).draft l') k (V.draft l') { k with roots := k.roots.pop } :=
  .pop_back hs hk.seals hk.unswept rfl rfl (.inr rfl) subset_rfl hsize

/-- What is done while an object is held in a slot that is kept to oneself. -/
lemma Advance.through (hs : (V.draft l).Seals h)
    (hk : Advance (V.hide h.roots.size) ((V.hide h.roots.size).draft l)
      { h with roots := h.roots.push w } ((V.hide h.roots.size).draft l') k)
    (hsize : k.roots.size = h.roots.size + 1) :
    Advance V (V.draft l) h (V.draft l') { k with roots := k.roots.pop } :=
  (((Advance.push_hidden hs w).mono (V.le_draft l)).trans (hk.mono (V.le_hide _))).trans
    (.unhide hs hk hsize)

/-- The same if the list is published in the meantime. -/
lemma Advance.through_published [Exhibit α] {x : α} (hs : (V.draft l).Seals h)
    (hk : Advance (V.hide h.roots.size) ((V.hide h.roots.size).draft l)
      { h with roots := h.roots.push w } (V.hide h.roots.size) k)
    (hx : Exhibit.shown (V.hide h.roots.size) k x) (hsize : k.roots.size = h.roots.size + 1) :
    Advance V (V.draft l) h V { k with roots := k.roots.pop } ∧
      Exhibit.shown V { k with roots := k.roots.pop } x := by
  have hk' : Advance (V.hide h.roots.size) ((V.hide h.roots.size).draft l)
      { h with roots := h.roots.push w } ((V.hide h.roots.size).draft []) k := by
    rw [Veil.draft_nil]
    exact hk
  have hthrough := Advance.through hs hk' hsize
  have hpop := Advance.unhide hs hk' hsize
  rw [Veil.draft_nil] at hthrough hpop
  rw [Veil.draft_nil] at hpop
  exact ⟨hthrough, Exhibit.mono hpop hx⟩

end Holding

/-- Two lists for a new frame: the names may be given away, and the values are drafts. -/
def Veil.Binding (V W : Veil) (h : Heap) (lists : Handle × Handle) (k : Heap) : Prop :=
  ∃ l, Advance V W h (V.draft l) k ∧ V.Drafts l k lists.2 ∧ (V.draft l).Shows k lists.1

/-- What has become of an action that publishes the drafts `l`. -/
abbrev Outcome.Sheds [Exhibit ε] [Exhibit α] (R : Prop) (V : Veil) (l : List Handle) (h : Heap)
    (o : Outcome ε α) : Prop :=
  o.Ends R (fun a k => Advance V (V.draft l) h V k ∧ Exhibit.shown V k a)
    fun e k => Advance V (V.draft l) h V k ∧ Exhibit.shown V k e

/-- Whatever is safe may be followed by publishing the drafts. -/
lemma Outcome.Ends.sheds [Exhibit ε] [Exhibit α] {o : Outcome ε α} (ho : o.Safe R (V.draft l) h) :
    o.Sheds R V l h := by
  exact ho.mono (fun _ _ ha => (ha.1.mono (V.le_draft l)).publishes ha.2)
    fun _ _ he => (he.1.mono (V.le_draft l)).publishes he.2

namespace Safe

open Application

/-! ## Evaluating a combination -/

/-- Evaluating operands extends the list of values. -/
lemma evalOperands (hn : Sheltering kw R nested) (budget : Nat) {pre : List Handle}
    {operands : Handle} (hr : (V.draft (pre ++ [last])).Ready kw h)
    (hl : V.Drafts (pre ++ [last]) h first) (ho : (V.draft (pre ++ [last])).Shows h operands) :
    ((evalOperands nested budget last operands) h).Ends R
      (fun _ k => ∃ l, Advance V (V.draft (pre ++ [last])) h (V.draft l) k ∧ V.Drafts l k first)
      fun e k => Advance V (V.draft (pre ++ [last])) h V k ∧ Exhibit.shown V k e := by
  induction budget generalizing h pre last operands with
  | zero => exact ends_halt (by simp)
  | succ budget ih =>
    refine ends_asPair (ends_ite (fun _ => ?_) fun _ => ?_) fun expr rest hp => ?_
    · exact ⟨_, .refl hr.seals, hl⟩
    · exact (ends_raise hr.seals _ _).mono (fun _ _ => id)
        fun _ _ he => (he.1.mono (V.le_draft _)).publishes he.2
    have hexpr : (V.draft (pre ++ [last])).Shows h expr := fun hu =>
      (hr.seals hu).open_part hp (by simp [Datum.parts])
    have hrest : (V.draft (pre ++ [last])).Shows h rest := fun hu =>
      (hr.seals hu).open_tail (ho hu) hp
    refine ends_bind ((hn _ h expr hr hexpr).mono (fun _ _ => id)
      fun _ _ he => (he.1.mono (V.le_draft _)).publishes he.2) fun v k hv => ?_
    obtain ⟨hk, hv⟩ := hv
    refine ends_bind ((cons_draft hk.seals hv fun hu => ⟨_, (hk.seals hu).emptyList⟩).mono
      (fun _ _ => id) fun _ _ he => ((hk.trans he.1).mono (V.le_draft _)).publishes he.2)
      fun cell m hc => ?_
    obtain ⟨hm, hcell⟩ := hc
    rw [Veil.draft_snoc] at hm
    have hlast : last ∈ pre ++ [last] := by simp
    have hlk : V.Drafts (pre ++ [last]) k first := hl.advance hk
    refine ends_bind (ends_setCdr_draft (U := V) hm.seals (fun _ => Veil.mem_draft (by simp))
      (fun hu => ⟨_, (hcell hu).2.self⟩)
      fun hu => hl.fresh (hk.unswept (hm.unswept hu)) last hlast) fun _ n hn' => ?_
    obtain ⟨hn', x, y, -, hrw⟩ := hn'
    have hstep : Advance V (V.draft (pre ++ [last])) h (V.draft (pre ++ [last] ++ [cell])) n :=
      ((hk.trans hm).mono (V.le_draft _)).trans hn'
    have hdraft : V.Drafts (pre ++ [last] ++ [cell]) n first :=
      hlk.link hk.seals hm.unswept hn'.unswept (fun hu => (hcell hu).1) (fun hu => (hcell hu).2) hrw
    have hready : (V.draft (pre ++ [last] ++ [cell])).Ready kw n :=
      hr.extend hstep hdraft (List.subset_append_left _ _)
    refine (ih hready hdraft (hn'.shows (hm.shows (hk.shows hrest)))).mono (fun _ _ => ?_)
      fun _ _ he => ⟨hstep.trans he.1, he.2⟩
    rintro ⟨l, hk', hl'⟩
    exact ⟨l, hstep.trans hk', hl'⟩

/-- The values of a combination make up a new list. -/
lemma evalCombination (hn : Sheltering kw R nested) (budget : Nat) {operator operands : Handle}
    (hr : V.Ready kw h) (hop : V.Shows h operator) (ho : V.Shows h operands) :
    ((evalCombination nested budget operator operands) h).Ends R (V.Drafted h)
      fun e k => V.Keeps h k ∧ Exhibit.shown V k e := by
  refine ends_bind (hn V h operator hr hop) fun v k hv => ?_
  obtain ⟨hk, hv⟩ := hv
  refine ends_bind ((cons_draft hk.seals hv fun hu => ⟨_, (hk.seals hu).emptyList⟩).mono
    (fun _ _ => id) fun _ _ he => ⟨hk.trans he.1, he.2⟩) fun first m hc => ?_
  obtain ⟨hm, hcell⟩ := hc
  have hfirst : V.Drafts [first] m first := by
    refine ⟨fun hu => ⟨rfl, v, _, (hcell hu).2.self, rfl⟩, fun hu c hc => ?_⟩
    obtain rfl := List.mem_singleton.mp hc
    exact (hk.seals (hm.unswept hu)).not_draft (hcell hu).1
  have hready : (V.draft [first]).Ready kw m :=
    Veil.Ready.extend (l := []) (by rw [Veil.draft_nil]; exact hr.keeps hk)
      (by rw [Veil.draft_nil]; exact hm) hfirst (List.nil_subset _)
  have hpush := Advance.push_hidden hready.seals first
  have hbody : ((do
      Application.evalOperands nested budget first operands
      HeapM.contents ⟨m.roots.size⟩ : EvalM Handle) { m with roots := m.roots.push first }).Ends R
      (fun call n => ∃ l, Advance (V.hide m.roots.size) ((V.draft [first]).hide m.roots.size)
        { m with roots := m.roots.push first } ((V.draft l).hide m.roots.size) n ∧
        (V.hide m.roots.size).Drafts l n call)
      fun e n => Advance (V.hide m.roots.size) ((V.draft [first]).hide m.roots.size)
        { m with roots := m.roots.push first } (V.hide m.roots.size) n ∧
        Exhibit.shown (V.hide m.roots.size) n e := by
    have hready' : ((V.hide m.roots.size).draft ([] ++ [first])).Ready kw
        { m with roots := m.roots.push first } := hready.hide (Veil.mem_draft (by simp))
    refine ends_bind (evalOperands hn budget hready' (hfirst.of_cells rfl id rfl)
      (hpush.shows (hm.shows (hk.shows ho)))) fun _ n hl => ?_
    obtain ⟨l, hn', hl⟩ := hl
    rw [HeapM.contents]
    cases hv : n.roots[m.roots.size]? with
    | none => exact fun he => absurd he (by simp)
    | some call =>
      -- the slot has been left alone, so it still holds the first pair
      refine ⟨l, hn', fun hu => ?_, hl.fresh⟩
      have hheld := hn'.held hu m.roots.size (Set.mem_insert _ _)
      rw [hv] at hheld
      simp only [Array.getElem?_push_size, Option.some.injEq] at hheld
      exact hheld ▸ hl.spine hu
  refine ends_rooted hbody (fun call n hcall hsize => ?_) fun e n he hsize => ?_
  · obtain ⟨l, hn', hl⟩ := hcall
    have hthrough := Advance.through hready.seals hn' hsize
    exact ⟨l, (hk.trans hm).trans hthrough, hl.of_cells rfl id rfl⟩
  · obtain ⟨hthrough, he⟩ := Advance.through_published hready.seals he.1 he.2 hsize
    exact ⟨(hk.trans hm).trans hthrough, he⟩

/-! ## Binding parameters -/

/-- The elements of the arguments are open, and so is a rest of an open list. -/
lemma ends_splitArguments {P : List Handle × Handle → Heap → Prop} {E : Handle → Heap → Prop}
    (hs : V.Seals h) (n : Nat) {args : Handle} (ha : V.Shows h args)
    (hP : ∀ parts : List Handle × Handle, Exhibit.shown V h parts → P parts h) :
    ((splitArguments n args) h).Ends R P E := by
  induction n generalizing args P with
  | zero => exact hP _ ⟨by simp [Exhibit.shown], ha⟩
  | succ n ih =>
    refine ends_asPair (ends_halt (by simp)) fun arg rest hp => ?_
    have harg : V.Shows h arg := fun hu => (hs hu).open_part hp (by simp [Datum.parts])
    have hrest : V.Shows h rest := fun hu => (hs hu).open_tail (ha hu) hp
    refine ends_bind (ih hrest (P := fun parts k => k = h ∧ Exhibit.shown V h parts)
      fun parts hparts => ⟨rfl, hparts⟩) fun parts k hk => ?_
    obtain ⟨rfl, hparts⟩ := hk
    refine hP _ ⟨fun v hv => ?_, hparts.2⟩
    rcases List.mem_cons.mp hv with rfl | hv
    · exact harg
    · exact hparts.1 v hv

/-- New lists of names and of values. -/
lemma pairUp (hs : V.Seals h) {names values : List Handle} (hn : ∀ v ∈ names, V.Shows h v)
    (hv : ∀ v ∈ values, V.Shows h v) :
    ((pairUp names values) h).Ends R (V.Binding V h) fun e k => V.Keeps h k ∧
      Exhibit.shown V k e := by
  refine ends_bind (list hs hn) fun ns k hk => ?_
  obtain ⟨hk, hns⟩ := hk
  have hpush : V.Keeps k { k with roots := k.roots.push ns } := .push hk.seals hns
  have hbody : ((do
      let values ← HeapM.list values
      return (ns, values) : EvalM (Handle × Handle)) { k with roots := k.roots.push ns }).Ends R
      (fun p m => p.1 = ns ∧ V.Drafted { k with roots := k.roots.push ns } p.2 m)
      fun e m => V.Keeps { k with roots := k.roots.push ns } m ∧ V.Shows m e :=
    ends_bind (list_draft hpush.seals fun v hm => hpush.shows (hk.shows (hv v hm)))
      fun vs m hm => ⟨rfl, hm⟩
  refine ends_rooted hbody (fun p m hm hsize => ?_) fun e m he hsize => ?_
  · obtain ⟨rfl, l, hm, hl⟩ := hm
    have hm := hpush.trans hm
    have hpop : Advance (V.draft l) (V.draft l) m (V.draft l) { m with roots := m.roots.pop } :=
      .pop_back hk.seals hm.seals hm.unswept rfl rfl (.inl rfl) subset_rfl hsize
    have hall := (hk.trans hm).trans (hpop.mono (V.le_draft l))
    exact ⟨l, hall, hl.advance hpop, hpop.shows (hm.shows hns)⟩
  · have hm := hpush.trans he.1
    have hpop : V.Keeps m { m with roots := m.roots.pop } :=
      .pop_back hk.seals hm.seals hm.unswept rfl rfl (.inl rfl) subset_rfl hsize
    exact ⟨(hk.trans hm).trans hpop, hpop.shows he.2⟩

lemma bindParameters (hs : (V.draft l).Seals h) {params args : Handle} (hl : V.Drafts l h args)
    (hp : (V.draft l).Shows h params) :
    ((bindParameters params args) h).Ends R (V.Binding (V.draft l) h)
      fun e k => Advance V (V.draft l) h V k ∧ Exhibit.shown V k e := by
  have hpub : Advance V (V.draft l) h V h := .publish hs
  have hargs : V.Shows h args := hl.shows hs
  have hraise : ∀ message, ((HeapM.raise .arity message : EvalM (Handle × Handle)) h).Ends R
      (V.Binding (V.draft l) h) fun e k => Advance V (V.draft l) h V k ∧ Exhibit.shown V k e :=
    fun message => (ends_raise hpub.seals _ _).mono (fun _ _ => id)
      fun _ _ he => ⟨hpub.trans he.1, he.2⟩
  have hpair : ∀ {ns vs : List Handle}, (∀ v ∈ ns, V.Shows h v) → (∀ v ∈ vs, V.Shows h v) →
      ((Application.pairUp ns vs) h).Ends R (V.Binding (V.draft l) h)
        fun e k => Advance V (V.draft l) h V k ∧ Exhibit.shown V k e := fun hns hvs => by
    refine (pairUp hpub.seals hns hvs).mono (fun p k hk => ?_) fun _ _ he => ⟨hpub.trans he.1, he.2⟩
    obtain ⟨l', hk, hl', hn⟩ := hk
    exact ⟨l', hpub.trans hk, hl', hn⟩
  refine ends_length fun given => ends_length fun wanted => ?_
  cases wanted with
  | some wanted =>
    exact ends_ite (fun _ => ⟨l, .refl hs, hl, hp⟩) fun _ => hraise _
  | none =>
    refine ends_hasType fun d _ => ends_ite (fun _ => ?_) fun _ => ?_
    · exact hpair (by simpa using hpub.shows hp) (by simpa using hargs)
    · refine ends_walkSpine hpub.seals (hpub.shows hp) fun w hvisited hending => ?_
      refine ends_ite (fun _ => hraise _) fun _ => ?_
      refine ends_bind (ends_splitArguments (P := fun parts k => k = h ∧ Exhibit.shown V h parts)
        hpub.seals _ hargs fun parts hparts => ⟨rfl, hparts⟩) fun parts k hk => ?_
      obtain ⟨rfl, hparts⟩ := hk
      refine hpair (fun v hv => ?_) fun v hv => ?_
      · rcases List.mem_append.mp hv with hv | hv
        · exact hvisited v hv
        · obtain rfl := List.mem_singleton.mp hv
          cases he : w.ending with
          | some u => exact hending u he
          | none => exact fun hu => (hpub.seals hu).open_sentinel (by decide)
      · rcases List.mem_append.mp hv with hv | hv
        · exact hparts.1 v hv
        · exact List.mem_singleton.mp hv ▸ hparts.2

/-! ## Applying -/

/-- A new frame for drafts. -/
lemma pushFrame (hs : (V.draft l).Seals h) {names values : Handle} (hl : V.Drafts l h values)
    (hn : (V.draft l).Shows h names) : ((pushFrame names values) h).Sheds R V l h := by
  have hcur : h.Unswept → h.IsFrame h.currentEnv := fun hu => (hs hu).current
  have hnew : ((makeFrame (some h.currentEnv) names values) h).Ends R
      (fun f k => Advance V (V.draft l) h V k ∧ (k.Unswept → k.IsFrame f))
      fun e k => Advance V (V.draft l) h V k ∧ Exhibit.shown V k e := by
    refine (ends_alloc (W := fun _ => V) hs rfl fun f k hu hsl hnone hr => ?_).mono
      (fun f k hk => ⟨hk.1.mono (V.le_draft l), fun hu => ⟨_, _, _, (hk.2 hu).2.self⟩⟩)
      fun e k he => (he.1.mono (V.le_draft l)).publishes he.2
    refine .fresh hsl hnone hr (fun c hc => ?_) (fun c hc => ?_) (fun c hc => .inl (.inl hc)) rfl
      (fun p n w hd => ?_) (by simp)
    · simp only [Datum.children, Option.toList_some, List.cons_append, List.nil_append,
        List.mem_cons, List.not_mem_nil, or_false] at hc
      rcases hc with rfl | rfl | rfl
      · exact (hcur hu).live
      · exact (hn hu).live
      · exact hl.live hs hu
    · simp only [Datum.parts, Option.toList_some, List.cons_append, List.nil_append, List.mem_cons,
        List.not_mem_nil, or_false] at hc
      rcases hc with rfl | rfl
      · exact (hsl.open_frame (hcur hu)).not_hidden
      · exact (hn hu).not_hidden
    · obtain ⟨rfl, rfl, rfl⟩ := Datum.frame.inj hd
      exact ⟨⟨_, rfl, hcur hu⟩, l, hl.spine hu, fun c hc => ⟨Veil.mem_draft hc, hl.fresh hu c hc⟩⟩
  refine ends_bind (P := fun env k => k = h ∧ env = h.currentEnv) ⟨rfl, rfl⟩ fun env k hk => ?_
  obtain ⟨rfl, rfl⟩ := hk
  refine ends_bind hnew fun f m hm => ?_
  have hsw : V.Keeps m { m with currentEnv := f } := .switchEnv hm.1.seals hm.2
  exact ⟨hm.1.trans hsw, fun hu => (hsw.seals hu).open_frame (hsw.frames hu f (hm.2 hu))⟩

/-- Holding an object in a slot that is kept to oneself. -/
lemma concealing [Exhibit α] {x : EvalM α} (hs : (V.draft l).Seals h) (v : Handle)
    (hx : ∀ n k, Advance (V.draft l) (V.draft l) h ((V.hide n).draft l) k → k.cells = h.cells →
      (x k).Sheds R (V.hide n) l k) : ((HeapM.rooted v fun _ => x) h).Sheds R V l h := by
  exact ends_rooted (hx _ _ (.push_hidden hs v) rfl)
    (fun _ _ ha => Advance.through_published hs ha.1 ha.2)
    fun _ _ he => Advance.through_published hs he.1 he.2

lemma applyClosure (hs : (V.draft l).Seals h) {env params body args : Handle}
    (hl : V.Drafts l h args) (henv : h.Unswept → h.IsFrame env)
    (hp : (V.draft l).Shows h params) (hb : (V.draft l).Shows h body) :
    ((applyClosure env params body args) h).Sheds R V l h := by
  refine ends_bind (bindParameters hs hl hp) fun lists k hk => ?_
  obtain ⟨names, values⟩ := lists
  obtain ⟨l', hk, hl', hn⟩ := hk
  have henter : ((HeapM.rooted names fun _ => HeapM.rooted values fun _ => do
      HeapM.setCurrentEnv env
      let _ ← HeapM.pushFrame names values : EvalM Unit) k).Sheds R V l' k := by
    refine concealing hk.seals names fun n m hm hcells =>
      concealing hm.seals values fun n' m' hm' hcells' => ?_
    have hlm : ((V.hide n).hide n').Drafts l' m' values :=
      hl'.of_cells (hcells'.trans hcells) (fun hu => hm.unswept (hm'.unswept hu)) rfl
    have hset : ((HeapM.setCurrentEnv env : EvalM Unit) m').Safe R _ m' :=
      setCurrentEnv hm'.seals fun hu => hm'.frames hu env (hm.frames (hm'.unswept hu) env
        (hk.frames (hm.unswept (hm'.unswept hu)) env
          (henv (hk.unswept (hm.unswept (hm'.unswept hu))))))
    refine ends_bind (hset.mono (fun _ _ => id) fun e _ he =>
      (he.1.mono (Veil.le_draft _ _)).publishes (x := e) he.2) fun _ m'' hm'' => ?_
    have hpush := pushFrame (R := R) (V := (V.hide n).hide n') hm''.1.seals (hlm.advance hm''.1)
      (hm''.1.shows (hm'.shows (hm.shows hn)))
    refine ends_bind (hpush.mono (fun _ _ => id) fun _ _ he =>
      ⟨(hm''.1.mono (Veil.le_draft _ _)).trans he.1, he.2⟩) fun f i hi => ?_
    exact ⟨(hm''.1.mono (Veil.le_draft _ _)).trans hi.1, trivial⟩
  refine ends_bind
    (henter.mono (fun _ _ => id) fun _ _ he => ⟨hk.trans he.1, he.2⟩) fun _ m hm => ?_
  exact ⟨hk.trans hm.1, hm.1.shows (hk.shows hb)⟩

/-- Applying an object to a list of drafts.  There are no procedures of the host. -/
lemma apply (hs : (V.draft l).Seals h) {procedure args : Handle} (hl : V.Drafts l h args) :
    ((apply #[] procedure args) h).Sheds R V l h := by
  refine ends_datum fun d hd => ?_
  cases d with
  | foreign name code =>
    refine Outcome.Ends.sheds ?_
    cases code with
    | builtin b =>
      refine bind (recover (fun _ _ => id) (call hs b args)) fun v k hk hv => ?_
      exact failing hk.seals hv (pure hk.seals hv)
    | host slot =>
      have hnone : callNative #[] (.host slot) args = halt (.outOfRange 0 slot) := by
        simp [callNative]
      refine ends_bind (P := fun _ _ => False) ?_ fun _ _ hf => hf.elim
      rw [hnone]
      exact fun he => absurd he (by simp)
  | closure env params body =>
    have hobj : h.object? procedure = some (.closure env params body) :=
      object?_eq_some.mpr ⟨cells_of_read hd, rfl⟩
    exact applyClosure hs hl (fun hu => (hs hu).captured _ _ _ _ hobj)
      (fun hu => (hs hu).open_part hobj (by simp [Datum.parts]))
      fun hu => (hs hu).open_part hobj (by simp [Datum.parts])
  | _ => exact (raise hs _ _).sheds

lemma ofCombination (hn : Sheltering kw R nested) (budget : Nat) {operator operands : Handle}
    (hr : V.Ready kw h) (hop : V.Shows h operator) (ho : V.Shows h operands) :
    ((ofCombination #[] nested budget operator operands) h).Safe R V h := by
  refine ends_bind (evalCombination hn budget hr hop ho) fun call k hk => ?_
  obtain ⟨l, hk, hl⟩ := hk
  refine (concealing hk.seals call fun n m hm hcells => ?_).mono
    (fun _ _ ha => ⟨hk.trans ha.1, ha.2⟩) fun _ _ he => ⟨hk.trans he.1, he.2⟩
  refine ends_expect fun d p hd hp => ?_
  cases d with
  | pair procedure args =>
    obtain rfl := Option.some.inj hp
    have hobj : m.object? call = some (.pair procedure args) :=
      object?_eq_some.mpr ⟨cells_of_read hd, rfl⟩
    have hlm : (V.hide n).Drafts l m call := hl.of_cells hcells hm.unswept rfl
    -- the first pair is of no use any more
    have hun : Advance (V.hide n) ((V.hide n).draft l) m ((V.hide n).draft l.tail) m :=
      .unveil hm.seals (Set.union_subset_union_right _ fun c hc => List.mem_of_mem_tail hc) rfl
    have hargs : (V.hide n).Drafts l.tail m args := by
      refine ⟨fun hu => ?_, fun hu c hc => hlm.fresh hu c (List.mem_of_mem_tail hc)⟩
      have hsp := hlm.spine hu
      cases l with
      | nil =>
        obtain rfl : call = .emptyList := hsp
        rw [(hm.seals hu).emptyList] at hobj
        simp at hobj
      | cons c l =>
        obtain ⟨rfl, a, b, hp, hsp⟩ := hsp
        rw [hobj] at hp
        obtain ⟨-, rfl⟩ := Datum.pair.inj (Option.some.inj hp)
        exact hsp
    exact (apply hun.seals hargs).mono (fun _ _ ha => ⟨hun.trans ha.1, ha.2⟩)
      fun _ _ he => ⟨hun.trans he.1, he.2⟩
  | _ => simp [Datum.pair?] at hp

end Safe

end ArenaScheme
