/-
# Bindings in the heap

The bindings of a frame are the pairs of its list of values.  A program that got hold of such a pair
could change a variable with `set-car!`, or the variables of a frame with `set-cdr!`.  Here is the
invariant that keeps bindings out of its reach, and what one change of the heap has to do to
preserve it.

Some pairs are yet to become bindings: the values of a combination are collected in a list, and the
frame that is made for a call takes the tail of that list as it is.  Such pairs are *drafts*, and a
*veil* says which cells are drafts at present and which root slots hold them.  A pair is *hidden* if
it is a draft or a binding, or if it leads to one by its tail, as the first pair of the list of a
combination does.  The invariant is that hidden pairs are referred to by nothing but the tails of
hidden pairs and by frames, as their lists of values.

The invariant holds as long as there is no collection.  After a collection, cells are used again,
and nothing is said about heaps that have seen one.
-/
import Mathlib.Data.Set.Insert
import ArenaScheme.Proofs.Discipline.Edits

namespace ArenaScheme

/-- What an object refers to, but for the tail of a pair and the list of values of a frame. -/
def Datum.parts : Datum → List Handle
  | pair car _ => [car]
  | closure env params body => [env, params, body]
  | frame parent names _ => parent.toList ++ [names]
  | _ => []

lemma Datum.parts_subset_children (d : Datum) : d.parts ⊆ d.children := by
  cases d with
  | pair a b => simp [parts, children]
  | closure e p b => simp [parts, children]
  | frame p n w =>
    intro v hv
    simp only [parts, children, List.mem_append, List.mem_cons] at hv ⊢
    tauto
  | _ => simp [parts]

/-- Sentinels refer to nothing. -/
lemma Heap.children_of_mem_sentinels {d : Datum} (hd : d ∈ Heap.sentinels) : d.children = [] := by
  simp only [Heap.sentinels, List.mem_cons, List.not_mem_nil, or_false] at hd
  rcases hd with rfl | rfl | rfl | rfl <;> rfl

/-- What evaluations under way keep to themselves: the pairs of unfinished lists, and the root slots
that hold them. -/
structure Veil where
  cells : Set Handle
  slots : Set Nat

namespace Heap

/-! ## Spines and bindings -/

/-- The proper list `v` consists of the pairs `l`. -/
def Spine (h : Heap) : List Handle → Handle → Prop
  | [], v => v = .emptyList
  | c :: l, v => v = c ∧ ∃ a b, h.object? c = some (.pair a b) ∧ Spine h l b

/-- The pair `c` of the list of values of `f` is one of its bindings. -/
def Binds (h : Heap) (f c : Handle) : Prop :=
  ∃ p names values l, h.object? f = some (.frame p names values) ∧ h.Spine l values ∧ c ∈ l

/-- There is a frame in the cell. -/
def IsFrame (h : Heap) (f : Handle) : Prop :=
  ∃ p names values, h.object? f = some (.frame p names values)

/-- The parents of a frame, one after the other, lead to the base frame. -/
inductive Chained (h : Heap) : Handle → Prop
  | base {names values : Handle}
      (hf : h.object? h.baseEnv = some (.frame none names values)) : Chained h h.baseEnv
  | child {f p names values : Handle} (hf : h.object? f = some (.frame (some p) names values))
      (hp : Chained h p) : Chained h f

/-- The drafts `C`, all bindings, and the pairs that lead to them by their tails. -/
inductive Hidden (h : Heap) (C : Set Handle) : Handle → Prop
  | draft {c : Handle} (hc : c ∈ C) : Hidden h C c
  | binding {f c : Handle} (hb : h.Binds f c) : Hidden h C c
  | tail {v a b : Handle} (hv : h.object? v = some (.pair a b)) (hb : Hidden h C b) : Hidden h C v

/-- An object that a program may have. -/
structure Open (h : Heap) (C : Set Handle) (v : Handle) : Prop where
  live : ∃ d, h.object? v = some d
  not_hidden : ¬ h.Hidden C v

variable {h k : Heap} {C C' : Set Handle} {V W : Veil} {l l' : List Handle} {c f u v : Handle}
  {d : Datum}

lemma Spine.pair_of_mem (hl : h.Spine l v) (hc : c ∈ l) :
    ∃ a b, h.object? c = some (.pair a b) := by
  induction l generalizing v with
  | nil => simp at hc
  | cons x l ih =>
    obtain ⟨-, a, b, hx, hl⟩ := hl
    rcases List.mem_cons.mp hc with rfl | hc
    · exact ⟨a, b, hx⟩
    · exact ih hl hc

lemma Spine.unique (hn : h.object? .emptyList = some .emptyList) (hl : h.Spine l v)
    (hl' : h.Spine l' v) : l = l' := by
  induction l generalizing l' v with
  | nil =>
    cases l' with
    | nil => rfl
    | cons c l' =>
      obtain ⟨rfl, a, b, hp, -⟩ := hl'
      obtain rfl : v = .emptyList := hl
      rw [hn] at hp
      simp at hp
  | cons c l ih =>
    obtain ⟨rfl, a, b, hp, hl⟩ := hl
    cases l' with
    | nil =>
      obtain rfl : v = .emptyList := hl'
      rw [hn] at hp
      simp at hp
    | cons c' l' =>
      obtain ⟨rfl, a', b', hp', hl'⟩ := hl'
      rw [hp] at hp'
      obtain ⟨-, rfl⟩ := Datum.pair.inj (Option.some.inj hp')
      rw [ih hl hl']

lemma Spine.of_mem (hl : h.Spine l v) (hc : c ∈ l) : ∃ l', l' <:+ l ∧ h.Spine l' c := by
  induction l generalizing v with
  | nil => simp at hc
  | cons x l ih =>
    rcases List.mem_cons.mp hc with rfl | hc
    · obtain ⟨rfl, hp⟩ := hl
      exact ⟨v :: l, List.suffix_refl _, rfl, hp⟩
    · obtain ⟨-, a, b, -, hl⟩ := hl
      obtain ⟨l', hs, hl'⟩ := ih hl hc
      exact ⟨l', hs.trans (List.suffix_cons x l), hl'⟩

/-- A proper list does not come back to one of its pairs. -/
lemma Spine.nodup (hn : h.object? .emptyList = some .emptyList) (hl : h.Spine l v) : l.Nodup := by
  induction l generalizing v with
  | nil => exact List.nodup_nil
  | cons c l ih =>
    obtain ⟨rfl, a, b, hp, hl⟩ := hl
    refine List.nodup_cons.mpr ⟨fun hc => ?_, ih hl⟩
    obtain ⟨l', hs, hl'⟩ := hl.of_mem hc
    have he : v :: l = l' := Spine.unique hn ⟨rfl, a, b, hp, hl⟩ hl'
    have := hs.length_le
    rw [← he, List.length_cons] at this
    omega

/-- A spine depends on the tails of its pairs only. -/
lemma Spine.congr (hl : h.Spine l v)
    (hk : ∀ c ∈ l, ∀ a b, h.object? c = some (.pair a b) → ∃ a', k.object? c = some (.pair a' b)) :
    k.Spine l v := by
  induction l generalizing v with
  | nil => exact hl
  | cons c l ih =>
    obtain ⟨rfl, a, b, hp, hl⟩ := hl
    obtain ⟨a', hp'⟩ := hk v List.mem_cons_self a b hp
    exact ⟨rfl, a', b, hp', ih hl fun c hc => hk c (List.mem_cons_of_mem v hc)⟩

lemma Hidden.mono (hv : h.Hidden C v) (hC : C ⊆ C') : h.Hidden C' v := by
  induction hv with
  | draft hc => exact .draft (hC hc)
  | binding hb => exact .binding hb
  | tail hp _ ih => exact .tail hp ih

lemma Open.mono (hv : h.Open C' v) (hC : C ⊆ C') : h.Open C v :=
  ⟨hv.live, fun hh => hv.not_hidden (hh.mono hC)⟩

/-- Only pairs are hidden. -/
lemma Hidden.pair (hC : ∀ c ∈ C, ∃ a b, h.object? c = some (.pair a b)) (hv : h.Hidden C v) :
    ∃ a b, h.object? v = some (.pair a b) := by
  cases hv with
  | draft hc => exact hC v hc
  | binding hb =>
    obtain ⟨p, names, values, l, -, hl, hm⟩ := hb
    exact hl.pair_of_mem hm
  | tail hp _ => exact ⟨_, _, hp⟩

/-! ## The invariant -/

/-- The invariant, under a veil. -/
structure Sealed (V : Veil) (h : Heap) : Prop where
  attached : ∀ v d, h.object? v = some d → ∀ c ∈ d.children, ∃ e, h.object? c = some e
  parts : ∀ v d, h.object? v = some d → ∀ c ∈ d.parts, ¬ h.Hidden V.cells c
  listed : ∀ f p names values, h.object? f = some (.frame p names values) →
    ∃ l, h.Spine l values
  apart : ∀ f g c, h.Binds f c → h.Binds g c → f = g
  undrafted : ∀ f c, h.Binds f c → c ∉ V.cells
  drafts : ∀ c ∈ V.cells, ∃ a b, h.object? c = some (.pair a b)
  chained : ∀ f, h.IsFrame f → h.Chained f
  captured : ∀ v env params body, h.object? v = some (.closure env params body) → h.IsFrame env
  sentinel : ∀ v : Handle, v.index < regionStart → h.object? v = sentinels[v.index]?
  current : h.IsFrame h.currentEnv
  base : h.IsFrame h.baseEnv
  table : ∀ (name : String) (v : Handle), h.symbols[name]? = some v →
    ∃ n, h.object? v = some (.symbol n)
  slots : ∀ i v, h.roots[i]? = some v → i ∉ V.slots → h.Open V.cells v
  held : ∀ i ∈ V.slots, i < h.roots.size

lemma IsFrame.live (hf : h.IsFrame f) : ∃ d, h.object? f = some d := by
  obtain ⟨p, names, values, hf⟩ := hf
  exact ⟨_, hf⟩

namespace Sealed

lemma emptyList (hs : h.Sealed V) : h.object? .emptyList = some .emptyList :=
  hs.sentinel .emptyList (by decide)

lemma open_of_not_pair (hs : h.Sealed V) (hv : h.object? v = some d)
    (hd : ∀ a b, d ≠ .pair a b) : h.Open V.cells v := by
  refine ⟨⟨d, hv⟩, fun hh => ?_⟩
  obtain ⟨a, b, hp⟩ := hh.pair hs.drafts
  exact hd a b (Option.some.inj (hv.symm.trans hp))

/-- A cell without an object is no draft. -/
lemma not_draft (hs : h.Sealed V) (hv : h.object? v = none) : v ∉ V.cells := fun hm => by
  obtain ⟨a, b, hp⟩ := hs.drafts v hm
  rw [hv] at hp
  simp at hp

lemma open_sentinel (hs : h.Sealed V) (hv : v.index < regionStart) : h.Open V.cells v := by
  have hlen : v.index < sentinels.length := hv
  have hd := hs.sentinel v hv
  rw [List.getElem?_eq_getElem hlen] at hd
  refine hs.open_of_not_pair hd fun a b he => ?_
  have hc := children_of_mem_sentinels (List.getElem_mem hlen)
  rw [he] at hc
  simp [Datum.children] at hc

lemma open_frame (hs : h.Sealed V) (hf : h.IsFrame f) : h.Open V.cells f := by
  obtain ⟨p, names, values, hf⟩ := hf
  exact hs.open_of_not_pair hf (by simp)

/-- The parts of any object are open. -/
lemma open_part (hs : h.Sealed V) (hv : h.object? v = some d) (hc : c ∈ d.parts) :
    h.Open V.cells c :=
  ⟨hs.attached v d hv c (d.parts_subset_children hc), hs.parts v d hv c hc⟩

/-- The tail of an open pair is open. -/
lemma open_tail (hs : h.Sealed V) (hv : h.Open V.cells v) {a b : Handle}
    (hp : h.object? v = some (.pair a b)) : h.Open V.cells b :=
  ⟨hs.attached v _ hp b (by simp [Datum.children]), fun hb => hv.not_hidden (.tail hp hb)⟩

/-- A veil may be taken off some of the drafts, and put on some of the slots. -/
lemma unveil (hs : h.Sealed V) (hc : W.cells ⊆ V.cells) (hslots : V.slots ⊆ W.slots)
    (hheld : ∀ i ∈ W.slots, i < h.roots.size) : h.Sealed W where
  attached := hs.attached
  parts v d hv c hm hh := hs.parts v d hv c hm (hh.mono hc)
  listed := hs.listed
  apart := hs.apart
  undrafted f c hb hm := hs.undrafted f c hb (hc hm)
  drafts c hm := hs.drafts c (hc hm)
  chained := hs.chained
  captured := hs.captured
  sentinel := hs.sentinel
  current := hs.current
  base := hs.base
  table := hs.table
  slots i v hv hi := (hs.slots i v hv fun hm => hi (hslots hm)).mono hc
  held := hheld

/-- A draft is open once the veil has been taken off it, if its tail is. -/
lemma open_of_draft (hs : h.Sealed V) {a b : Handle} (hp : h.object? v = some (.pair a b))
    (hv : v ∈ V.cells) (hC : v ∉ C) (hb : h.Open C b) : h.Open C v := by
  refine ⟨⟨_, hp⟩, fun hh => ?_⟩
  cases hh with
  | draft hc => exact hC hc
  | binding hb => exact hs.undrafted _ v hb hv
  | tail hp' hb' =>
    rw [hp] at hp'
    obtain ⟨-, rfl⟩ := Datum.pair.inj (Option.some.inj hp')
    exact hb.not_hidden hb'

/-- So is a proper list of drafts. -/
lemma open_of_spine (hs : h.Sealed V) (hl : h.Spine l v) (hV : ∀ c ∈ l, c ∈ V.cells)
    (hC : ∀ c ∈ l, c ∉ C) (hCV : C ⊆ V.cells) : h.Open C v := by
  induction l generalizing v with
  | nil =>
    obtain rfl : v = .emptyList := hl
    exact (hs.open_sentinel (by decide)).mono hCV
  | cons c l ih =>
    obtain ⟨rfl, a, b, hp, hl⟩ := hl
    refine hs.open_of_draft hp (hV v List.mem_cons_self) (hC v List.mem_cons_self) ?_
    exact ih hl (fun c hc => hV c (List.mem_cons_of_mem v hc))
      fun c hc => hC c (List.mem_cons_of_mem v hc)

end Sealed

/-! ## Changing one cell -/

/-- `k` is `h` with `d` in the cell `v`. -/
structure Rewritten (h : Heap) (v : Handle) (d : Datum) (k : Heap) : Prop where
  object : ∀ w, k.object? w = if w = v then some d else h.object? w
  collections : k.collections = h.collections
  roots : k.roots = h.roots
  symbols : k.symbols = h.symbols
  baseEnv : k.baseEnv = h.baseEnv
  currentEnv : k.currentEnv = h.currentEnv

namespace Rewritten

lemma self (hr : h.Rewritten v d k) : k.object? v = some d := by
  rw [hr.object, if_pos rfl]

lemma other (hr : h.Rewritten v d k) (hu : u ≠ v) : k.object? u = h.object? u := by
  rw [hr.object, if_neg hu]

lemma live (hr : h.Rewritten v d k) (hu : ∃ e, h.object? u = some e) :
    ∃ e, k.object? u = some e := by
  by_cases he : u = v
  · exact ⟨d, he ▸ hr.self⟩
  · rwa [hr.other he]

lemma claim {i : Nat} (hc : h.claim i d = .ok k) (hd : d.isFree = false) :
    h.object? ⟨i⟩ = none ∧ h.Rewritten ⟨i⟩ d k := by
  have hself := cells_of_claim hc
  have hframe := SameFrame.claim hc
  unfold Heap.claim at hc
  split at hc
  · next p n hi =>
    obtain rfl := Except.ok.inj hc
    refine ⟨object?_eq_none_of_free hi, fun w => ?_, ?_, hframe.roots, hframe.symbols,
      hframe.baseEnv, hframe.currentEnv⟩
    · split
      · next he => exact object?_eq_some.mpr ⟨by rw [he]; exact hself, hd⟩
      · next hne =>
        have hw : i ≠ w.index := fun he => hne (congrArg Handle.mk he.symm)
        change ((h.setHeadPrevious n none).setCell i d).object? w = _
        rw [object?, cells_setCell, Array.getElem?_setIfInBounds_ne hw, ← object?,
          object?_setHeadPrevious]
    · change (h.setHeadPrevious n none).collections = _
      rw [setHeadPrevious_eq]
  · simp at hc
  · simp at hc

lemma addPermanent (h : Heap) (hd : d.isFree = false) :
    h.object? ⟨h.cells.size⟩ = none ∧ h.Rewritten ⟨h.cells.size⟩ d (h.addPermanent d).2 := by
  refine ⟨by simp [object?], fun w => ?_, rfl, rfl, rfl, rfl, rfl⟩
  rw [object?_addPermanent h hd]
  by_cases hw : w.index = h.cells.size
  · obtain rfl : w = ⟨h.cells.size⟩ := congrArg Handle.mk hw
    rw [if_pos rfl, if_pos rfl]
  · have hne : w ≠ ⟨h.cells.size⟩ := fun he => hw (congrArg Handle.index he)
    rw [if_neg hw, if_neg hne]

lemma setCell {e : Datum} (hv : h.object? v = some e) (hd : d.isFree = false) :
    h.Rewritten v d (h.setCell v.index d) := by
  refine ⟨fun w => ?_, rfl, rfl, rfl, rfl, rfl⟩
  rw [object?_setCell h (lt_size_of_object? hv)]
  by_cases hw : w = v
  · subst hw
    simp [hd]
  · rw [if_neg fun he => hw (congrArg Handle.mk he), if_neg hw]

end Rewritten

/-- Everything that a change of one cell owes to the invariant. -/
structure Decent (V W : Veil) (h : Heap) (v : Handle) (d : Datum) (k : Heap) : Prop where
  rewritten : h.Rewritten v d k
  kind : h.object? v = none ∨ (∃ a b a' b', h.object? v = some (.pair a b) ∧ d = .pair a' b') ∨
    ∃ p n w n' w', h.object? v = some (.frame p n w) ∧ d = .frame p n' w'
  children : ∀ c ∈ d.children, ∃ e, h.object? c = some e
  parts : ∀ c ∈ d.parts, ¬ h.Hidden V.cells c
  /-- Nothing is hidden that was not. -/
  hides : ∀ u, (∃ e, h.object? u = some e) → k.Hidden W.cells u → h.Hidden V.cells u
  /-- New bindings have been drafts. -/
  binds : ∀ f c, k.Binds f c → h.Binds f c ∨ f = v ∧ c ∈ V.cells ∧ c ∉ W.cells
  listed : ∀ f p n w, k.object? f = some (.frame p n w) → ∃ l, k.Spine l w
  /-- A new draft is the cell itself. -/
  drafts : ∀ c ∈ W.cells, c ∈ V.cells ∨ c = v ∧ h.object? v = none ∧ ∃ a b, d = .pair a b
  slots : W.slots = V.slots
  parent : ∀ p n w, d = .frame p n w → h.object? v = none → ∃ q, p = some q ∧ h.IsFrame q
  captured : ∀ e p b, d = .closure e p b → h.IsFrame e

namespace Decent

lemma frame (hd : Decent V W h v d k) (hf : h.IsFrame f) : k.IsFrame f := by
  by_cases he : f = v
  · subst he
    obtain ⟨p, n, w, hf⟩ := hf
    rcases hd.kind with hn | ⟨a, b, a', b', hp, -⟩ | ⟨p', n', w', n'', w'', -, rfl⟩
    · rw [hn] at hf
      simp at hf
    · rw [hp] at hf
      simp at hf
    · exact ⟨_, _, _, hd.rewritten.self⟩
  · rw [IsFrame, hd.rewritten.other he]
    exact hf

lemma chained (hd : Decent V W h v d k) (hf : h.Chained f) : k.Chained f := by
  have hbase := hd.rewritten.baseEnv
  induction hf with
  | @base names values hf =>
    rw [← hbase]
    by_cases he : h.baseEnv = v
    · rcases hd.kind with hn | ⟨a, b, a', b', hp, -⟩ | ⟨p', n', w', n'', w'', hp, rfl⟩
      · rw [← he, hf] at hn
        simp at hn
      · rw [← he, hf] at hp
        simp at hp
      · rw [← he, hf] at hp
        obtain ⟨rfl, -, -⟩ := Datum.frame.inj (Option.some.inj hp)
        exact .base (by rw [hbase, he]; exact hd.rewritten.self)
    · exact .base (by rw [hbase, hd.rewritten.other he]; exact hf)
  | @child f p names values hf _ ih =>
    by_cases he : f = v
    · subst he
      rcases hd.kind with hn | ⟨a, b, a', b', hp, -⟩ | ⟨p', n', w', n'', w'', hp, rfl⟩
      · rw [hn] at hf
        simp at hf
      · rw [hp] at hf
        simp at hf
      · rw [hp] at hf
        obtain ⟨rfl, -, -⟩ := Datum.frame.inj (Option.some.inj hf)
        exact .child hd.rewritten.self ih
    · exact .child (by rw [hd.rewritten.other he]; exact hf) ih

lemma open_of_open (hd : Decent V W h v d k) (hu : h.Open V.cells u) : k.Open W.cells u :=
  ⟨hd.rewritten.live hu.live, fun hh => hu.not_hidden (hd.hides u hu.live hh)⟩

/-- No atoms and no closures are changed. -/
lemma kept (hd : Decent V W h v d k) {e : Datum} (hu : h.object? u = some e)
    (hp : ∀ a b, e ≠ .pair a b) (hf : ∀ p n w, e ≠ .frame p n w) : k.object? u = some e := by
  have hne : u ≠ v := by
    rintro rfl
    rcases hd.kind with hn | ⟨a, b, a', b', he, -⟩ | ⟨p, n, w, n', w', he, -⟩
    · rw [hn] at hu
      simp at hu
    · exact hp a b (Option.some.inj (hu.symm.trans he))
    · exact hf p n w (Option.some.inj (hu.symm.trans he))
  rw [hd.rewritten.other hne]
  exact hu

/-- A change that pays its dues preserves the invariant. -/
lemma preserves (hd : Decent V W h v d k) (hs : h.Sealed V) : k.Sealed W := by
  have hr := hd.rewritten
  have hold : ∀ {u e}, k.object? u = some e → u ≠ v → h.object? u = some e := by
    intro u e hu hne
    rwa [hr.other hne] at hu
  refine ⟨fun u e hu c hc => ?_, fun u e hu c hc => ?_, hd.listed, fun f g c hf hg => ?_,
    fun f c hb hc => ?_, fun c hc => ?_, fun f hf => ?_, fun u e p b hu =>
      ?_, fun u hu => ?_, ?_, ?_,
    fun name u hu => ?_, fun i u hu hi => ?_, fun i hi => ?_⟩
  · refine hr.live ?_
    by_cases he : u = v
    · subst he
      rw [hr.self] at hu
      exact hd.children c (Option.some.inj hu ▸ hc)
    · exact hs.attached u e (hold hu he) c hc
  · by_cases he : u = v
    · subst he
      rw [hr.self] at hu
      obtain rfl := Option.some.inj hu
      exact fun hh => hd.parts c hc (hd.hides c (hd.children c (d.parts_subset_children hc)) hh)
    · have hp := hs.open_part (hold hu he) hc
      exact fun hh => hp.not_hidden (hd.hides c hp.live hh)
  · rcases hd.binds f c hf with hf | ⟨rfl, hcV, -⟩
    · rcases hd.binds g c hg with hg | ⟨rfl, hcV, -⟩
      · exact hs.apart f g c hf hg
      · exact absurd hcV (hs.undrafted f c hf)
    · rcases hd.binds g c hg with hg | ⟨rfl, -, -⟩
      · exact absurd hcV (hs.undrafted g c hg)
      · rfl
  · rcases hd.binds f c hb with hb | ⟨-, -, hcW⟩
    · rcases hd.drafts c hc with hcV | ⟨rfl, hn, -⟩
      · exact hs.undrafted f c hb hcV
      · obtain ⟨p, n, w, l, -, hl, hm⟩ := hb
        obtain ⟨a, b, hp⟩ := hl.pair_of_mem hm
        rw [hn] at hp
        simp at hp
    · exact hcW hc
  · rcases hd.drafts c hc with hcV | ⟨rfl, -, a, b, rfl⟩
    · obtain ⟨a, b, hp⟩ := hs.drafts c hcV
      by_cases he : c = v
      · subst he
        rcases hd.kind with hn | ⟨x, y, a', b', -, rfl⟩ | ⟨p', n', w', n'', w'', hp', -⟩
        · rw [hn] at hp
          simp at hp
        · exact ⟨_, _, hr.self⟩
        · rw [hp'] at hp
          simp at hp
      · exact ⟨a, b, by rw [hr.other he]; exact hp⟩
    · exact ⟨a, b, hr.self⟩
  · by_cases he : f = v
    · subst he
      obtain ⟨p, n, w, hf⟩ := hf
      rw [hr.self] at hf
      obtain rfl := Option.some.inj hf
      rcases hd.kind with hn | ⟨x, y, a', b', -, hp⟩ | ⟨p', n', w', n'', w'', hp, -⟩
      · obtain ⟨q, rfl, hq⟩ := hd.parent p n w rfl hn
        exact .child hr.self (hd.chained (hs.chained q hq))
      · simp at hp
      · exact hd.chained (hs.chained f ⟨_, _, _, hp⟩)
    · rw [IsFrame, hr.other he] at hf
      exact hd.chained (hs.chained f hf)
  · by_cases he : u = v
    · subst he
      rw [hr.self] at hu
      exact hd.frame (hd.captured e p b (Option.some.inj hu))
    · exact hd.frame (hs.captured u e p b (hold hu he))
  · have hlen : u.index < sentinels.length := hu
    have hsen := hs.sentinel u hu
    rw [List.getElem?_eq_getElem hlen] at hsen ⊢
    have hc := children_of_mem_sentinels (List.getElem_mem hlen)
    refine hd.kept hsen (fun x y he => ?_) fun p n w he => ?_
    · rw [he] at hc
      simp [Datum.children] at hc
    · rw [he] at hc
      simp [Datum.children] at hc
  · rw [hr.currentEnv]
    exact hd.frame hs.current
  · rw [hr.baseEnv]
    exact hd.frame hs.base
  · rw [hr.symbols] at hu
    obtain ⟨n, hn⟩ := hs.table name u hu
    exact ⟨n, hd.kept hn (by simp) (by simp)⟩
  · rw [hr.roots] at hu
    rw [hd.slots] at hi
    exact hd.open_of_open (hs.slots i u hu hi)
  · rw [hr.roots]
    rw [hd.slots] at hi
    exact hs.held i hi

end Decent

end Heap

end ArenaScheme
