/-
# How data lie in a heap

The cells of a datum that is being read are listed, so that two data with lists of different cells
do not share a cell.  A list that is not finished is a segment: its last pair ends in the empty list
for the time being, and is linked to the next pair or to what follows the dot later on.  The stack
of the reader describes the stack of the automaton if every unfinished list is a segment of its own,
held in the root slot that the reader has taken for it.
-/
import ArenaScheme.Proofs.Reading.Automaton
import ArenaScheme.Proofs.Reading.Ownership

namespace ArenaScheme

namespace Heap

/-- The object at `v` unfolds into the tree, and the cells that are made for it are `made`. -/
inductive Builds (k : Heap) : Tree → Handle → List Handle → Prop
  | emptyList : Builds k .emptyList .emptyList []
  | shared {l : Literal} {v : Handle} (hl : l.datum? = none) (hv : k.IsLiteral l v) :
      Builds k (.leaf l) v []
  | made {l : Literal} {d : Datum} {v : Handle} (hl : l.datum? = some d)
      (hv : k.object? v = some d) : Builds k (.leaf l) v [v]
  | pair {a b : Tree} {x y v : Handle} {F G : List Handle} (hv : k.object? v = some (.pair x y))
      (ha : Builds k a x F) (hb : Builds k b y G) : Builds k (.pair a b) v (v :: (F ++ G))

/-- The spine from `v` to `last` has the elements `ts`, and the tail of `last` is `next`. -/
inductive Segment (k : Heap) (next : Handle) : List Tree → Handle → Handle → List Handle → Prop
  | last {t : Tree} {x v : Handle} {F : List Handle} (hv : k.object? v = some (.pair x next))
      (hx : Builds k t x F) : Segment k next [t] v v (v :: F)
  | cons {t : Tree} {ts : List Tree} {x y v last : Handle} {F G : List Handle}
      (hv : k.object? v = some (.pair x y)) (hx : Builds k t x F)
      (hs : Segment k next ts y last G) :
      Segment k next (t :: ts) v last (v :: (F ++ G))

variable {h k k' : Heap} {l : Literal} {t : Tree} {ts : List Tree} {made F G extra : List Handle}
  {u v w next last : Handle}

lemma not_collectible_sentinel (h : Heap) (hv : v.index < regionStart) : ¬ h.Collectible v.index :=
  fun hc => Nat.not_lt.mpr hc.1 hv

lemma Closed.isLive_sentinel (hc : h.Closed) (hv : v.index < regionStart) : h.isLive v = true :=
  hc.isLive_of_reachable (by simp) (.anchor (.sentinel hv) : h.Reachable [] v)

lemma index_ofBool (b : Bool) : (Handle.ofBool b).index < regionStart := by cases b <;> decide

/-! ## Literals -/

lemma isLiteral_of_object? {d : Datum} (hl : l.datum? = some d) (hv : k.object? v = some d) :
    k.IsLiteral l v := by
  cases l <;> cases hl <;> exact hv

lemma IsLiteral.congr (hs : ∀ name v, k.findSymbol name = some v → k'.findSymbol name = some v)
    (hl : l.datum? = none) (hv : k.IsLiteral l v) : k'.IsLiteral l v := by
  cases l with
  | bool b => exact hv
  | symbol name => exact hs name v hv
  | _ => cases hl

/-- The object of a literal that is not made is never collected. -/
lemma IsLiteral.isLive (hw : k.WellFormed) (hl : l.datum? = none) (hv : k.IsLiteral l v) :
    ¬ k.Collectible v.index ∧ k.isLive v = true := by
  cases l with
  | bool b =>
    obtain rfl : v = .ofBool b := hv
    exact ⟨not_collectible_sentinel k (index_ofBool b), hw.isLive_sentinel (index_ofBool b)⟩
  | symbol name =>
    obtain ⟨hc, ho⟩ := hw.table name v hv
    exact ⟨hc, isLive_of_object? ho⟩
  | _ => cases hl

/-! ## Data -/

namespace Builds

lemma unfolds (hb : Builds k t v F) : k.Unfolds t v := by
  induction hb with
  | emptyList => rfl
  | shared _ hv => exact hv
  | made hl hv => exact isLiteral_of_object? hl hv
  | pair hv _ _ ha hb => exact ⟨_, _, hv, ha, hb⟩

lemma length (hb : Builds k t v F) : F.length = t.cells := by
  induction hb with
  | emptyList => rfl
  | shared hl _ => simp [Tree.cells, hl]
  | made hl _ => simp [Tree.cells, hl]
  | pair _ _ _ ha hb => simp [Tree.cells, ha, hb]

lemma congr (hb : Builds k t v F) (ha : Agree F k k') : Builds k' t v F := by
  induction hb with
  | emptyList => exact .emptyList
  | shared hl hv => exact .shared hl (hv.congr ha.symbols hl)
  | made hl hv => exact .made hl ((ha.objects _ (by simp)).trans hv)
  | pair hv _ _ iha ihb =>
    exact .pair ((ha.objects _ (by simp)).trans hv)
      (iha (ha.mono fun u hu => by simp [hu])) (ihb (ha.mono fun u hu => by simp [hu]))

/-- A datum has cells of its own, or it is never collected. -/
lemma known (hb : Builds k t v F) (he : h.Extends made k) (hF : F ⊆ made) : h.Known made v := by
  cases hb with
  | emptyList => exact .inr (not_collectible_sentinel h (by decide))
  | shared hl hv => exact .inr (mt he.collectible.mpr (hv.isLive he.wellFormed hl).1)
  | made _ _ => exact .inl (hF (by simp))
  | pair _ _ _ => exact .inl (hF (by simp))

lemma isLive (hb : Builds k t v F) (hw : k.WellFormed) : k.isLive v = true := by
  cases hb with
  | emptyList => exact hw.isLive_sentinel (by decide)
  | shared hl hv => exact (hv.isLive hw hl).2
  | made _ hv => exact isLive_of_object? hv
  | pair hv _ _ => exact isLive_of_object? hv

lemma reachable (hb : Builds k t v F) (hv : k.Reachable extra v) :
    ∀ u ∈ F, k.Reachable extra u := by
  induction hb with
  | emptyList => simp
  | shared _ _ => simp
  | made _ _ => simpa using hv
  | pair ho _ _ iha ihb =>
    intro u hu
    rcases List.mem_cons.mp hu with rfl | hu
    · exact hv
    rcases List.mem_append.mp hu with hu | hu
    · exact iha (.child hv ho (by simp [Datum.children])) u hu
    · exact ihb (.child hv ho (by simp [Datum.children])) u hu

end Builds

/-! ## Segments -/

namespace Segment

lemma mem_last (hs : Segment k next ts v last F) : last ∈ F := by
  induction hs with
  | last => simp
  | cons _ _ _ ih => simp [ih]

lemma object?_last (hs : Segment k next ts v last F) :
    ∃ x, k.object? last = some (.pair x next) := by
  induction hs with
  | last hv _ => exact ⟨_, hv⟩
  | cons _ _ _ ih => exact ih

lemma length (hs : Segment k next ts v last F) : F.length = Tree.spineCells ts := by
  induction hs with
  | last _ hx => simp [hx.length]
  | cons _ hx _ ih =>
    simp [hx.length, ih]
    omega

lemma congr (hs : Segment k next ts v last F) (ha : Agree F k k') :
    Segment k' next ts v last F := by
  induction hs with
  | last hv hx =>
    exact .last ((ha.objects _ (by simp)).trans hv) (hx.congr (ha.mono fun u hu => by simp [hu]))
  | cons hv hx _ ih =>
    exact .cons ((ha.objects _ (by simp)).trans hv) (hx.congr (ha.mono fun u hu => by simp [hu]))
      (ih (ha.mono fun u hu => by simp [hu]))

/-- With a tail, a segment is a list. -/
lemma builds (hs : Segment k next ts v last F) (ht : Builds k t next G) :
    Builds k (.list ts t) v (F ++ G) := by
  induction hs with
  | last hv hx => exact .pair hv hx ht
  | cons hv hx _ ih =>
    rw [List.cons_append, List.append_assoc]
    exact .pair hv hx ih

/-- A segment goes on in the pair that follows it. -/
lemma append (hs : Segment k w ts v last F) (ht : Segment k next [t] w w G) :
    Segment k next (ts ++ [t]) v w (F ++ G) := by
  induction hs with
  | last hv hx => exact .cons hv hx ht
  | cons hv hx _ ih =>
    rw [List.cons_append, List.cons_append, List.append_assoc]
    exact .cons hv hx ih

/-- Linking the last pair to something else. -/
lemma relink {x : Handle} (hs : Segment k next ts v last F) (hF : F.Nodup)
    (hl : k.object? last = some (.pair x next)) (hl' : k'.object? last = some (.pair x w))
    (ho : ∀ u ∈ F, u ≠ last → k'.object? u = k.object? u)
    (hsym : ∀ name v, k.findSymbol name = some v → k'.findSymbol name = some v) :
    Segment k' w ts v last F := by
  induction hs with
  | @last t y v F hv hx =>
    obtain ⟨rfl, -⟩ := Datum.pair.inj (Option.some.inj (hv.symm.trans hl))
    refine .last hl' (hx.congr ⟨fun u hu => ho u (by simp [hu]) ?_, hsym⟩)
    rintro rfl
    exact (List.nodup_cons.mp hF).1 hu
  | @cons t ts y z v last F G hv hx hs ih =>
    obtain ⟨hvn, hFG⟩ := List.nodup_cons.mp hF
    obtain ⟨-, hG, hd⟩ := List.nodup_append.mp hFG
    refine .cons ((ho v (by simp) ?_).trans hv)
      (hx.congr ⟨fun u hu => ho u (by simp [hu]) ?_, hsym⟩)
      (ih hG hl hl' fun u hu => ho u (by simp [hu]))
    · rintro rfl
      exact hvn (List.mem_append_right _ hs.mem_last)
    · exact hd u hu last hs.mem_last

lemma reachable (hs : Segment k .emptyList ts v last F) (hv : k.Reachable extra v) :
    ∀ u ∈ F, k.Reachable extra u := by
  have := (hs.builds .emptyList).reachable hv
  rwa [List.append_nil] at this

end Segment

end Heap

/-! ## The stack of the reader -/

namespace Reader

open Heap

/-- What is unfinished, with its slots between `base` and `n`, is what the automaton has. -/
inductive Stack (k : Heap) (base : Nat) : Nat → List Pending → List Parser.Frame →
    List Handle → Prop
  | nil : Stack k base base [] [] []
  | opened {n : Nat} {pending : List Pending} {frames : List Parser.Frame} {F : List Handle}
      (hv : k.roots[n]? = some .emptyList) (hr : Stack k base n pending frames F) :
      Stack k base (n + 1) (.items ⟨n⟩ none :: pending) (.items [] :: frames) F
  | items {n : Nat} {pending : List Pending} {frames : List Parser.Frame} {ts : List Tree}
      {v last : Handle} {F G : List Handle} (hv : k.roots[n]? = some v)
      (hs : Segment k .emptyList ts v last G) (hr : Stack k base n pending frames F) :
      Stack k base (n + 1) (.items ⟨n⟩ (some last) :: pending) (.items ts :: frames) (G ++ F)
  | tail {n : Nat} {pending : List Pending} {frames : List Parser.Frame} {ts : List Tree}
      {v last : Handle} {F G : List Handle} (hv : k.roots[n]? = some v)
      (hs : Segment k .emptyList ts v last G) (hr : Stack k base n pending frames F) :
      Stack k base (n + 1) (.tail ⟨n⟩ last :: pending) (.tail ts :: frames) (G ++ F)
  | mark {n : Nat} {pending : List Pending} {frames : List Parser.Frame} {q : Quotation}
      {s : Handle} {F : List Handle} (hq : k.findSymbol q.name = some s)
      (hr : Stack k base n pending frames F) :
      Stack k base n (.mark s :: pending) (.mark q :: frames) F

/-- What has to come next is what the automaton waits for. -/
inductive Waits (k : Heap) (base : Nat) :
    Nat → Goal → List Pending → Parser.Goal → List Parser.Frame → List Handle → Prop
  | datum {n : Nat} {pending : List Pending} {frames : List Parser.Frame} {F : List Handle}
      (hr : Stack k base n pending frames F) : Waits k base n .datum pending .datum frames F
  | closing {n : Nat} {pending : List Pending} {frames : List Parser.Frame} {t : Tree} {v : Handle}
      {F G : List Handle} (hv : k.roots[n]? = some v) (hb : Builds k t v G)
      (hr : Stack k base n pending frames F) :
      Waits k base (n + 1) (.closing ⟨n⟩) pending (.closing t) frames (G ++ F)

variable {k k' : Heap} {base n : Nat} {pending : List Pending} {frames : List Parser.Frame}
  {F extra : List Handle}

namespace Stack

lemma le (hs : Stack k base n pending frames F) : base ≤ n := by
  induction hs <;> omega

lemma length (hs : Stack k base n pending frames F) : F.length = Parser.weight frames := by
  induction hs with
  | nil => rfl
  | opened _ _ ih => simpa [Parser.weight, Parser.Frame.weight] using ih
  | items _ hs _ ih => simp [Parser.weight, Parser.Frame.weight, ih, hs.length]
  | tail _ hs _ ih => simp [Parser.weight, Parser.Frame.weight, ih, hs.length]
  | mark _ _ ih => simpa [Parser.weight, Parser.Frame.weight] using ih

lemma congr (hs : Stack k base n pending frames F) (ha : Agree F k k')
    (hr : ∀ i < n, k'.roots[i]? = k.roots[i]?) : Stack k' base n pending frames F := by
  induction hs with
  | nil => exact .nil
  | opened hv _ ih =>
    exact .opened ((hr _ (by omega)).trans hv) (ih ha fun i hi => hr i (by omega))
  | items hv hs _ ih =>
    exact .items ((hr _ (by omega)).trans hv) (hs.congr (ha.mono (List.subset_append_left _ _)))
      (ih (ha.mono (List.subset_append_right _ _)) fun i hi => hr i (by omega))
  | tail hv hs _ ih =>
    exact .tail ((hr _ (by omega)).trans hv) (hs.congr (ha.mono (List.subset_append_left _ _)))
      (ih (ha.mono (List.subset_append_right _ _)) fun i hi => hr i (by omega))
  | mark hq _ ih => exact .mark (ha.symbols _ _ hq) (ih ha hr)

/-- Every cell of an unfinished list can be reached from its slot. -/
lemma reachable (hs : Stack k base n pending frames F) : ∀ u ∈ F, k.Reachable extra u := by
  have hroot : ∀ {i : Nat} {v : Handle}, k.roots[i]? = some v → k.Reachable extra v := fun hv =>
    .anchor (.root (Array.mem_toList_iff.mpr (Array.mem_of_getElem? hv)))
  induction hs with
  | nil => simp
  | opened _ _ ih => exact ih
  | items hv hs _ ih =>
    intro u hu
    rcases List.mem_append.mp hu with hu | hu
    · exact hs.reachable (hroot hv) u hu
    · exact ih u hu
  | tail hv hs _ ih =>
    intro u hu
    rcases List.mem_append.mp hu with hu | hu
    · exact hs.reachable (hroot hv) u hu
    · exact ih u hu
  | mark _ _ ih => exact ih

end Stack

end Reader

end ArenaScheme
