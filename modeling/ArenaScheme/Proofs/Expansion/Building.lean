/-
# Results made from results

An expansion is made from its parts: lists first, then lists of these and of what there has been
before.  A collection may run before each new pair, so whatever has been made, and is not a part of
the next pair, has to be in a root slot.

`h.Building parts k` says that `k` has come from `h` by making new pairs for the results `parts`.
Since no two of them share a pair, they take as many cells as they have pairs together.  There are
rules for what becomes of them when some are put together, and when some are held in root slots
meanwhile, whether there are collections or not.
-/
import ArenaScheme.Proofs.Templates.Drafts

namespace ArenaScheme

open Heap HeapM

namespace Built

/-- The number of its new pairs. -/
def pairs : Built → Nat
  | same _ => 0
  | pair head tail => head.pairs + tail.pairs + 1

/-- A new list. -/
def list (ts : List Built) : Built := ts.foldr .pair (.same .emptyList)

lemma pairs_list (ts : List Built) : (list ts).pairs = (ts.map pairs).sum + ts.length := by
  induction ts with
  | nil => rfl
  | cons t ts ih =>
    rw [list] at ih
    simp only [list, List.foldr_cons, pairs, ih, List.map_cons, List.sum_cons, List.length_cons]
    omega

/-- A list of objects has one pair for each of them. -/
lemma pairs_list_same (vs : List Handle) : (list (vs.map .same)).pairs = vs.length := by
  induction vs with
  | nil => rfl
  | cons v vs ih =>
    rw [List.length_cons, ← ih]
    exact congrArg (· + 1) (Nat.zero_add _)

end Built

/-- A result in a heap: what it is, its new pairs, and its handle. -/
structure Piece where
  result : Built
  cells : List Handle
  handle : Handle

namespace Piece

/-- An object that has been there before. -/
def old (v : Handle) : Piece := ⟨.same v, [], v⟩

@[simp] lemma result_old (v : Handle) : (old v).result = .same v := rfl

@[simp] lemma cells_old (v : Handle) : (old v).cells = [] := rfl

@[simp] lemma handle_old (v : Handle) : (old v).handle = v := rfl

end Piece

namespace Heap

variable {h k l : Heap} {extra cells vs : List Handle} {v w : Handle} {t : Built}
  {parts rest : List Piece} {a b p : Piece}

lemma Shows.length_eq (hs : h.Shows t cells v) : cells.length = t.pairs := by
  induction hs with
  | same => rfl
  | pair _ _ _ iha ihb => simp [Built.pairs, iha, ihb]

/-- Since `h` the results `parts` have been made, and nothing else refers to their new pairs. -/
structure Building (h : Heap) (parts : List Piece) (k : Heap) : Prop where
  adds : h.Adds [] (parts.flatMap Piece.cells) k
  withheld : k.Withholds (parts.flatMap Piece.cells)
  shows : ∀ p ∈ parts, k.Shows p.result p.cells p.handle
  known : ∀ p ∈ parts, h.Reachable [] p.handle ∨ p.handle ∈ p.cells

/-- The failure of an action that has begun with `h` and would have taken `n` new cells in all. -/
def Overfills (h : Heap) (n : Nat) (roots : Array Handle) (e : Handle) (k : Heap) : Prop :=
  e = .outOfMemory ∧ h.Saves [] k ∧ k.roots = roots ∧ h.capacity < n + h.usedWith []

end Heap

/-- Since `h` some results have been made, which are as `Q` says, and the root slots are `roots`; or
else there was no room for `n` cells. -/
def Outcome.Makes {α : Type} (o : Outcome Handle α) (h : Heap) (n : Nat) (roots : Array Handle)
    (Q : α → List Piece → Prop) : Prop :=
  o.Finishes (fun a k => ∃ parts, Q a parts ∧ h.Building parts k ∧ k.roots = roots)
    (h.Overfills n roots)

lemma Outcome.Makes.bind {α β : Type} {x : EvalM α} {f : α → EvalM β} {h k : Heap} {n : Nat}
    {roots : Array Handle} {Q : α → List Piece → Prop} {R : β → List Piece → Prop}
    (hx : (x k).Makes h n roots Q)
    (hf : ∀ a parts l, Q a parts → h.Building parts l → l.roots = roots →
      (f a l).Makes h n roots R) :
    ((x >>= f) k).Makes h n roots R := by
  refine finishes_bind hx fun a l hl => ?_
  obtain ⟨parts, hq, hb, hr⟩ := hl
  exact hf a parts l hq hb hr

lemma Outcome.Makes.imp {α : Type} {o : Outcome Handle α} {h : Heap} {n : Nat}
    {roots : Array Handle} {Q R : α → List Piece → Prop} (ho : o.Makes h n roots Q)
    (hqr : ∀ a parts, Q a parts → R a parts) :
    o.Makes h n roots R := by
  refine Outcome.Finishes.mono ho (fun a k hk => ?_) fun _ _ => id
  obtain ⟨parts, hq, hk⟩ := hk
  exact ⟨parts, hqr a parts hq, hk⟩

namespace Heap

variable {h k l : Heap} {extra cells vs : List Handle} {v w : Handle} {t : Built}
  {parts rest : List Piece} {a b p : Piece} {n : Nat}

namespace Building

lemma nil (hw : h.WellFormed) : h.Building [] h :=
  ⟨.refl hw (by simp), fun _ _ _ _ _ _ => List.not_mem_nil, by simp, by simp⟩

lemma perm {parts' : List Piece} (hb : h.Building parts k) (hp : parts.Perm parts') :
    h.Building parts' k :=
  ⟨hb.adds.perm (hp.flatMap_right _), hb.withheld.perm (hp.flatMap_right _),
    fun p hm => hb.shows p (hp.mem_iff.mpr hm), fun p hm => hb.known p (hp.mem_iff.mpr hm)⟩

/-- Objects that have been there before may be parts. -/
lemma old (hb : h.Building parts k) (hv : h.Reachable [] v) : h.Building (.old v :: parts) k :=
  ⟨hb.adds, hb.withheld, List.forall_mem_cons.mpr ⟨.same, hb.shows⟩,
    List.forall_mem_cons.mpr ⟨.inl hv, hb.known⟩⟩

lemma olds (hb : h.Building parts k) (hv : ∀ v ∈ vs, h.Reachable [] v) :
    h.Building (vs.map .old ++ parts) k := by
  induction vs with
  | nil => exact hb
  | cons v vs ih =>
    obtain ⟨hv, hvs⟩ := List.forall_mem_cons.mp hv
    exact (ih hvs).old hv

/-- The number of cells that have been taken. -/
lemma length_eq (hb : h.Building parts k) :
    (parts.flatMap Piece.cells).length = (parts.map fun p => p.result.pairs).sum := by
  rw [List.length_flatMap]
  congr 1
  exact List.map_congr_left fun p hp => (hb.shows p hp).length_eq

lemma le_capacity (hb : h.Building parts k) :
    (parts.map fun p => p.result.pairs).sum + h.usedWith [] ≤ h.capacity := by
  have hle := hb.adds.usedWith_add_length_le
  rw [hb.length_eq] at hle
  omega

lemma known_cells (hb : h.Building parts k) (hp : p ∈ parts) :
    h.Reachable [] p.handle ∨ p.handle ∈ parts.flatMap Piece.cells :=
  (hb.known p hp).imp_right fun hc => List.mem_flatMap.mpr ⟨p, hp, hc⟩

lemma isLive (hb : h.Building parts k) (hp : p ∈ parts) : k.isLive p.handle = true :=
  (hb.known_cells hp).elim hb.adds.isLive (hb.adds.held _)

/-- All new cells can be reached from the results. -/
lemma reachable_cells (hb : h.Building parts k) (hr : ∀ p ∈ parts, k.Reachable extra p.handle) :
    ∀ u ∈ parts.flatMap Piece.cells, k.Reachable extra u := by
  intro u hu
  obtain ⟨p, hp, hc⟩ := List.mem_flatMap.mp hu
  exact (hb.shows p hp).reachable (hr p hp) u hc

/-- A slot for one of the results. -/
lemma push (hb : h.Building parts k) (hp : p ∈ parts) :
    h.Building parts { k with roots := k.roots.push p.handle } :=
  ⟨hb.adds.push (hb.known_cells hp) (hb.isLive hp), hb.withheld,
    fun q hq => (hb.shows q hq).congr fun _ _ => rfl, hb.known⟩

lemma pop (hb : h.Building parts k) (hs : h.roots.size < k.roots.size) :
    h.Building parts { k with roots := k.roots.pop } :=
  ⟨hb.adds.pop hs, hb.withheld, fun q hq => (hb.shows q hq).congr fun _ _ => rfl, hb.known⟩

/-- Holding a result in a slot meanwhile. -/
lemma rooted_makes {α : Type} {body : Root → EvalM α} {Q : α → List Piece → Prop}
    (hb : h.Building parts k) (hp : p ∈ parts) (hroom : k.roots.size < h.rootSlots)
    (hbody : ∀ l, h.Building parts l → l.roots = k.roots.push p.handle →
      (body ⟨k.roots.size⟩ l).Makes h n l.roots Q) :
    (rooted p.handle body k).Makes h n k.roots Q := by
  have hd := hb.adds.depth
  refine finishes_rooted (hb.adds.rootSlots ▸ hroom)
    ((hbody _ (hb.push hp) rfl).mono (fun a l hl => ?_) fun e l hl => ?_)
  · obtain ⟨parts', hq, hl, hr⟩ := hl
    exact ⟨by rw [hr, Array.size_push], parts', hq, hl.pop (by rw [hr, Array.size_push]; omega),
      by rw [hr, Array.pop_push]⟩
  · obtain ⟨rfl, hs, hr, hlt⟩ := hl
    refine ⟨by rw [hr, Array.size_push], rfl, hs.setRoots hs.wellFormed.pop ?_ fun i hi => ?_,
      by rw [hr, Array.pop_push], hlt⟩
    · rw [hr, Array.pop_push]
      exact hd
    · rw [Array.getElem?_pop, if_pos (by rw [hr, Array.size_push]; omega)]

/-! ### Putting results together -/

/-- Some of the results are saved, and what has been made of the others is `p`. -/
lemma compose (parts : List Piece) (made : List Handle) {extra : List Handle}
    (hb : h.Building (parts ++ rest) k)
    (ha : h.Adds [] (made ++ (parts ++ rest).flatMap Piece.cells) l)
    (hw : l.Withholds (made ++ (parts ++ rest).flatMap Piece.cells)) (hs : k.Saves extra l)
    (hr : ∀ q ∈ rest, k.Reachable extra q.handle) (hp : l.Shows p.result p.cells p.handle)
    (hk : p.handle ∈ p.cells ∨ h.Reachable [] p.handle)
    (hc : p.cells.Perm (made ++ parts.flatMap Piece.cells)) : h.Building (p :: rest) l := by
  have hperm : (made ++ (parts ++ rest).flatMap Piece.cells).Perm
      ((p :: rest).flatMap Piece.cells) := by
    rw [List.flatMap_append, ← List.append_assoc, List.flatMap_cons]
    exact (hc.append_right _).symm
  refine ⟨ha.perm hperm, hw.perm hperm, List.forall_mem_cons.mpr ⟨hp, fun q hq => ?_⟩,
    List.forall_mem_cons.mpr ⟨hk.symm, fun q hq => hb.known q (List.mem_append_right _ hq)⟩⟩
  have hq' := hb.shows q (List.mem_append_right _ hq)
  exact hq'.congr fun u hu => hs.kept u (hq'.reachable (hr q hq) u hu)

/-- A new pair of two results. -/
lemma cons_makes (hb : h.Building (a :: b :: rest) k)
    (hr : ∀ q ∈ rest, k.Reachable [a.handle, b.handle] q.handle)
    (hn : ((a :: b :: rest).map fun p => p.result.pairs).sum < n) :
    (cons a.handle b.handle k).Makes h n k.roots fun v parts =>
      ∃ p : Piece, v = p.handle ∧ p.result = .pair a.result b.result ∧ parts = p :: rest := by
  have hreach : ∀ q ∈ a :: b :: rest, k.Reachable [a.handle, b.handle] q.handle := by
    refine List.forall_mem_cons.mpr
      ⟨.of_extra (by simp), List.forall_mem_cons.mpr ⟨.of_extra (by simp), hr⟩⟩
  refine (ArenaScheme.cons_finishes hb.adds (hb.known_cells (by simp))
    (hb.known_cells (by simp)) (by simp)
    (hb.reachable_cells hreach)).self.mono (fun v l hl => ?_) fun e l hl => ?_
  · obtain ⟨hrun, hl, hd, hroots, hs⟩ := hl
    have hwl := withholds_of_cons hb.adds.wellFormed (hb.isLive (by simp))
      (hb.isLive (by simp)) hb.withheld hrun
    have kept : ∀ q ∈ a :: b :: rest, l.Shows q.result q.cells q.handle := fun q hq =>
      (hb.shows q hq).congr fun u hu => hs.kept u ((hb.shows q hq).reachable (hreach q hq) u hu)
    refine ⟨_, ⟨⟨.pair a.result b.result, v :: (a.cells ++ b.cells), v⟩, rfl, rfl, rfl⟩, ?_, hroots⟩
    exact compose [a, b] [v] hb hl hwl hs hr (.pair hd (kept a (by simp)) (kept b (by simp)))
      (.inl List.mem_cons_self) (by simp)
  · obtain ⟨-, rfl, hl, hroots, hle⟩ := hl
    rw [hb.length_eq] at hle
    exact ⟨rfl, hl.toSaves, hroots, by omega⟩

/-- A row of results is a list of them. -/
lemma exists_shows_of_row (hr : k.Row .emptyList (parts.map Piece.handle) cells v)
    (hs : ∀ p ∈ parts, k.Shows p.result p.cells p.handle) :
    ∃ c, k.Shows (.list (parts.map Piece.result)) c v ∧
      c.Perm (cells ++ parts.flatMap Piece.cells) ∧ (v = .emptyList ∨ v ∈ c) := by
  induction parts generalizing cells v with
  | nil =>
    cases hr
    exact ⟨[], .same, by simp, .inl rfl⟩
  | cons p parts ih =>
    obtain ⟨hp, hs⟩ := List.forall_mem_cons.mp hs
    cases hr with
    | @cons _ next _ _ cells hv hr =>
      obtain ⟨c, hc, hperm, -⟩ := ih hr hs
      have hcells : (p.cells ++ c).Perm (cells ++ (p.cells ++ parts.flatMap Piece.cells)) := by
        refine (hperm.append_left p.cells).trans ?_
        rw [← List.append_assoc, ← List.append_assoc]
        exact List.perm_append_comm.append_right _
      rw [List.flatMap_cons]
      exact ⟨v :: (p.cells ++ c), .pair hv hp hc, hcells.cons v, .inr List.mem_cons_self⟩

/-- A new list of some results. -/
lemma list_makes (parts rest : List Piece) (hb : h.Building (parts ++ rest) k)
    (hr : ∀ q ∈ rest, k.Reachable (parts.map Piece.handle) q.handle)
    (hroom : k.roots.size + parts.length ≤ h.rootSlots)
    (hn : ((parts ++ rest).map fun p => p.result.pairs).sum + parts.length ≤ n) :
    (HeapM.list (parts.map Piece.handle) k).Makes h n k.roots fun v parts' =>
      ∃ p : Piece, v = p.handle ∧ p.result = .list (parts.map Piece.result) ∧
        parts' = p :: rest := by
  have hreach : ∀ q ∈ parts ++ rest, k.Reachable (parts.map Piece.handle) q.handle :=
    List.forall_mem_append.mpr ⟨fun q hq => .of_extra (List.mem_map_of_mem hq), hr⟩
  have hknown : ∀ v ∈ parts.map Piece.handle, h.Reachable [] v ∨
      v ∈ (parts ++ rest).flatMap Piece.cells := by
    intro v hv
    obtain ⟨p, hp, rfl⟩ := List.mem_map.mp hv
    exact hb.known_cells (List.mem_append_left _ hp)
  have hlive : ∀ v ∈ parts.map Piece.handle, k.isLive v = true := fun v hv =>
    (hknown v hv).elim hb.adds.isLive (hb.adds.held v)
  have hcells := hb.reachable_cells hreach
  refine (list_finishes_withholding hb.adds.wellFormed hlive
    (by simpa [hb.adds.rootSlots] using hroom)).mono
    (fun v l hl => ?_) fun e l hl => ?_
  · obtain ⟨-, cells, hl, hroots, hrow, hwl⟩ := hl
    have kept : ∀ q ∈ parts, l.Shows q.result q.cells q.handle := fun q hq => by
      have hq := List.mem_append_left rest hq
      exact (hb.shows q hq).congr fun u hu =>
        hl.kept u ((hb.shows q hq).reachable (hreach q hq) u hu)
    obtain ⟨c, hc, hperm, hstart⟩ := exists_shows_of_row hrow kept
    have hnil : h.Reachable [] .emptyList := .sentinel (by decide)
    refine ⟨_, ⟨⟨.list (parts.map Piece.result), c, v⟩, rfl, rfl, rfl⟩, ?_, hroots⟩
    exact compose _ _ hb (hb.adds.trans hl (by simp) hcells hknown)
      (hwl _ hb.withheld) hl.toSaves hr hc
      (hstart.symm.imp_right fun he : v = .emptyList => he ▸ hnil) hperm
  · obtain ⟨hlt, rfl, hl, hroots⟩ := hl
    have hle := hb.adds.usedWith_le hknown
    rw [hb.length_eq] at hle
    rw [List.length_map, hb.adds.capacity] at hlt
    exact ⟨rfl, hb.adds.toSaves.trans hl (by simp), hroots, by omega⟩

/-- A new list of objects that have been there before. -/
lemma list_olds_makes (hb : h.Building rest k) (hv : ∀ v ∈ vs, h.Reachable [] v)
    (hr : ∀ q ∈ rest, k.Reachable vs q.handle) (hroom : k.roots.size + vs.length ≤ h.rootSlots)
    (hn : (rest.map fun p => p.result.pairs).sum + vs.length ≤ n) :
    (HeapM.list vs k).Makes h n k.roots fun v parts =>
      ∃ p : Piece, v = p.handle ∧ p.result = .list (vs.map .same) ∧ parts = p :: rest := by
  have hsum : ∀ vs : List Handle, ((vs.map Piece.old).map fun p => p.result.pairs).sum = 0 :=
    fun vs => by
    induction vs with
    | nil => rfl
    | cons v vs ih => simpa [Built.pairs] using ih
  have hmake := (hb.olds hv).list_makes _ rest (n := n) (by simpa [Function.comp_def] using hr)
    (by simpa using hroom) (by
    rw [List.map_append, List.sum_append, hsum, List.length_map]
    omega)
  simpa [Function.comp_def] using hmake

end Building

end Heap

end ArenaScheme
