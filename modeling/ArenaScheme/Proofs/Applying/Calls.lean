/-
# Quoted arguments

A combination whose operands are quotations is evaluated operator first.  That may take any number
of turns, and whatever is done meanwhile, the combination is in the custody of its root slot; so the
quotations are still there afterwards, and each of them gives the very object that it quotes.  These
are collected in a new list.
-/
import ArenaScheme.Proofs.Applying.Quotations
import ArenaScheme.Proofs.Custody.Evaluator
import ArenaScheme.Proofs.Templates.Evaluation

namespace ArenaScheme

open Heap HeapM

namespace Heap

variable {h k l m : Heap} {cells vs es spine : List Handle}
  {u v p first last operands procedure form : Handle} {kw : Keywords} {ctx : Context}
  {n budget fuel : Nat}

/-! ## The quotations in a heap -/

/-- A list of quotations is a list of forms that mean the objects that they quote. -/
lemma Shows.means (hs : h.Shows (.quotations kw vs) cells v) :
    ∃ es spine, h.Row .emptyList es spine v ∧ List.Forall₂ (h.Means kw) es vs := by
  induction vs generalizing cells v with
  | nil =>
    cases hs
    exact ⟨[], [], .nil, .nil⟩
  | cons w vs ih =>
    cases hs with
    | @pair _ e rest _ _ _ _ hv he hrest =>
      obtain ⟨es, spine, hrow, hes⟩ := ih hrest
      refine ⟨e :: es, v :: spine, .cons hv hrow, .cons ?_ hes⟩
      -- the form is a list of the keyword and the object
      cases he with
      | pair hform hq hrest =>
        cases hq
        cases hrest with
        | pair hlast hw hnil =>
          cases hw
          cases hnil
          exact .quoted hform (.cons hlast .nil)

/-! ## The list of the values -/

/-- Since `m` the list from `first` to `last` of the object `p` and then `vs` has been made, and it
is held. -/
structure Listing (m : Heap) (p first last : Handle) (vs cells : List Handle)
    (k : Heap) : Prop where
  adds : m.Adds [p] (last :: cells) k
  roots : k.roots = m.roots.push first
  row : ∃ ws w, ws ++ [w] = p :: vs ∧ k.Row last ws cells first ∧
    k.object? last = some (.pair w .emptyList)

namespace Listing

lemma length_eq (hl : m.Listing p first last vs cells k) : cells.length = vs.length := by
  obtain ⟨ws, w, hws, hrow, -⟩ := hl.row
  have hlen := congrArg List.length hws
  rw [List.length_append, List.length_singleton, List.length_cons] at hlen
  rw [hrow.length_eq]
  omega

/-- All of the list is held by the slot. -/
lemma reachable (hl : m.Listing p first last vs cells k) {extra : List Handle} :
    k.Reachable extra p ∧ ∀ u ∈ last :: cells, k.Reachable extra u := by
  obtain ⟨ws, w, hws, hrow, hlast⟩ := hl.row
  have hfirst : k.Reachable extra first := .of_slot (by rw [hl.roots, Array.getElem?_push_size])
  obtain ⟨hcells, hmem, hend⟩ := hrow.reachable hfirst
  refine ⟨?_, List.forall_mem_cons.mpr ⟨hend, hcells⟩⟩
  have hp : p ∈ ws ++ [w] := by simp [hws]
  rcases List.mem_append.mp hp with hp | hp
  · exact hmem p hp
  · exact List.mem_singleton.mp hp ▸ hend.head hlast

/-- There has been no room for the list of `n` objects. -/
def Cramps (m : Heap) (p first : Handle) (n : Nat) (e : Handle) (l : Heap) : Prop :=
  e = .outOfMemory ∧ m.Saves [p] l ∧ l.roots = m.roots.push first ∧ m.capacity < n + m.usedWith [p]

/-- Another object is put at the end. -/
lemma append_finishes {α : Type} {f : Handle → EvalM α} {P : α → Heap → Prop}
    (hl : m.Listing p first last vs cells k) (hv : m.Reachable [p] v) (hn : vs.length + 1 < n)
    (hf : ∀ cell l, m.Listing p first cell (vs ++ [v]) (cells ++ [last]) l →
      (f cell l).Finishes P (Cramps m p first n)) :
    ((do
      let cell ← cons v .emptyList
      setCdr last cell
      f cell) k).Finishes P (Cramps m p first n) := by
  have hlen := hl.length_eq
  have hnil : m.Reachable [p] .emptyList := .sentinel (by decide)
  have hextra : ∀ u ∈ [p], k.Reachable [v, .emptyList] u :=
    List.forall_mem_singleton.mpr hl.reachable.1
  refine finishes_bind ((ArenaScheme.cons_finishes hl.adds (.inl hv) (.inl hnil) hextra
    hl.reachable.2).mono (fun _ _ => id) fun e l he => ?_) fun cell l hc => ?_
  · obtain ⟨rfl, he, hr, hle⟩ := he
    rw [List.length_cons] at hle
    exact ⟨rfl, he.toSaves, hr.trans hl.roots, by omega⟩
  obtain ⟨hc, hcell, hr, hs⟩ := hc
  obtain ⟨ws, w, hws, hrow, hlast⟩ := hl.row
  obtain ⟨hcell', hnew⟩ := List.nodup_cons.mp hc.nodup
  have hne : cell ≠ last := fun he => hcell' (he ▸ List.mem_cons_self)
  have hcells : last ∉ cells := (List.nodup_cons.mp hnew).1
  have hlast' : l.object? last = some (.pair w .emptyList) :=
    (hs.kept last (hl.reachable.2 last List.mem_cons_self)).trans hlast
  rw [bind_of_ok (setCdr_apply (pairAt_eq_some.mpr hlast') cell)]
  -- the last pair leads to the new one now, and nothing else has changed
  have hkept : ∀ u, u ≠ last → (l.setCell last.index (.pair w cell)).object? u = l.object? u :=
    fun u hu => object?_setCell_of_ne (Ne.symm hu)
  have hself : (l.setCell last.index (.pair w cell)).object? last = some (.pair w cell) := by
    rw [object?_setCell l (lt_size_of_object? hlast'), if_pos rfl]
    rfl
  have hchange := hc.change (List.mem_cons_of_mem cell List.mem_cons_self) hlast'
    (by simp [Datum.type])
    (rfl : (Datum.pair w cell).isFree = false) fun c hm => by
      rcases (by simpa [Datum.children] using hm : c = w ∨ c = cell) with rfl | rfl
      · exact hc.closed last (by simp) _ hlast' c (by simp [Datum.children])
      · exact .inr List.mem_cons_self
  have hperm : (cell :: last :: cells).Perm (cell :: (cells ++ [last])) :=
    (List.perm_append_singleton last cells).symm.cons cell
  refine hf cell _ ⟨hchange.perm hperm, hr.trans hl.roots, ws ++ [w], v, by rw [hws]; rfl, ?_, ?_⟩
  · have hrow' : (l.setCell last.index (.pair w cell)).Row last ws cells first :=
      hrow.congr fun c hm => by
      have hcl : c ≠ last := fun he => hcells (he ▸ hm)
      rw [hkept c hcl, hs.kept c (hl.reachable.2 c (List.mem_cons_of_mem last hm))]
    exact hrow'.append (.cons hself .nil)
  · rw [hkept cell hne, hcell]

/-- The values of the operands, each of which means an object. -/
lemma evalOperands_finishes (hl : m.Listing p first last vs cells k) (hs : m.HasSentinels)
    (hframe : m.IsFrame m.currentEnv) (hroom : m.roots.size + 3 ≤ m.rootSlots)
    (hrow : m.Row .emptyList es spine operands) (hreach : m.Reachable [p] operands)
    {ws : List Handle} (hes : List.Forall₂ (m.Means ctx.keywords) es ws)
    (hbudget : es.length < budget) (hn : vs.length + ws.length + 1 = n) :
    (Application.evalOperands (Evaluator.nestedEval ctx (fuel + 1)) budget last operands k).Finishes
      (fun _ l => ∃ last cells, m.Listing p first last (vs ++ ws) cells l)
      (Cramps m p first n) := by
  induction hes generalizing vs cells last k budget spine operands with
  | nil =>
    cases hrow
    obtain ⟨budget, rfl⟩ : ∃ b, budget = b + 1 := ⟨budget - 1, by simp at hbudget; omega⟩
    have hrun : Application.evalOperands (Evaluator.nestedEval ctx (fuel + 1)) (budget + 1) last
      .emptyList k =
        .ok () k := by
      rw [Application.evalOperands, bind_of_ok (asPair_apply (hl.adds.hasSentinels hs).emptyList)]
      rfl
    rw [hrun]
    exact ⟨last, cells, by simpa using hl⟩
  | @cons e w es ws he hes ih =>
    cases hrow with
    | @cons _ next _ _ spine hd hrow =>
      obtain ⟨budget, rfl⟩ : ∃ b, budget = b + 1 := ⟨budget - 1, by simp at hbudget; omega⟩
      have hre : m.Reachable [p] e := hreach.head hd
      have hcurrent : k.IsFrame k.currentEnv := by
        obtain ⟨parent, names, values, hf⟩ := hframe
        exact ⟨parent, names, values, hl.adds.currentEnv ▸
          (hl.adds.kept _ (.anchor .current)).trans hf⟩
      have hslots : k.roots.size + 2 ≤ k.rootSlots := by
        rw [hl.adds.rootSlots, hl.roots, Array.size_push]
        omega
      -- the value of an operand is there already
      have hrun : Evaluator.nestedEval ctx (fuel + 1) e k = .ok w k :=
        (he.saved hl.adds.toSaves hre).nestedEval hl.adds.wellFormed (hl.adds.hasSentinels hs)
          (hl.adds.isLive hre) hcurrent hslots
      rw [List.length_cons] at hbudget hn
      have hparts : (asPair operands : EvalM _) k = .ok (some (e, next)) k :=
        asPair_apply ((hl.adds.kept _ hreach).trans hd)
      rw [Application.evalOperands, bind_of_ok hparts]
      dsimp only
      rw [bind_of_ok hrun]
      refine hl.append_finishes (he.reachable hre) (by omega) fun cell l hcell => ?_
      rw [List.append_cons]
      exact ih hcell hrow (hreach.tail hd) (by omega)
        (by rw [List.length_append, List.length_singleton]; omega)

end Listing

/-- The list of the value `p` of an operator and of the values of the operands. -/
lemma evalCombination_finishes {ws : List Handle}
    (hop : Evaluator.nestedEval ctx (fuel + 1) operator k = .ok p m) (hw : m.WellFormed)
    (hp : m.isLive p = true) (hs : m.HasSentinels) (hframe : m.IsFrame m.currentEnv)
    (hroom : m.roots.size + 3 ≤ m.rootSlots) (hrow : m.Row .emptyList es spine operands)
    (hreach : m.Reachable [p] operands) (hes : List.Forall₂ (m.Means ctx.keywords) es ws)
    (hbudget : es.length < budget) :
    (Application.evalCombination (Evaluator.nestedEval ctx (fuel + 1)) budget operator
      operands k).Finishes
      (fun call l => ∃ args cells, m.Adds [p] (call :: cells) l ∧ l.roots = m.roots ∧
        l.object? call = some (.pair p args) ∧ l.Row .emptyList ws cells args)
      fun e l => e = .outOfMemory ∧ m.Saves [p] l ∧ l.roots = m.roots ∧
        m.capacity < ws.length + 1 + m.usedWith [p] := by
  have hnil : m.Reachable [p] .emptyList := .sentinel (by decide)
  have h0 : m.Adds [p] [] m := .refl hw (List.forall_mem_singleton.mpr hp)
  rw [Application.evalCombination, bind_of_ok hop]
  refine finishes_bind
    ((ArenaScheme.cons_finishes h0 (.inl (.of_extra List.mem_cons_self)) (.inl hnil)
    (List.forall_mem_singleton.mpr (.of_extra List.mem_cons_self)) (by simp)).mono (fun _ _ => id)
    fun e l he => ?_) fun first l hl => ?_
  · obtain ⟨rfl, he, hr, hle⟩ := he
    rw [List.length_nil] at hle
    exact ⟨rfl, he.toSaves, hr, by omega⟩
  obtain ⟨hl, hfirst, hr, -⟩ := hl
  -- the list of one element, in a slot
  have hlist : m.Listing p first first [] [] { l with roots := l.roots.push first } :=
    ⟨hl.push (.inr List.mem_cons_self) (isLive_of_object? hfirst), by rw [hr], [], p, rfl,
      .nil, hfirst⟩
  refine finishes_rooted (by rw [hl.rootSlots, hr]; omega)
    (finishes_bind ((hlist.evalOperands_finishes hs hframe
    hroom hrow hreach hes hbudget rfl).mono (fun _ _ => id) fun e r he => ?_) fun _ r hd => ?_)
  · obtain ⟨rfl, he, hroots, hlt⟩ := he
    have hpop : r.roots.pop = m.roots := by rw [hroots, Array.pop_push]
    refine ⟨by rw [hroots, hr]; simp, rfl, ?_, hpop, by simpa using hlt⟩
    rw [hpop]
    exact he.dropRoots
  · obtain ⟨last, cells, hd⟩ := hd
    have hpop : r.roots.pop = m.roots := by rw [hd.roots, Array.pop_push]
    obtain ⟨vs, v, hvs, hcells, hlast⟩ := hd.row
    have hall : r.Row .emptyList (vs ++ [v]) (cells ++ [last]) first :=
      hcells.append (.cons hlast .nil)
    rw [hvs, List.nil_append] at hall
    have hslot : r.roots[l.roots.size]? = some first := by
      rw [hd.roots, hr, Array.getElem?_push_size]
    rw [contents_apply hslot]
    refine ⟨by rw [hd.roots, hr]; simp, ?_⟩
    -- all of its pairs, the first of them first
    have hperm : (last :: cells).Perm (cells ++ [last]) :=
      (List.perm_append_singleton last cells).symm
    generalize cells ++ [last] = made at hall hperm
    cases hall with
    | @cons _ args _ _ cells hcall hargs =>
      refine ⟨args, cells, ?_, hpop, hcall, hargs.congr fun _ _ => rfl⟩
      exact (hd.adds.perm hperm).pop (by rw [hd.roots, Array.size_push]; omega)

end Heap

end ArenaScheme
