/-
# From turn to turn

In each turn there are new objects, and some of those that there have been before are given up, the
form that is evaluated among them.  `h.Carries extra made hand k` says what is left: what can be
reached in `k` is what could be reached in `h` from `extra`, and that is as it was, and besides the
new objects `made`.  So a later turn relies on nothing but what is listed.

A call that is made of new objects is in the custody of the slot that holds it if none of the other
new objects refers to it.  Then its operands are evaluated one after the other.
-/
import ArenaScheme.Proofs.Expansion.Let
import ArenaScheme.Proofs.Scopes.Gathering
import ArenaScheme.Proofs.Tails.Closures

namespace ArenaScheme

open Heap HeapM

namespace Built

/-- What a result refers to beside its new pairs. -/
def leaves : Built → List Handle
  | same v => [v]
  | pair head tail => head.leaves ++ tail.leaves

lemma leaves_list (ts : List Built) : (list ts).leaves = ts.flatMap leaves ++ [.emptyList] := by
  induction ts with
  | nil => rfl
  | cons t ts ih =>
    rw [List.flatMap_cons, List.append_assoc, ← ih]
    rfl

lemma leaves_list_same (vs : List Handle) : (list (vs.map .same)).leaves = vs ++ [.emptyList] := by
  rw [leaves_list, List.flatMap_map, ← List.flatMap_singleton' vs, List.flatMap_assoc]
  simp [leaves]

end Built

namespace Heap

variable {h k l m z : Heap} {extra made hand others cells es vs : List Handle}
  {u v w p q rest : Handle} {t : Built} {ctx : Context} {n : Nat}

/-! ## The parts of a result -/

lemma Shows.head_mem (hs : h.Shows t cells v) : v ∈ cells ∨ v ∈ t.leaves := by
  cases hs with
  | same => exact .inr (by simp [Built.leaves])
  | pair => exact .inl List.mem_cons_self

/-- The new pairs lead to each other and to the leaves. -/
lemma Shows.closed (hs : h.Shows t cells v) :
    ∀ u ∈ cells, ∀ d, h.object? u = some d → ∀ c ∈ d.children, c ∈ cells ∨ c ∈ t.leaves := by
  induction hs with
  | same => simp
  | @pair v a b t u c d hv ha hb iha ihb =>
    have hleft : ∀ {x}, x ∈ c ∨ x ∈ t.leaves →
        x ∈ v :: (c ++ d) ∨ x ∈ (Built.pair t u).leaves := fun hx =>
      hx.imp (fun hx => List.mem_cons_of_mem v (List.mem_append_left d hx))
        (List.mem_append_left u.leaves)
    have hright : ∀ {x}, x ∈ d ∨ x ∈ u.leaves →
        x ∈ v :: (c ++ d) ∨ x ∈ (Built.pair t u).leaves := fun hx =>
      hx.imp (fun hx => List.mem_cons_of_mem v (List.mem_append_right c hx))
        (List.mem_append_right t.leaves)
    intro x hx e he y hy
    rcases List.mem_cons.mp hx with rfl | hx
    · obtain rfl := Option.some.inj (hv.symm.trans he)
      rcases (by simpa [Datum.children] using hy : y = a ∨ y = b) with rfl | rfl
      · exact hleft ha.head_mem
      · exact hright hb.head_mem
    · rcases List.mem_append.mp hx with hx | hx
      · exact hleft (iha x hx e he y hy)
      · exact hright (ihb x hx e he y hy)

lemma Shows.reachable_leaves (hs : h.Shows t cells v) (hv : h.Reachable extra v) :
    ∀ u ∈ t.leaves, h.Reachable extra u := by
  induction hs with
  | same => simpa [Built.leaves] using hv
  | pair hp _ _ iha ihb => exact List.forall_mem_append.mpr ⟨iha (hv.head hp), ihb (hv.tail hp)⟩

/-- A new list of objects is a row of new pairs. -/
lemma Shows.row (hs : h.Shows (.list (vs.map .same)) cells v) : h.Row .emptyList vs cells v := by
  induction vs generalizing cells v with
  | nil =>
    cases hs
    exact .nil
  | cons x vs ih =>
    cases hs with
    | pair hv hx hrest =>
      cases hx
      exact .cons hv (ih hrest)

lemma Row.shows (hr : h.Row .emptyList vs cells v) : h.Shows (.list (vs.map .same)) cells v := by
  induction hr with
  | nil => exact .same
  | cons hv _ ih => exact .pair hv .same ih

lemma Row.closed (hr : h.Row .emptyList vs cells v) :
    ∀ u ∈ cells, ∀ d, h.object? u = some d → ∀ c ∈ d.children, c ∈ cells ∨ c ∈ vs ∨
      c = .emptyList := by
  intro u hu d hd c hc
  have hmem := hr.shows.closed u hu d hd c hc
  rwa [Built.leaves_list_same, List.mem_append, List.mem_singleton] at hmem

/-! ## What is left after a turn -/

/-- What can be reached in `k` is what could be reached in `h` from `extra`, and this is as it was,
and the new objects `made`. -/
structure Carries (h : Heap) (extra made hand : List Handle) (k : Heap) : Prop where
  wellFormed : k.WellFormed
  frame : SameFrame h { k with roots := h.roots, currentEnv := h.currentEnv }
  kept : ∀ v, h.Reachable extra v → k.object? v = h.object? v
  fresh : ∀ v ∈ made, h.Collectible v.index ∧ ¬ h.Reachable extra v
  reachable_iff : ∀ v, k.Reachable hand v ↔ h.Reachable extra v ∨ v ∈ made

/-- The rest of the heap stays the same, whatever becomes of the slots and the current frame. -/
lemma SameFrame.relocate (hk : SameFrame h { k with roots := h.roots, currentEnv := h.currentEnv })
    {l : Heap}
    (hl : SameFrame k l) : SameFrame h { l with roots := h.roots, currentEnv := h.currentEnv } :=
  ⟨hl.size.trans hk.size, hl.capacity.trans hk.capacity, rfl, hl.rootSlots.trans hk.rootSlots,
    hl.symbols.trans hk.symbols, hl.baseEnv.trans hk.baseEnv, rfl, hl.audited.trans hk.audited⟩

namespace Carries

/-- There is one more slot, and nothing leads to anything else. -/
lemma of_closed (hw : k.WellFormed)
    (hframe : SameFrame h { k with roots := h.roots, currentEnv := h.currentEnv })
    (hkept : ∀ v, h.Reachable extra v → k.object? v = h.object? v)
    (hfresh : ∀ v ∈ made, h.Collectible v.index ∧ ¬ h.Reachable extra v)
    (hclosed : ∀ v ∈ made, ∀ d, k.object? v = some d →
      ∀ c ∈ d.children, h.Reachable extra c ∨ c ∈ made)
    (hroots : k.roots = h.roots.push w)
    (hknown : ∀ v ∈ w :: k.currentEnv :: hand, h.Reachable extra v ∨ v ∈ made)
    (hheld : ∀ v ∈ h.currentEnv :: (extra ++ made), k.Reachable hand v) :
    h.Carries extra made hand k := by
  have hcol : ∀ {i}, k.Collectible i ↔ h.Collectible i := fun {i} => hframe.collectible (i := i)
  have hsize : k.cells.size = h.cells.size := hframe.size
  have hbase : k.baseEnv = h.baseEnv := hframe.baseEnv
  obtain ⟨hslot, henv, hhand⟩ : (h.Reachable extra w ∨ w ∈ made) ∧
      (h.Reachable extra k.currentEnv ∨ k.currentEnv ∈ made) ∧ ∀ v ∈ hand, h.Reachable extra v ∨
      v ∈ made := by
    simpa only [List.forall_mem_cons] using hknown
  refine ⟨hw, hframe, hkept, hfresh, fun v => ⟨fun hv => ?_, fun hv => ?_⟩⟩
  · induction hv with
    | anchor ha =>
      cases ha with
      | sentinel hv => exact .inl (.sentinel hv)
      | permanent hr hv =>
        exact .inl (.of_not_collectible (hsize ▸ hv) fun hc => absurd (hcol.mpr hc).2
          (Nat.not_lt.mpr hr))
      | root hv =>
        rw [hroots, Array.toList_push, List.mem_append, List.mem_singleton] at hv
        rcases hv with hv | rfl
        · exact .inl (.anchor (.root hv))
        · exact hslot
      | base => exact .inl (hbase ▸ .anchor .base)
      | current => exact henv
      | extra hv => exact hhand _ hv
    | @child u v d _ hd hv ih =>
      rcases ih with hu | hu
      · exact .inl (.child hu ((hkept u hu).symm.trans hd) hv)
      · exact hclosed u hu d hd v hv
  · rcases hv with hv | hv
    · induction hv with
      | anchor ha =>
        cases ha with
        | sentinel hv => exact .sentinel hv
        | permanent hr hv =>
          exact .of_not_collectible (hsize ▸ hv) fun hc => absurd (hcol.mp hc).2 (Nat.not_lt.mpr hr)
        | root hv => exact .anchor (.root (by simp [hroots, Array.mem_toList_iff.mp hv]))
        | base => exact hbase ▸ .anchor .base
        | current => exact hheld _ (by simp)
        | extra hv => exact hheld _ (by simp [hv])
      | child hu hd hv ih => exact .child ih ((hkept _ hu).trans hd) hv
    · exact hheld v (by simp [hv])

lemma reachable (hc : h.Carries extra made hand k) (hv : h.Reachable extra v) :
    k.Reachable hand v :=
  (hc.reachable_iff v).mpr (.inl hv)

lemma reachable_made (hc : h.Carries extra made hand k) (hv : v ∈ made) : k.Reachable hand v :=
  (hc.reachable_iff v).mpr (.inr hv)

lemma usedWith_le (hc : h.Carries extra made hand k) :
    k.usedWith hand ≤ h.usedWith extra + made.length :=
  usedWith_le_of_cases hc.frame.capacity fun v _ hv => (hc.reachable_iff v).mp hv

lemma hasSentinels (hc : h.Carries extra made hand k) (hs : h.HasSentinels) : k.HasSentinels :=
  fun v hv => (hc.kept v (.sentinel hv)).trans (hs v hv)

/-! ## The custody of a call -/

section Custody

variable (hc : h.Carries extra made hand k) (hs : k.Shows t cells w)
  (hroots : k.roots = h.roots.push w) (hcells : ∀ u ∈ cells, u ∈ made) (henv : k.currentEnv ∉ cells)
  (hparts : ∀ u ∈ made, u ∉ cells → ∀ d, k.object? u = some d → ∀ c ∈ d.children, c ∉ cells)
include hc hroots hcells henv hparts

/-- A result is in the custody of the new slot if no other new object refers to it. -/
lemma keeps (hn : ∀ v ∈ cells, regionStart ≤ v.index) :
    (hs.custody hn h.roots.size).Keeps (k.waste hand) k := by
  have hold : ∀ v, h.Reachable extra v → v ∉ cells := fun v hv hm => (hc.fresh v (hcells v hm)).2 hv
  have hspare : ∀ {v}, v ∉ cells → (hs.custody hn h.roots.size).Spares v := hs.spares_custody hn
  refine Custody.keeps_waste ?_ (fun v d hd => ?_) (fun v d hv hsp hd c hcd => ?_)
    (fun i v hi hv => ?_) (hspare henv)
  · rw [hroots]
    exact Array.getElem?_push_size
  · replace hd : (if v ∈ cells then k.object? v else none) = some d := hd
    split at hd
    · exact hd
    · cases hd
  · rcases (hc.reachable_iff v).mp hv with hv | hv
    · exact hspare (hold c (.child hv ((hc.kept v hv).symm.trans hd) hcd))
    · refine hspare (hparts v hv (fun hm => ?_) d hd c hcd)
      have hnone : (if v ∈ cells then k.object? v else none) = none := hsp
      rw [if_pos hm, hd] at hnone
      cases hnone
  · refine hspare (hold v (.of_slot (i := i) ?_))
    rwa [hroots, Array.getElem?_push, if_neg (show ¬ i = h.roots.size from hi)] at hv

end Custody

end Carries

open Application

/-- A step on a combination whose pairs no other new object refers to calls the value of the
operator with the list of the values of the operands, which are evaluated in the frame that is the
current one. -/
lemma Carries.step_eq (hb : HostBalanced ctx.host) (hd : HostDiscreet ctx.host)
    (hblind : HostBlind ctx.host) (hsent : HostPreserves ctx.host HasSentinels)
    (hwords : ∀ w ∈ ctx.keywords.heads, h.Reachable extra w) (hh : h.HasSentinels)
    (hv : z.object? v = some (.pair q rest)) (hq : q ∉ ctx.keywords.heads)
    (hrow : z.Row .emptyList es cells rest) (hbudget : es.length < n)
    (hes : ∀ e ∈ es, h.Reachable extra e) (hrun : Evaluator.nestedEval ctx n q z = .ok p m)
    (hkept : ∀ u ∈ v :: cells, m.object? u = z.object? u)
    (hc : h.Carries extra (others ++ v :: cells) [p] m) (hroots : m.roots = h.roots.push v)
    (hapart : ∀ u ∈ others, u ∉ v :: cells)
    (hclosed : ∀ u ∈ others, ∀ d, m.object? u = some d →
      ∀ c ∈ d.children, h.Reachable extra c ∨ c ∈ others)
    (henv : h.Reachable extra m.currentEnv ∨ m.currentEnv ∈ others) (hp : p ∈ others) :
    Evaluator.step ctx (Evaluator.nestedEval ctx n) n .expr v z =
      callIn ctx.host (Evaluator.nestedEval ctx n) m.currentEnv p es m := by
  have hstep : Evaluator.step ctx (Evaluator.nestedEval ctx n) n .expr v z =
      ofCombination ctx.host (Evaluator.nestedEval ctx n) n q rest z := by
    simp only [Keywords.heads, List.mem_cons, List.not_mem_nil, or_false, not_or] at hq
    rw [Evaluator.step, Step.ofExpr, bind_of_ok (datum_apply hv)]
    simp [Step.ofPair, hq]
  obtain ⟨hself, hkept'⟩ := List.forall_mem_cons.mp hkept
  have hrow' : m.Row .emptyList es cells rest := hrow.congr hkept'
  have hs : m.Shows (.pair (.same q) (.list (es.map .same))) (v :: cells) v :=
    .pair (hself.trans hv) .same hrow'.shows
  have hcells : ∀ u ∈ v :: cells, u ∈ others ++ v :: cells :=
    fun u hu => List.mem_append_right others hu
  have hn : ∀ u ∈ v :: cells, regionStart ≤ u.index := fun u hu => (hc.fresh u (hcells u hu)).1.1
  -- nothing else leads to the pairs of the call
  have hold : ∀ {u}, h.Reachable extra u ∨ u ∈ others → u ∉ v :: cells := fun hu hm =>
    hu.elim (fun hu => (hc.fresh _ (hcells _ hm)).2 hu) fun hu => hapart _ hu hm
  have hkeeps := hc.keeps hs hroots hcells (hold henv) (fun u hu hnot d hd c hcd => hold (hclosed u
    ((List.mem_append.mp hu).resolve_right hnot) d hd c hcd)) hn
  have hspare : ∀ u, h.Reachable extra u → (hs.custody hn h.roots.size).Spares u := fun u hu =>
    hs.spares_custody hn (hold (.inl hu))
  have hwaste : ∀ u, h.Reachable extra u → (m.waste [p]).Spares u :=
    fun u hu => (hc.reachable hu).spares_waste
  rw [hstep]
  exact ofCombination_eq hb hd hblind hsent (.of_heads fun w hw => hspare w (hwords w hw)) hrow
    (fun c hcm => (if_pos (List.mem_cons_of_mem v hcm)).trans (hkept' c hcm))
    (fun e he => hspare e (hes e he)) hbudget
    hrun hkeeps (.of_heads fun w hw => hwaste w (hwords w hw)) (hc.hasSentinels hh)
    (hs.spares_custody hn (hold (.inr hp))) (Reachable.spares_waste (.of_extra List.mem_cons_self))

end Heap

end ArenaScheme
