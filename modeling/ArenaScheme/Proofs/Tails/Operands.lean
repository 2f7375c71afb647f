/-
# The values of a combination

The values of the operator and of the operands are collected in a new list, whose first pair is held
in a root slot.  An operand may have a value that is there already, such as a constant or what a
variable is bound to; or its value may be a new integer.  While it is evaluated further cells may be
made, but nothing refers to them any more when its value is there.

`h.Supplies nested up cost expr r` says that evaluating the expression takes `up` root slots and no
more than `cost` cells, whatever has been made since `h` and is still in use.  The list of the
values takes a root slot for itself, and a cell for each value.
-/
import ArenaScheme.Proofs.Calls.Frames
import ArenaScheme.Proofs.Tails.Depths

namespace ArenaScheme

open Heap HeapM

/-- What an expression is worth: an object that is there already, or an integer. -/
inductive Worth
  | old (v : Handle)
  | int (n : Int64)

namespace Heap

variable {h k l m : Heap} {extra made new base hand vs ws es cells spine : List Handle}
  {u v w x e p first last operator operands : Handle} {d d' : Datum} {r : Worth}
  {rs qs : List Worth} {nested : Nested} {up cost s budget : Nat}

/-! ## Objects and their worth -/

/-- An object that an expression of that worth may come to. -/
def IsWorth (h : Heap) : Worth → Handle → Prop
  | .old v, w => w = v
  | .int n, w => h.object? w = some (.int n)

lemma IsWorth.congr (hr : h.IsWorth r v)
    (hk : ∀ n, h.object? v = some (.int n) → k.object? v = some (.int n)) :
    k.IsWorth r v := by
  cases r with
  | old w => exact hr
  | int n => exact hk n hr

lemma forall₂_isWorth_congr (hr : List.Forall₂ h.IsWorth rs vs)
    (hk : ∀ v ∈ vs, ∀ n, h.object? v = some (.int n) → k.object? v = some (.int n)) :
    List.Forall₂ k.IsWorth rs vs := by
  induction hr with
  | nil => exact .nil
  | cons hr _ ih =>
    obtain ⟨hv, hk⟩ := List.forall_mem_cons.mp hk
    exact .cons (hr.congr hv) (ih hk)

/-! ## Cells in use -/

/-- Cells may be left out that nothing else refers to. -/
lemma Adds.restrict (ha : h.Adds extra made k) (hs : new.Sublist made)
    (habove : ∀ i v, h.roots.size ≤ i → k.roots[i]? = some v → h.Reachable extra v ∨ v ∈ new)
    (hclosed : ∀ v ∈ new, ∀ d, k.object? v = some d →
      ∀ c ∈ d.children, h.Reachable extra c ∨ c ∈ new) :
    h.Adds extra new k :=
  ⟨ha.toSaves, ha.size_eq, ha.symbols_eq, habove, ha.nodup.sublist hs,
    fun v hv => ha.fresh v (hs.subset hv), fun v hv => ha.held v (hs.subset hv), hclosed⟩

/-- A root slot may be given up for what was in it. -/
lemma reachable_of_push (hr : ({ k with roots := k.roots.push v } : Heap).Reachable extra u) :
    k.Reachable (v :: extra) u := by
  have hroots : ∀ w ∈ (k.roots.push v).toList, k.Reachable (v :: extra) w := by
    intro w hw
    rw [Array.toList_push, List.mem_append, List.mem_singleton] at hw
    rcases hw with hw | rfl
    · exact .anchor (.root hw)
    · exact .of_extra List.mem_cons_self
  have hmono : ({ k with roots := k.roots.push v } : Heap).Reachable (v :: extra) u :=
    hr.mono fun w hw => .of_extra (List.mem_cons_of_mem v hw)
  exact hmono.transport (k := k) rfl rfl rfl rfl hroots fun w d hd hw c hc => .child hw hd hc

/-- Occupying another slot. -/
lemma Saves.push (hs : h.Saves extra k) (hv : k.isLive v = true) :
    h.Saves extra { k with roots := k.roots.push v } := by
  have hd := hs.depth
  refine hs.setRoots (hs.wellFormed.push hv) (by rw [Array.size_push]; omega) fun i hi => ?_
  rw [Array.getElem?_push, if_neg (by omega)]

/-- Since `h` the cells `made` have been made, and all of them can be reached from the roots or from
what is in hand. -/
structure Retains (h : Heap) (made hand : List Handle) (k : Heap) :
    Prop extends h.Adds [] made k where
  within : ∀ u ∈ made, k.Reachable hand u

namespace Retains

lemma refl (hw : h.WellFormed) : h.Retains [] [] h := ⟨.refl hw (by simp), by simp⟩

lemma isLive (hr : h.Retains made hand k) (hv : h.Reachable [] v ∨ v ∈ made) : k.isLive v = true :=
  hv.elim (fun hv => hr.toSaves.isLive hv) (hr.held v)

/-- Holding what is in hand. -/
lemma push (hr : h.Retains made [v] k) (hv : h.Reachable [] v ∨ v ∈ made) :
    h.Retains made [] { k with roots := k.roots.push v } :=
  ⟨hr.toAdds.push hv (hr.isLive hv), fun u hu => Drafting.reachable_push (hr.within u hu)⟩

lemma hold (hr : h.Retains made [] k) : h.Retains made [v] k :=
  ⟨hr.toAdds, fun u hu => .of_nil (hr.within u hu)⟩

/-- One cell more, if there is room. -/
lemma alloc (hr : h.Retains made hand k) (hf : d.isFree = false)
    (hd : ∀ v ∈ d.children, h.Reachable [] v ∨ v ∈ made) (hh : ∀ v ∈ hand, v ∈ d.children)
    (hcap : made.length + h.usedWith [] < h.capacity) :
    ∃ v l, HeapM.alloc d k = .ok v l ∧ h.Retains (v :: made) [v] l ∧ l.object? v = some d ∧
      l.roots = k.roots ∧ k.Adds d.children [v] l := by
  have hwithin : ∀ u ∈ made, k.Reachable d.children u := fun u hu =>
    (hr.within u hu).mono fun v hv => .of_extra (hh v hv)
  rcases alloc_adds hr.wellFormed hf fun v hv => hr.isLive (hd v hv) with
    ⟨v, l, hrun, hl, hv, hroots⟩ | ⟨l, -, -, -, hall⟩
  · have hparts : ∀ c ∈ d.children, l.Reachable [v] c := fun c hc =>
      .child (.of_extra List.mem_cons_self) hv hc
    refine ⟨v, l, hrun, ⟨hr.toAdds.trans hl (by simp) hwithin hd, ?_⟩, hv, hroots, hl⟩
    exact List.forall_mem_cons.mpr ⟨.of_extra List.mem_cons_self, fun u hu =>
      hl.toSaves.reachable hparts (hwithin u hu)⟩
  · have hle := hr.toAdds.capacity_le hd hall
    omega

end Retains

/-! ## Evaluating an operand -/

/-- The object `v` is there already, or it is the new cell and refers to nothing. -/
def Adopts (h : Heap) (new : List Handle) (v : Handle) (l : Heap) : Prop :=
  new = [] ∧ h.Reachable [] v ∨ new = [v] ∧ ∃ d, l.object? v = some d ∧ d.children = []

/-- Since `k`, when the cells `made` were in use, nothing has come into use but the object `v`. -/
structure Supplied (h k : Heap) (made : List Handle) (cost : Nat) (r : Worth) (v : Handle)
    (l : Heap) : Prop
    where
  retains : ∃ new, new.length ≤ cost ∧ h.Retains (new ++ made) [v] l ∧ h.Adopts new v l
  roots : l.roots = k.roots
  saves : k.Saves [] l
  worth : l.IsWorth r v

/-- Whenever nothing has been made since `h` but cells that are in use, the expression comes to an
object of that worth.  This takes `up` root slots and at most `cost` cells. -/
def Supplies (h : Heap) (nested : Nested) (up cost : Nat) (expr : Handle) (r : Worth) : Prop :=
  ∀ made k, h.Retains made [] k → made.length + cost + h.usedWith [] ≤ h.capacity →
    (nested expr k).Peaks h.rootSlots (k.roots.size + up) (h.Supplied k made cost r)

lemma Adopts.known (ha : h.Adopts new v l) : h.Reachable [] v ∨ v ∈ new := by
  rcases ha with ⟨-, hr⟩ | ⟨rfl, -⟩
  · exact .inl hr
  · exact .inr List.mem_cons_self

/-- A value that is an integer. -/
lemma Supplies.int {n : Int64} (hs : h.Supplies nested up cost e (.old v)) (hr : h.Reachable [] v)
    (hv : h.object? v = some (.int n)) : h.Supplies nested up cost e (.int n) := by
  intro made k hk hcap
  refine (hs made k hk hcap).mono fun w l hl => ?_
  obtain ⟨hnew, hroots, hsaves, rfl⟩ := hl
  exact ⟨hnew, hroots, hsaves, (hsaves.kept w (hk.toSaves.reachable (by simp) hr)).trans
    ((hk.kept w hr).trans hv)⟩

/-- A value that is there already. -/
lemma Means.supplies {ctx : Context} (hm : h.Means ctx.keywords e v) (hs : h.HasSentinels)
    (hr : h.Reachable [] e) (hf : h.IsFrame h.currentEnv) :
    h.Supplies (Evaluator.nestedEval ctx (budget + 1)) 2 0 e (.old v) := by
  intro made k hk _
  obtain ⟨p, names, values, hd⟩ := hf
  have hframe : k.IsFrame k.currentEnv :=
    ⟨p, names, values, hk.currentEnv ▸ (hk.kept _ (.anchor .current)).trans hd⟩
  have hmeans := hm.saved hk.toSaves hr
  refine (hmeans.peaks hk.wellFormed (hk.hasSentinels hs)
    (hk.toSaves.isLive hr) hframe hk.rootSlots).mono ?_
  rintro w l ⟨rfl, rfl⟩
  exact ⟨⟨[], by simp, hk.hold, .inl ⟨rfl, hm.reachable hr⟩⟩, rfl,
    .refl hk.wellFormed (by simp), rfl⟩

/-! ## The list of the values -/

/-- Whatever can be reached can be reached still when a list goes on after its end. -/
lemma Reachable.setTail (hr : m.Reachable extra u)
    (hlast : m.object? last = some (.pair w .emptyList))
    (cell : Handle) : (m.setCell last.index (.pair w cell)).Reachable extra u := by
  refine hr.transport (by simp) rfl rfl rfl
    (fun x hx => .anchor (.root hx)) fun x d hd hx c hc => ?_
  by_cases hxl : x = last
  · subst hxl
    have hself : (m.setCell x.index (.pair w cell)).object? x = some (.pair w cell) := by
      rw [object?_setCell m (lt_size_of_object? hlast), if_pos rfl]
      rfl
    obtain rfl := Option.some.inj (hlast.symm.trans hd)
    rcases (by simpa [Datum.children] using hc : c = w ∨ c = .emptyList) with rfl | rfl
    · exact hx.head hself
    · exact .sentinel (by decide)
  · exact .child hx ((object?_setCell_of_ne (Ne.symm hxl)).trans hd) hc

/-- Since `k₀` the list from `first` to `last` of objects worth `rs` has been made, and `first` is
held. -/
structure Gathers (h k₀ : Heap) (made : List Handle) (first last : Handle) (rs : List Worth)
    (k : Heap) : Prop where
  retains : h.Retains made [] k
  saves : k₀.Saves [] k
  roots : k.roots = k₀.roots.push first
  mem : last ∈ made
  fresh : ¬ k₀.Reachable [] last
  row : ∃ cells ws w, k.Row last ws cells first ∧ k.object? last = some (.pair w .emptyList) ∧
    (∀ c ∈ cells, c ∈ made ∧ c ≠ last) ∧ List.Forall₂ k.IsWorth rs (ws ++ [w])

namespace Gathers

variable {k₀ : Heap}

lemma reachable_first (hg : Gathers h k₀ made first last rs k) : k.Reachable [] first :=
  .anchor (.root (by rw [hg.roots]; simp))

/-- What the list leads to has not changed when there is another value, and a cell for it. -/
lemma kept (hkl : k.Saves [] l) (hlm : l.Adds extra [u] m) (hv : k.Reachable [] v) :
    m.object? v = k.object? v ∧ v ≠ u := by
  have hvl : l.Reachable extra v := .of_nil (hkl.reachable (by simp) hv)
  refine ⟨(hlm.kept v hvl).trans (hkl.kept v hv), ?_⟩
  rintro rfl
  exact (hlm.fresh v List.mem_cons_self).2 hvl

/-- Putting the cell of a value at the end. -/
lemma append {cell : Handle} (hg : Gathers h k₀ made first last rs k) (hkl : k.Saves [] l)
    (hroots : l.roots = k.roots) (hworth : l.IsWorth r v)
    (hm : h.Retains (cell :: (new ++ made)) [cell] m)
    (hlm : l.Adds (Datum.pair v .emptyList).children [cell] m) (hrm : m.roots = l.roots)
    (hcell : m.object? cell = some (.pair v .emptyList))
    (hlast : m.object? last = some (.pair w .emptyList)) :
    Gathers h k₀ (cell :: (new ++ made)) first cell (rs ++ [r])
      (m.setCell last.index (.pair w cell)) := by
  have hmade : ∀ {u}, u ∈ made → k.Reachable [] u := hg.retains.within _
  have hmem : last ∈ cell :: (new ++ made) := by simp [hg.mem]
  have hother : ∀ {u}, u ≠ last → (m.setCell last.index (.pair w cell)).object? u = m.object? u :=
    fun hu => object?_setCell_of_ne (Ne.symm hu)
  have hself : (m.setCell last.index (.pair w cell)).object? last = some (.pair w cell) := by
    rw [object?_setCell m (lt_size_of_object? hlast), if_pos rfl]
    rfl
  have hint : ∀ {u n}, m.object? u = some (.int n) →
      (m.setCell last.index (.pair w cell)).object? u = some (.int n) := by
    intro u n hu
    rw [hother, hu]
    rintro rfl
    rw [hlast] at hu
    cases hu
  have hchildren : ∀ c ∈ (Datum.pair w cell).children, h.Reachable [] c ∨
      c ∈ cell :: (new ++ made) := by
    intro c hc
    rcases (by simpa [Datum.children] using hc : c = w ∨ c = cell) with rfl | rfl
    · exact hm.closed last hmem _ hlast c (by simp [Datum.children])
    · exact .inr List.mem_cons_self
  -- the new cell was in hand, and now the list leads to it
  have hwithin : ∀ u ∈ cell :: (new ++ made),
      (m.setCell last.index (.pair w cell)).Reachable [] u := by
    intro u hu
    have hlastm : m.Reachable [] last :=
      hlm.toSaves.nil.reachable (by simp) (hkl.reachable (by simp) (hmade hg.mem))
    have hlastr := hlastm.setTail hlast cell
    refine ((hm.within u hu).setTail hlast cell).mono fun c hc => ?_
    obtain rfl := List.mem_singleton.mp hc
    exact hlastr.tail hself
  obtain ⟨cells, ws, w', hrow, hlastk, hcells, hworths⟩ := hg.row
  obtain ⟨rfl, -⟩ := Datum.pair.inj
    (Option.some.inj (hlast.symm.trans ((kept hkl hlm (hmade hg.mem)).1.trans hlastk)))
  refine ⟨⟨hm.toAdds.change hmem hlast (by simp [Datum.type]) rfl hchildren, hwithin⟩, ?_, ?_,
    List.mem_cons_self, ?_, cells ++ [last], ws ++ [w], v, ?_, ?_, fun c hc => ?_, ?_⟩
  · have hs := (hg.saves.trans hkl (by simp)).trans hlm.toSaves.nil (by simp)
    exact hs.setCell hg.fresh hlast (by simp [Datum.type]) rfl fun c hc =>
      hm.isLive (hchildren c hc)
  · exact (hrm.trans hroots).trans hg.roots
  · exact fun hr => (kept hkl hlm (hg.saves.reachable (by simp) hr)).2 rfl
  · have hrow' : (m.setCell last.index (.pair w cell)).Row last ws cells first :=
      hrow.congr fun c hc =>
        (hother (hcells c hc).2).trans (kept hkl hlm (hmade (hcells c hc).1)).1
    exact hrow'.append (.cons hself .nil)
  · rw [hother (kept hkl hlm (hmade hg.mem)).2.symm, hcell]
  · rcases (by simpa using hc : c ∈ cells ∨ c = last) with hc | rfl
    · exact ⟨by simp [(hcells c hc).1], (kept hkl hlm (hmade (hcells c hc).1)).2⟩
    · exact ⟨hmem, (kept hkl hlm (hmade hg.mem)).2⟩
  · have hws : ∀ x ∈ ws ++ [w], k.Reachable [] x := by
      obtain ⟨-, hws, hend⟩ := hrow.reachable hg.reachable_first
      simpa [or_imp, forall_and] using ⟨hws, hend.head hlastk⟩
    refine List.rel_append (forall₂_isWorth_congr hworths fun x hx n hn => ?_) (.cons ?_ .nil)
    · exact hint ((kept hkl hlm (hws x hx)).1.trans hn)
    · exact hworth.congr fun n hn =>
        hint ((hlm.kept v (.of_extra (by simp [Datum.children]))).trans hn)

/-- Evaluating an operand and putting its value at the end. -/
lemma operand {α : Type} {f : Handle → EvalM α} {P : α → Heap → Prop} {depth : Nat}
    (hg : Gathers h k₀ made first last rs k) (he : h.Supplies nested up cost e r)
    (hcap : made.length + cost + h.usedWith [] < h.capacity)
    (hf : ∀ cell more l, more.length ≤ cost + 1 →
      Gathers h k₀ (more ++ made) first cell (rs ++ [r]) l →
      (f cell l).Peaks h.rootSlots depth P) :
    ((do
      let cell ← cons (← nested e) .emptyList
      setCdr last cell
      f cell) k).Peaks h.rootSlots (max (k₀.roots.size + 1 + up) depth) P := by
  have hsize : k₀.roots.size + 1 = k.roots.size := by rw [hg.roots, Array.size_push]
  rw [hsize]
  refine peaks_bind (he made k hg.retains (by omega)) fun v l hl => ?_
  obtain ⟨⟨new, hlen, hl, hv⟩, hroots, hkl, hworth⟩ := hl
  have hnil : h.Reachable [] .emptyList := .sentinel (by decide)
  have hv' : h.Reachable [] v ∨ v ∈ new ++ made := hv.known.imp_right (List.mem_append_left made)
  obtain ⟨cell, m, hrun, hm, hcell, hrm, hlm⟩ := hl.alloc (d := .pair v .emptyList) rfl
    (List.forall_mem_cons.mpr ⟨hv', List.forall_mem_singleton.mpr (.inl hnil)⟩)
    (by simp [Datum.children]) (by rw [List.length_append]; omega)
  refine peaks_bind_of_ok (x := cons v .emptyList) hrun ?_
  obtain ⟨-, -, w, -, hlast, -⟩ := hg.row
  replace hlast : m.object? last = some (.pair w .emptyList) :=
    (kept hkl hlm (hg.retains.within _ hg.mem)).1.trans hlast
  refine peaks_bind_of_ok (setCdr_apply (pairAt_eq_some.mpr hlast) cell) ?_
  exact hf cell (cell :: new) _ (by simpa using hlen)
    (hg.append hkl hroots hworth hm hlm hrm hcell hlast)

/-- Evaluating all operands. -/
lemma evalOperands (hg : Gathers h k₀ made first last rs k) (hs : h.HasSentinels)
    (hops : h.Row .emptyList es spine operands) (hreach : h.Reachable [] operands)
    (hes : List.Forall₂ (h.Supplies nested up cost) es qs) (hb : es.length < budget)
    (hcap : made.length + es.length * (cost + 1) + h.usedWith [] ≤ h.capacity) :
    (Application.evalOperands nested budget last operands k).Peaks h.rootSlots
      (if es = [] then 0 else k₀.roots.size + 1 + up) fun _ l => ∃ last more,
        more.length ≤ es.length * (cost + 1) ∧
        Gathers h k₀ (more ++ made) first last (rs ++ qs) l := by
  induction hes generalizing made last rs k budget spine operands with
  | nil =>
    cases hops
    obtain ⟨budget, rfl⟩ : ∃ b, budget = b + 1 := ⟨budget - 1, by simp at hb; omega⟩
    have hrun : Application.evalOperands nested (budget + 1) last .emptyList k = .ok () k := by
      rw [Application.evalOperands, bind_of_ok
        (asPair_apply (hg.retains.hasSentinels hs).emptyList)]
      rfl
    exact peaks_of_ok hrun ⟨last, [], by simp, by simpa using hg⟩
  | @cons e q es qs he hes ih =>
    cases hops with
    | @cons _ next _ _ cells hv hr =>
      obtain ⟨budget, rfl⟩ : ∃ b, budget = b + 1 := ⟨budget - 1, by simp at hb; omega⟩
      have hlen : (e :: es).length * (cost + 1) = es.length * (cost + 1) + (cost + 1) := by
        rw [List.length_cons, Nat.succ_mul]
      rw [hlen] at hcap ⊢
      have hdepth : (if e :: es = [] then 0 else k₀.roots.size + 1 + up) =
          max (k₀.roots.size + 1 + up) (if es = [] then 0 else k₀.roots.size + 1 + up) := by
        rw [if_neg (by simp)]
        split <;> omega
      rw [Application.evalOperands, hdepth]
      refine peaks_bind_of_ok (asPair_apply ((hg.retains.kept _ hreach).trans hv)) ?_
      refine hg.operand he (by omega) fun cell more l hmore hl => ?_
      refine (ih hl hr (hreach.tail hv) (by simpa using hb)
        (by rw [List.length_append]; omega)).mono
        fun _ m hm => ?_
      obtain ⟨last', more', hmore', hm⟩ := hm
      refine ⟨last', more' ++ more, by rw [List.length_append]; omega, ?_⟩
      simpa using hm

end Gathers

/-- The list of the values of an operator that has a value and of some operands. -/
lemma evalCombination_peaks (hk : h.Retains base [] k) (hs : h.HasSentinels)
    (hop : h.Supplies nested 2 0 operator (.old p)) (hp : h.Reachable [] p)
    (hops : h.Row .emptyList es spine operands) (hreach : h.Reachable [] operands) (hne : es ≠ [])
    (hes : List.Forall₂ (h.Supplies nested up cost) es qs) (hup : 0 < up) (hb : es.length < budget)
    (hcap : base.length + 1 + es.length * (cost + 1) + h.usedWith [] ≤ h.capacity) :
    (Application.evalCombination nested budget operator operands k).Peaks h.rootSlots
    (k.roots.size + 1 + up)
      fun call l => ∃ more args vs cells, more.length ≤ 1 + es.length * (cost + 1) ∧
        call ∈ more ++ base ∧
        h.Retains (more ++ base) [call] l ∧ l.roots = k.roots ∧ k.Saves [] l ∧
        l.object? call = some (.pair p args) ∧ l.Row .emptyList vs cells args ∧
        List.Forall₂ l.IsWorth qs vs := by
  have hdepth : k.roots.size + 1 + up = max (k.roots.size + 2) (max (k.roots.size + 1)
      (if es = [] then 0 else k.roots.size + 1 + up)) := by
    rw [if_neg hne]
    omega
  rw [Application.evalCombination, hdepth]
  refine peaks_bind (hop base k hk (by omega)) fun v l hl => ?_
  obtain ⟨⟨new, hnew, hl, -⟩, hroots, hkl, rfl⟩ := hl
  obtain rfl : new = [] := List.eq_nil_of_length_eq_zero (by omega)
  have hnil : h.Reachable [] .emptyList := .sentinel (by decide)
  obtain ⟨first, m, hrun, hm, hfirst, hrm, hlm⟩ := hl.alloc (d := .pair v .emptyList) rfl
    (by simp [Datum.children, hp, hnil]) (by simp [Datum.children]) (by rw [List.nil_append]; omega)
  refine peaks_bind_of_ok (x := cons v .emptyList) hrun ?_
  rw [List.nil_append] at hm
  have hkm : k.Saves [] m := hkl.trans hlm.toSaves.nil (by simp)
  have hmroots : m.roots = k.roots := hrm.trans hroots
  have hfresh : ¬ k.Reachable [] first := fun hr =>
    (hlm.fresh first List.mem_cons_self).2 (.of_nil (hkl.reachable (by simp) hr))
  -- the list has one element now, and it goes on from there
  have hg : Gathers h k (first :: base) first first [.old v]
    { m with roots := m.roots.push first } :=
    ⟨hm.push (.inr List.mem_cons_self), hkm.push (isLive_of_object? hfirst), by rw [hmroots],
      List.mem_cons_self, hfresh, [], [], v, .nil, hfirst, by simp, .cons rfl .nil⟩
  have hdepth' : max (k.roots.size + 1) (if es = [] then 0 else k.roots.size + 1 + up) =
      max (m.roots.size + 1) (max (if es = [] then 0 else k.roots.size + 1 + up) 0) := by
    rw [hmroots, Nat.max_zero]
  rw [hdepth']
  refine peaks_rooted hm.rootSlots ?_
  refine peaks_bind (hg.evalOperands hs hops hreach hes hb (by rw [List.length_cons]; omega))
    fun _ l hl => ?_
  obtain ⟨last, more, hmore, hl⟩ := hl
  obtain ⟨cells, ws, w, hrow, hlast, -, hworths⟩ := hl.row
  have hslot : l.roots[m.roots.size]? = some first := by
    rw [hl.roots, hmroots, Array.getElem?_push_size]
  refine peaks_of_ok (contents_apply hslot) ⟨by rw [hl.roots, hmroots, Array.size_push], ?_⟩
  have hpop : l.roots.pop = k.roots := by rw [hl.roots, Array.pop_push]
  have hpush : ({ l with roots := k.roots.push first } : Heap) = l := by rw [← hl.roots]
  have hall : l.Row .emptyList (ws ++ [w]) (cells ++ [last]) first := hrow.append (.cons hlast .nil)
  have hmade : more ++ [first] ++ base = more ++ first :: base := by simp
  generalize ws ++ [w] = vs at hworths hall
  generalize cells ++ [last] = cells at hall
  have hadds := hl.retains.toAdds.pop (by rw [hl.roots, Array.size_push]; have := hk.depth; omega)
  rw [hpop] at hadds ⊢
  -- the value of the operator comes first
  cases hworths with
  | @cons _ x _ vs hx hworths =>
    obtain rfl : x = v := hx
    cases hall with
    | @cons _ args _ _ cells hfirst' hargs =>
      refine ⟨more ++ [first], args, vs, cells, ?_, by simp, ⟨hmade ▸ hadds, fun u hu => ?_⟩, rfl,
        hl.saves.dropRoots, hfirst', ?_, ?_⟩
      · rw [List.length_append, List.length_singleton]
        omega
      · have hu := hl.retains.within u (hmade ▸ hu)
        rw [← hpush] at hu
        exact reachable_of_push (k := { l with roots := k.roots }) hu
      · exact hargs.congr fun _ _ => rfl
      · exact forall₂_isWorth_congr hworths fun _ _ _ hn => hn

end Heap

end ArenaScheme
