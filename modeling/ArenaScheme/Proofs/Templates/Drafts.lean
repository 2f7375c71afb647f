/-
# Copies in the making

The copy of a spine is made from its start.  What there is of it is in a root slot; its last pair is
known, and another pair, or the end, is put into the tail of that pair.  So the pairs of the copy
change while it is being made.  Nothing else does: the pairs are new, and nothing but the copy
refers to them.

In the end the pairs are those of the result, each of them once.
-/
import ArenaScheme.Proofs.Accessors
import ArenaScheme.Proofs.Protection.Constructors
import ArenaScheme.Proofs.Templates.Law

namespace ArenaScheme

open Heap HeapM

namespace Heap

/-! ## Templates and results in a heap -/

/-- The objects are as the template says. -/
def Holds (h : Heap) : Shape → Prop
  | .atom v => h.isLive v = true ∧ h.pairAt v = none
  | .pair v head tail =>
    h.object? v = some (.pair head.handle tail.handle) ∧ h.Holds head ∧ h.Holds tail

/-- The object `v` is the result `t`, whose new pairs are `cells`. -/
inductive Shows (h : Heap) : Built → List Handle → Handle → Prop
  | same {v : Handle} : Shows h (.same v) [] v
  | pair {v a b : Handle} {t u : Built} {c d : List Handle} (hv : h.object? v = some (.pair a b))
      (ha : Shows h t c a) (hb : Shows h u d b) : Shows h (.pair t u) (v :: (c ++ d)) v

variable {h k l m : Heap} {extra made cells c rest : List Handle} {v w u a head : Handle}
  {s x : Shape} {t : Built} {ts : List Built} {last : Option Handle} {d d' : Datum}
  {above : Array Handle}

lemma Holds.saved (hh : h.Holds s) (hs : h.Saves extra k) (hr : h.Reachable extra s.handle) :
    k.Holds s := by
  induction s with
  | atom v => exact ⟨hs.isLive hr, by rw [pairAt, hs.kept v hr]; exact hh.2⟩
  | pair v head tail ihh iht =>
    obtain ⟨hv, hh, ht⟩ := hh
    exact ⟨(hs.kept v hr).trans hv, ihh hh (hr.head hv), iht ht (hr.tail hv)⟩

/-- A list of one element is a row of one pair. -/
lemma Holds.row_of_operand? (hh : h.Holds s) (hx : s.operand? = some x) :
    h.Row .emptyList [x.handle] [s.handle] s.handle ∧ h.Holds x := by
  unfold Shape.operand? at hx
  split at hx
  · split at hx
    · next he =>
      obtain rfl := Option.some.inj hx
      obtain ⟨hv, hx, -⟩ := hh
      rw [Shape.handle, he] at hv
      exact ⟨.cons hv .nil, hx⟩
    · cases hx
  · cases hx

/-- Nothing else is a list of one element. -/
lemma Holds.not_row_of_operand? (hs : h.HasSentinels) (hh : h.Holds s) (hx : s.operand? = none) :
    ¬ h.Row .emptyList [w] cells s.handle := by
  intro hr
  cases hr with
  | cons hv hr =>
    cases hr
    cases s with
    | atom v =>
      rw [Shape.handle] at hv
      exact absurd (pairAt_eq_some.mpr hv) (by rw [hh.2]; simp)
    | pair v head tail =>
      obtain ⟨hp, hhead, htail⟩ := hh
      have hnil := (Datum.pair.inj (Option.some.inj (hp.symm.trans hv))).2
      cases tail with
      | atom last =>
        rw [Shape.handle] at hnil
        simp [Shape.operand?, hnil] at hx
      | pair b y z =>
        rw [Shape.handle] at hnil
        have hb := pairAt_eq_some.mpr htail.1
        rw [hnil, hs.pairAt_emptyList] at hb
        cases hb

/-- The expressions of a template can be reached from it. -/
lemma Holds.reachable_expressions {kw : Keywords} {level : Nat} (hh : h.Holds s)
    (hr : h.Reachable extra s.handle) : ∀ expr ∈ s.fold expressions kw level,
      h.Reachable extra expr := by
  have operand : ∀ {tail x : Shape}, h.Holds tail → h.Reachable extra tail.handle →
      tail.operand? = some x → h.Holds x ∧ h.Reachable extra x.handle := by
    intro tail x ht hr ho
    obtain ⟨hrow, hx⟩ := ht.row_of_operand? ho
    exact ⟨hx, (hrow.reachable hr).2.1 _ List.mem_cons_self⟩
  induction s, level using @Shape.fold.induct kw with
  | case1 s level v hp =>
    rw [Shape.fold_atom hp]
    simp [expressions]
  | case2 s level tag x l hp _ ih =>
    rw [Shape.fold_nest hp]
    cases Shape.sorts_of_part hp with
    | outward _ ho _ | inward _ ho _ =>
      obtain ⟨hv, -, ht⟩ := hh
      obtain ⟨hx, hxr⟩ := operand ht (hr.tail hv) ho
      exact ih hx hxr
  | case3 s level expr hp =>
    rw [Shape.fold_value hp]
    cases Shape.sorts_of_part hp with
    | value _ ho _ =>
      obtain ⟨hv, -, ht⟩ := hh
      exact List.forall_mem_singleton.mpr (operand ht (hr.tail hv) ho).2
  | case4 s level expr rest hp _ ih =>
    rw [Shape.fold_splice hp]
    cases Shape.sorts_of_part hp with
    | splice _ _ ho =>
      obtain ⟨hv, ⟨hw, -, ho'⟩, ht⟩ := hh
      refine List.forall_mem_cons.mpr ⟨?_, ih ht (hr.tail hv)⟩
      exact (operand ho' ((hr.head hv).tail hw) ho).2
  | case5 s level head tail hp _ ihh iht =>
    rw [Shape.fold_pair hp]
    cases Shape.sorts_of_part hp with
    | pair _ _ =>
      obtain ⟨hv, hhead, ht⟩ := hh
      exact List.forall_mem_append.mpr ⟨ihh hhead (hr.head hv), iht ht (hr.tail hv)⟩
  | case6 s level form hp =>
    rw [Shape.fold_malformed hp]
    simp [expressions]

namespace Shows

lemma congr (hs : h.Shows t cells v) (hk : ∀ c ∈ cells, k.object? c = h.object? c) :
    k.Shows t cells v := by
  induction hs with
  | same => exact .same
  | pair hv _ _ iha ihb =>
    obtain ⟨hk, hkk⟩ := List.forall_mem_cons.mp hk
    refine .pair (hk.trans hv) (iha fun c hc => ?_) (ihb fun c hc => ?_)
    · exact hkk c (List.mem_append_left _ hc)
    · exact hkk c (List.mem_append_right _ hc)

lemma reachable (hs : h.Shows t cells v) (hv : h.Reachable extra v) :
    ∀ c ∈ cells, h.Reachable extra c := by
  induction hs with
  | same => simp
  | pair hp _ _ iha ihb =>
    refine List.forall_mem_cons.mpr ⟨hv, fun c hc => ?_⟩
    exact (List.mem_append.mp hc).elim (iha (hv.head hp) c) (ihb (hv.tail hp) c)

/-- What comes after some elements is at the end of their spine. -/
lemma fill (hs : h.Shows (ts.foldr .pair (.same w)) cells v) (ht : h.Shows t c w) :
    h.Shows (ts.foldr .pair t) (cells ++ c) v := by
  induction ts generalizing cells v with
  | nil =>
    cases hs
    exact ht
  | cons u ts ih =>
    cases hs with
    | pair hv ha hb =>
      rw [List.cons_append, List.append_assoc]
      exact .pair hv ha (ih hb)

lemma reachable_end (hs : h.Shows (ts.foldr .pair (.same w)) cells v) (hv : h.Reachable extra v) :
    h.Reachable extra w := by
  induction ts generalizing cells v with
  | nil =>
    cases hs
    exact hv
  | cons u ts ih =>
    cases hs with
    | pair hp ha hb => exact ih hb (hv.tail hp)

end Shows

/-! ## Drafts -/

/-- So far the copy that starts at `head` has the elements `ts`, made of the new pairs `cells`, of
which `last` is the last one of the spine, if there is any. -/
inductive Draft (h : Heap) : Option Handle → List Built → List Handle → Handle → Prop
  | start : Draft h none [] [] .emptyList
  | extended {p a head : Handle} {ts : List Built} {t : Built} {cells c : List Handle}
      (hs : h.Shows (ts.foldr .pair (.same p)) cells head)
      (hp : h.object? p = some (.pair a .emptyList))
      (ha : h.Shows t c a) : Draft h (some p) (ts ++ [t]) (cells ++ (p :: c)) head

lemma Draft.congr (hd : h.Draft last ts cells head) (hk : ∀ c ∈ cells, k.object? c = h.object? c) :
    k.Draft last ts cells head := by
  cases hd with
  | start => exact .start
  | extended hs hp ha =>
    simp only [List.forall_mem_append, List.forall_mem_cons] at hk
    exact .extended (hs.congr hk.1) (hk.2.1.trans hp) (ha.congr hk.2.2)

lemma Draft.reachable (hd : h.Draft last ts cells head) (hr : h.Reachable extra head) :
    ∀ c ∈ cells, h.Reachable extra c := by
  cases hd with
  | start => simp
  | extended hs hp ha =>
    have hp' := hs.reachable_end hr
    simp only [List.forall_mem_append, List.forall_mem_cons]
    exact ⟨hs.reachable hr, hp', ha.reachable (hp'.head hp)⟩

/-! ## Changes -/

/-- Whatever can be reached can still be reached if that holds for the contents of the root slots
and for the children of objects. -/
lemma Reachable.transport (hr : h.Reachable extra v) (hsize : k.cells.size = h.cells.size)
    (hcap : k.capacity = h.capacity) (hbase : k.baseEnv = h.baseEnv)
    (hcur : k.currentEnv = h.currentEnv) (hroots : ∀ u ∈ h.roots.toList, k.Reachable extra u)
    (hchild : ∀ u d, h.object? u = some d → k.Reachable extra u →
      ∀ c ∈ d.children, k.Reachable extra c) :
    k.Reachable extra v := by
  induction hr with
  | anchor ha =>
    cases ha with
    | sentinel hv => exact .sentinel hv
    | permanent hr hv =>
      exact .anchor (.permanent (by rw [regionEnd, hcap]; exact hr) (hsize ▸ hv))
    | root hv => exact hroots _ hv
    | base => exact hbase ▸ .anchor .base
    | current => exact hcur ▸ .anchor .current
    | extra hv => exact .of_extra hv
  | child _ hd hv ih => exact hchild _ _ hd ih _ hv

/-- The order of the new cells does not matter. -/
lemma Adds.perm {made' : List Handle} (ha : h.Adds extra made k) (hp : made.Perm made') :
    h.Adds extra made' k :=
  ⟨ha.toSaves, ha.size_eq, ha.symbols_eq, fun i v hi hv =>
    (ha.above i v hi hv).imp_right hp.mem_iff.mp, hp.nodup_iff.mp ha.nodup, fun v hv =>
      ha.fresh v (hp.mem_iff.mpr hv),
    fun v hv => ha.held v (hp.mem_iff.mpr hv),
    fun v hv d hd c hc => (ha.closed v (hp.mem_iff.mpr hv) d hd c hc).imp_right hp.mem_iff.mp⟩

/-- A new object may be replaced. -/
lemma Adds.change (ha : h.Adds extra made k) (hv : v ∈ made) (hd : k.object? v = some d)
    (ht : d.type ≠ .symbol) (hf : d'.isFree = false)
    (hc : ∀ w ∈ d'.children, h.Reachable extra w ∨ w ∈ made) :
    h.Adds extra made (k.setCell v.index d') := by
  have hlive : ∀ w ∈ d'.children, k.isLive w = true := fun w hw =>
    (hc w hw).elim (fun hr => ha.isLive hr) (ha.held w)
  refine ⟨ha.toSaves.setCell (ha.fresh v hv).2 hd ht hf hlive, by simpa using ha.size_eq,
    ha.symbols_eq, ha.above, ha.nodup, ha.fresh, fun w hw => ?_, fun w hw e he c hc' => ?_⟩
  · rw [isLive_setCell hd hf]
    exact ha.held w hw
  · by_cases hvw : v = w
    · subst hvw
      rw [object?_setCell k (lt_size_of_object? hd), if_pos rfl, hf] at he
      obtain rfl : d' = e := by simpa using he
      exact hc c hc'
    · rw [object?_setCell_of_ne hvw] at he
      exact ha.closed w hw e he c hc'

/-- New cells that cannot be reached any more need not be counted. -/
lemma Adds.forget {sub : List Handle} (ha : h.Adds extra made k) (hs : sub.Sublist made)
    (hr : ∀ v ∈ sub, k.Reachable [] v) (hk : ∀ v ∈ made, k.Reachable [] v → v ∈ sub) :
    h.Adds extra sub k :=
  ⟨ha.toSaves, ha.size_eq, ha.symbols_eq,
    fun i v hi hv => (ha.above i v hi hv).imp_right fun hm => hk v hm (.of_slot hv),
    ha.nodup.sublist hs, fun v hv => ha.fresh v (hs.subset hv), fun v hv =>
      ha.held v (hs.subset hv),
    fun v hv d hd c hc => (ha.closed v (hs.subset hv) d hd c hc).imp_right fun hm =>
      hk c hm (.child (hr v hv) hd hc)⟩

/-- Since `h` the draft `cells` has been made, whose root slot comes next to those of `h`, and so
have the cells `rest`; the slots `above` are occupied besides. -/
structure Drafting (h : Heap) (above : Array Handle) (last : Option Handle) (ts : List Built)
    (cells rest : List Handle) (k : Heap) : Prop where
  adds : h.Adds [] (cells ++ rest) k
  head : ∃ head, k.roots = h.roots.push head ++ above ∧ k.Draft last ts cells head

namespace Drafting

lemma setIfInBounds_slot (roots above : Array Handle) (v w : Handle) :
    (roots.push v ++ above).setIfInBounds roots.size w = roots.push w ++ above := by
  refine Array.ext_getElem? fun i => ?_
  simp only [Array.getElem?_setIfInBounds, Array.getElem?_append, Array.getElem?_push,
    Array.size_append, Array.size_push]
  split
  · next he =>
    subst he
    simp
    omega
  · next he => simp [Ne.symm he]

/-- Putting an object at the end of a draft. -/
lemma link_apply (hD : Drafting h above last ts cells rest k)
    (hw : h.Reachable [] w ∨ w ∈ cells ++ rest) :
    ∃ m head, (Template.link ⟨h.roots.size⟩ last w : EvalM Unit) k = .ok () m ∧
      h.Adds [] (cells ++ rest) m ∧ m.roots = h.roots.push head ++ above ∧
      m.Shows (ts.foldr .pair (.same w)) cells head ∧ (∀ u ∉ cells, m.object? u = k.object? u) ∧
      (∀ extra u, k.Reachable extra u → m.Reachable extra u) ∧ m.collections = k.collections := by
  obtain ⟨ha, head, hroots, hd⟩ := hD
  have hlive : k.isLive w = true := hw.elim (fun hr => ha.isLive hr) (ha.held w)
  cases hd with
  | start =>
    have hlt : h.roots.size < k.roots.size := by
      rw [hroots]
      simp
      omega
    have hset : k.roots.setIfInBounds h.roots.size w = h.roots.push w ++ above := by
      rw [hroots, setIfInBounds_slot]
    have hput := ha.put hw hlive (Nat.le_refl h.roots.size)
    refine ⟨_, w, store_apply hlt w, hput, hset, .same, fun _ _ => rfl, fun extra u hu => ?_, rfl⟩
    refine hu.transport rfl rfl rfl rfl (fun x hx => ?_) fun x d hd hx c hc => .child hx hd hc
    rw [hroots] at hx
    simp only [Array.toList_append, Array.toList_push, List.append_assoc, List.mem_append,
      List.mem_singleton] at hx
    rcases hx with hx | rfl | hx
    · exact .anchor (.root (by rw [hset]; simp [hx]))
    · exact .sentinel (by decide)
    · exact .anchor (.root (by rw [hset]; simp [hx]))
  | @extended p a head ts t cells c hs hp hsa =>
    have hmem : p ∈ (cells ++ (p :: c)) ++ rest := by simp
    have hne : ∀ u ∈ cells ++ c, p ≠ u := by
      rintro u hu rfl
      have hn := (ha.nodup.sublist (List.sublist_append_left _ _))
      rw [List.nodup_append] at hn
      rcases List.mem_append.mp hu with hu | hu
      · exact hn.2.2 p hu p List.mem_cons_self rfl
      · exact (List.nodup_cons.mp hn.2.1).1 hu
    have hkept : ∀ u, p ≠ u → (k.setCell p.index (.pair a w)).object? u = k.object? u := fun u hu =>
      object?_setCell_of_ne hu
    have hnew : (k.setCell p.index (.pair a w)).object? p = some (.pair a w) := by
      rw [object?_setCell k (lt_size_of_object? hp), if_pos rfl]
      rfl
    have hchange := ha.change hmem hp (by simp [Datum.type])
      (rfl : (Datum.pair a w).isFree = false) fun u hu => by
      rcases (by simpa [Datum.children] using hu : u = a ∨ u = w) with rfl | rfl
      · exact ha.closed p hmem _ hp _ (by simp [Datum.children])
      · exact hw
    refine ⟨_, head, setCdr_apply (pairAt_eq_some.mpr hp) w, hchange, hroots, ?_, fun u hu => ?_,
      fun extra u hu => ?_, rfl⟩
    · rw [List.foldr_append]
      have hlast := Shows.pair hnew
        (hsa.congr fun u hu => hkept u (hne u (List.mem_append_right _ hu)))
        (.same (v := w))
      rw [List.append_nil] at hlast
      exact (hs.congr fun u hu => hkept u (hne u (List.mem_append_left _ hu))).fill hlast
    · exact hkept u fun he => hu (he ▸ by simp)
    · refine hu.transport (by simp) rfl rfl rfl (fun x hx => .anchor (.root hx))
        fun x d hd hx c hc => ?_
      by_cases hpx : p = x
      · subst hpx
        obtain rfl := Option.some.inj (hp.symm.trans hd)
        rcases (by simpa [Datum.children] using hc : c = a ∨ c = .emptyList) with rfl | rfl
        · exact hx.head hnew
        · exact .sentinel (by decide)
      · exact .child hx ((hkept x hpx).trans hd) hc

lemma reachable_head {head : Handle} (hr : k.roots = h.roots.push head ++ above) :
    k.Reachable extra head := .of_slot (i := h.roots.size) (by
  rw [hr, Array.getElem?_append_left (by simp), Array.getElem?_push_size])

lemma reachable_cells (hD : Drafting h above last ts cells rest k) :
    ∀ u ∈ cells, k.Reachable extra u := by
  obtain ⟨head, hr, hd⟩ := hD.head
  exact hd.reachable (reachable_head hr)

/-- Giving up the slot above a draft. -/
lemma pop (hD : Drafting h #[v] last ts cells rest k) :
    Drafting h #[] last ts cells rest { k with roots := k.roots.pop } := by
  obtain ⟨head, hr, hd⟩ := hD.head
  have hr' : k.roots = (h.roots.push head).push v := by rw [hr]; simp
  refine ⟨hD.adds.pop (by rw [hr']; simp), head, by rw [hr']; simp, hd.congr fun _ _ => rfl⟩

/-- Extending a draft by one element, which has been made of the new cells `c`. -/
lemma push_finishes (hD : Drafting h above last ts cells (c ++ rest) k) (hv : k.Shows t c v)
    (hknown : h.Reachable [] v ∨ v ∈ cells ++ (c ++ rest))
    (hreach : ∀ u ∈ cells ++ (c ++ rest), k.Reachable [v] u) :
    (Template.push ⟨h.roots.size⟩ last v k).Finishes
      (fun p m => Drafting h above (some p) (ts ++ [t]) (cells ++ (p :: c)) rest m ∧
        k.collections ≤ m.collections ∧ ∀ u ∈ cells ++ (p :: c) ++ rest, m.Reachable [] u)
      fun e m => e = .outOfMemory ∧ h.Adds [] (cells ++ (c ++ rest)) m ∧ m.roots = k.roots ∧
        h.capacity ≤ h.usedWith [] + (cells ++ (c ++ rest)).length := by
  have hnil : ∀ {m : Heap} {e}, m.Reachable e .emptyList := .sentinel (by decide)
  have hreach' : ∀ u ∈ cells ++ (c ++ rest), k.Reachable [v, .emptyList] u := fun u hu =>
    (hreach u hu).mono (List.forall_mem_singleton.mpr (.of_extra List.mem_cons_self))
  obtain ⟨head, hroots, hd⟩ := hD.head
  rw [Template.push]
  refine finishes_bind ((cons_finishes hD.adds hknown (.inl hnil) (by simp) hreach').mono
    (fun _ _ => id) fun _ _ => id) fun p l hl => ?_
  obtain ⟨hl, hp, hr, hs⟩ := hl
  have hdl : l.Draft last ts cells head := hd.congr fun u hu =>
    hs.kept u (hreach' u (List.mem_append_left _ hu))
  have hDl : Drafting h above last ts cells (p :: (c ++ rest)) l :=
    ⟨hl.perm List.perm_middle.symm, head, hr.trans hroots, hdl⟩
  obtain ⟨m, head', hrun, ha, hrm, hshow, hkeep, hreachm, hcoll⟩ :=
    hDl.link_apply (w := p) (.inr (by simp))
  -- the new pair and the element are not part of the draft yet
  have hnot : ∀ u ∈ p :: c, u ∉ cells := by
    intro u hu hc
    refine (List.nodup_append.mp ha.nodup).2.2 u hc u ?_ rfl
    rw [← List.cons_append]
    exact List.mem_append_left _ hu
  have hpm : m.object? p = some (.pair v .emptyList) :=
    (hkeep p (hnot p List.mem_cons_self)).trans hp
  have hvm : m.Shows t c v := hv.congr fun u hu =>
    (hkeep u (hnot u (List.mem_cons_of_mem p hu))).trans
      (hs.kept u (hreach' u (List.mem_append_right _ (List.mem_append_left _ hu))))
  have hp' : m.Reachable [] p := hshow.reachable_end (reachable_head hrm)
  rw [bind_of_ok hrun]
  refine ⟨⟨by simpa using ha, head', hrm, .extended hshow hpm hvm⟩, hs.later.trans_eq hcoll.symm,
    fun u hu => ?_⟩
  have hu' : u = p ∨ u ∈ cells ++ (c ++ rest) := by
    simp only [List.mem_append, List.mem_cons] at hu ⊢
    tauto
  rcases hu' with rfl | hu'
  · exact hp'
  · have hvl : ∀ w ∈ [v, .emptyList], l.Reachable [v] w := by simp [hnil, Reachable.of_extra]
    have hum := hreachm [v] u (hs.reachable hvl (hreach' u hu'))
    exact hum.mono (List.forall_mem_singleton.mpr (hp'.head hpm))

/-- Extending a draft by several objects that are held. -/
lemma pushAll_finishes {vs : List Handle} (hD : Drafting h above last ts cells rest k)
    (hvs : ∀ v ∈ vs, h.Reachable [] v ∨ v ∈ cells ++ rest)
    (hreach : ∀ u ∈ cells ++ rest, k.Reachable [] u) :
    ((vs.foldlM (fun last v => return some (← Template.push ⟨h.roots.size⟩ last v)) last :
        EvalM (Option Handle)) k).Finishes
      (fun p m => ∃ new, Drafting h above p (ts ++ vs.map .same) (cells ++ new) rest m ∧
        new.length = vs.length ∧ k.collections ≤ m.collections ∧
        ∀ u ∈ cells ++ new ++ rest, m.Reachable [] u)
      fun e m => e = .outOfMemory ∧ (∃ head, m.roots = h.roots.push head ++ above) ∧
        ∃ made, h.Adds [] made m ∧ made.length < (cells ++ rest).length + vs.length ∧
          h.capacity ≤ h.usedWith [] + made.length := by
  induction vs generalizing k last ts cells with
  | nil => exact ⟨[], by simpa using hD, rfl, Nat.le_refl _, by simpa using hreach⟩
  | cons v vs ih =>
    obtain ⟨hv, hvs⟩ := List.forall_mem_cons.mp hvs
    rw [List.foldlM_cons, bind_assoc]
    refine finishes_bind
      ((push_finishes (c := []) hD .same hv fun u hu => .of_nil (hreach u hu)).mono
      (fun _ _ => id) fun e m hm => ?_) fun p m hm => ?_
    · obtain ⟨rfl, ha, hr, hle⟩ := hm
      obtain ⟨head, hroots, -⟩ := hD.head
      exact ⟨rfl, ⟨head, hr.trans hroots⟩, _, ha, by simp, hle⟩
    · obtain ⟨hD', hlater, hreach'⟩ := hm
      rw [pure_bind]
      refine (ih hD' (fun u hu => (hvs u hu).imp_right fun hm => ?_) hreach').mono
        (fun q l hl => ?_)
        fun e l hl => ?_
      · simp only [List.mem_append] at hm ⊢
        tauto
      · obtain ⟨new, hD'', hlen, hlater', hreach''⟩ := hl
        refine ⟨p :: new, by simpa using hD'', by simp [hlen], hlater.trans hlater',
          by simpa using hreach''⟩
      · obtain ⟨rfl, hr, made, ha, hlt, hle⟩ := hl
        refine ⟨rfl, hr, made, ha, ?_, hle⟩
        simp only [List.length_append, List.length_cons, List.length_nil] at hlt ⊢
        omega

/-- What can be reached from an object can be reached once a slot holds it. -/
lemma reachable_push (hr : k.Reachable [v] u) :
    ({ k with roots := k.roots.push v } : Heap).Reachable [] u := by
  have hv : ({ k with roots := k.roots.push v } : Heap).Reachable [] v := .anchor (.root (by simp))
  refine (hr.transport (k := { k with roots := k.roots.push v }) rfl rfl rfl rfl (fun x hx => ?_)
    fun x d hd hx c hc => .child hx hd hc).mono (List.forall_mem_singleton.mpr hv)
  exact .anchor (.root (by simp [Array.mem_toList_iff.mp hx]))

/-- Forgetting those of the cells `rest` that cannot be reached any more. -/
lemma forget (hD : Drafting h above last ts cells rest k) :
    ∃ rest', Drafting h above last ts cells rest' k ∧ rest'.length ≤ rest.length ∧
      ∀ u ∈ cells ++ rest', k.Reachable [] u := by
  classical
  have hreach : ∀ u ∈ cells, k.Reachable [] u := hD.reachable_cells
  refine ⟨rest.filter fun u => k.Reachable [] u, ⟨hD.adds.forget ?_ ?_ ?_, hD.head⟩,
    List.length_filter_le _ _, ?_⟩
  · exact (List.Sublist.refl cells).append List.filter_sublist
  · intro u hu
    rcases List.mem_append.mp hu with hu | hu
    · exact hreach u hu
    · simpa using (List.mem_filter.mp hu).2
  · intro u hu hr
    rcases List.mem_append.mp hu with hu | hu
    · exact List.mem_append_left _ hu
    · exact List.mem_append_right _ (List.mem_filter.mpr ⟨hu, by simpa using hr⟩)
  · intro u hu
    rcases List.mem_append.mp hu with hu | hu
    · exact hreach u hu
    · simpa using (List.mem_filter.mp hu).2

/-- Splicing a list in: its elements become elements of the draft, and the list need not be held any
more. -/
lemma splice_finishes {walk : Walk} (hD : Drafting h #[] last ts cells rest k) (hs : k.HasSentinels)
    (hv : h.Reachable [] v ∨ v ∈ cells ++ rest) (hreach : ∀ u ∈ cells ++ rest, k.Reachable [v] u)
    (hroom : h.roots.size + 1 < h.rootSlots) (hwalk : k.walkSpine v = .ok walk) :
    (Template.splice ⟨h.roots.size⟩ last v k).Finishes
      (fun p m => ∃ vs spine new rest', walk.items? = some vs ∧ k.Row .emptyList vs spine v ∧
        Drafting h #[] p (ts ++ vs.map .same) (cells ++ new) rest' m ∧ new.length = vs.length ∧
        rest'.length ≤ rest.length ∧ k.collections ≤ m.collections ∧
        ∀ u ∈ cells ++ new ++ rest', m.Reachable [] u)
      fun e m => (walk.items? = none ∧
          k.Reports .wrongType "cannot splice an improper list" e m) ∨
        ∃ vs spine, walk.items? = some vs ∧ k.Row .emptyList vs spine v ∧ e = .outOfMemory ∧
          (∃ head, m.roots = h.roots.push head) ∧
          ∃ made, h.Adds [] made m ∧ made.length < (cells ++ rest).length + vs.length ∧
            h.capacity ≤ h.usedWith [] + made.length := by
  have hlive : k.isLive v = true := hv.elim (fun hr => hD.adds.isLive hr) (hD.adds.held v)
  rw [Template.splice, bind_of_ok (items?_eq hwalk)]
  cases hi : walk.items? with
  | none =>
    exact (raise_finishes hD.adds.wellFormed (by decide) _).mono
      (fun _ _ => False.elim) fun e m hm => .inl ⟨rfl, hm⟩
  | some vs =>
    obtain ⟨walk', hwalk', hitems⟩ := walkSpine_items hD.adds.wellFormed hs hlive
    obtain rfl := Except.ok.inj (hwalk.symm.trans hwalk')
    obtain ⟨spine, hrow⟩ := (hitems vs).mp hi
    obtain ⟨head, hroots, hd⟩ := hD.head
    have hk : k.roots.size = h.roots.size + 1 := by rw [hroots]; simp
    have hvs : ∀ u ∈ vs, h.Reachable [] u ∨ u ∈ cells ++ rest := fun u hu =>
      hD.adds.cases_of_reachable (List.forall_mem_singleton.mpr hv)
        ((hrow.reachable (.of_extra List.mem_cons_self)).2.1 u hu)
    have hD' : Drafting h #[v] last ts cells rest { k with roots := k.roots.push v } :=
      ⟨hD.adds.push hv hlive, head, by rw [hroots]; simp, hd.congr fun _ _ => rfl⟩
    refine finishes_rooted (by rw [hk, hD.adds.rootSlots]; exact hroom) ?_
    refine (hD'.pushAll_finishes hvs fun u hu => reachable_push (hreach u hu)).mono
      (fun p m hm => ?_)
      fun e m hm => ?_
    · obtain ⟨new, hDm, hlen, hlater, -⟩ := hm
      obtain ⟨rest', hD'', hle, hreach'⟩ := hDm.pop.forget
      have hsize : m.roots.size = k.roots.size + 1 := by
        obtain ⟨head', hrm, -⟩ := hDm.head
        rw [hrm, hk]
        simp
      exact ⟨hsize, vs, spine, new, rest', rfl, hrow, hD'', hlen, hle, hlater, hreach'⟩
    · obtain ⟨rfl, ⟨head', hrm⟩, made, ha, hlt, hle⟩ := hm
      have hrm' : m.roots = (h.roots.push head').push v := by rw [hrm]; simp
      refine ⟨by rw [hrm', hk]; simp, .inr
        ⟨vs, spine, rfl, hrow, rfl, ⟨head', by rw [hrm']; simp⟩, made,
          ha.pop (by rw [hrm']; simp), hlt, hle⟩⟩

end Drafting

end Heap

end ArenaScheme
