/-
# The form for a call

The form `apply` turns a procedure and a list of arguments into a combination, in which each
argument is quoted.  It goes through the arguments from the last to the first and puts their
quotations in front of each other; what there is so far is in a root slot.  A collection may run
before each new pair.

The pairs of the combination are new, and no other object refers to one of them.  That is more than
that they could not be reached: objects that have been given up, but have not been collected yet, do
not know them either.
-/
import ArenaScheme.Proofs.Expansion.Building
import ArenaScheme.Proofs.Tails.Turns

namespace ArenaScheme

open Heap HeapM

namespace Built

/-- The form that quotes an object. -/
def quotation (kw : Keywords) (v : Handle) : Built := list [.same kw.quote, .same v]

/-- The list of the forms that quote some objects. -/
def quotations (kw : Keywords) (vs : List Handle) : Built := list (vs.map (quotation kw))

/-- The call of a procedure with quoted arguments. -/
def quotedCall (kw : Keywords) (procedure : Handle) (vs : List Handle) : Built :=
  .pair (.same procedure) (quotations kw vs)

lemma pairs_quotations (kw : Keywords) (vs : List Handle) :
    (quotations kw vs).pairs = 3 * vs.length := by
  induction vs with
  | nil => rfl
  | cons v vs ih =>
    have hcons : quotations kw (v :: vs) = .pair (quotation kw v) (quotations kw vs) := rfl
    have hq : (quotation kw v).pairs = 2 := rfl
    rw [hcons, pairs, ih, hq, List.length_cons]
    omega

lemma pairs_quotedCall (kw : Keywords) (procedure : Handle) (vs : List Handle) :
    (quotedCall kw procedure vs).pairs = 3 * vs.length + 1 := by
  rw [quotedCall, pairs, pairs, pairs_quotations, Nat.zero_add]

end Built

namespace Heap

variable {b h k l : Heap} {made cells vs ws : List Handle} {u v w c args procedure : Handle}
  {d : Datum} {kw : Keywords} {α : Type}

/-! ## New objects that nothing else refers to -/

/-- Since `b` the objects `made` have been made, and no other object refers to them. -/
structure Making (b : Heap) (made : List Handle) (k : Heap) : Prop extends b.Adds [] made k where
  withheld : k.Withholds made

lemma Making.congr (hb : b.Making made k) (ha : b.Adds [] made l)
    (hc : ∀ u, l.object? u = k.object? u) :
    b.Making made l :=
  ⟨ha, fun u d hu hd => hb.withheld u d hu ((hc u).symm.trans hd)⟩

/-- Another pair. -/
lemma Making.cons_finishes (hb : b.Making made k) (hv : b.Reachable [] v ∨ v ∈ made)
    (hw : b.Reachable [] w ∨ w ∈ made) (hm : ∀ u ∈ made, k.Reachable [v, w] u) :
    (cons v w k).Finishes
      (fun c l => b.Making (c :: made) l ∧ l.object? c = some (.pair v w) ∧ l.roots = k.roots ∧
        k.Saves [v, w] l)
      fun e l => e = .outOfMemory ∧ b.Adds [] made l ∧ l.roots = k.roots ∧
        b.capacity ≤ b.usedWith [] + made.length := by
  have known : ∀ u, b.Reachable [] u ∨ u ∈ made → k.isLive u = true := fun u hu =>
    hu.elim (fun hu => hb.isLive hu) (hb.held u)
  refine (ArenaScheme.cons_finishes hb.toAdds hv hw (by simp) hm).self.mono
    (fun c l hl => ?_) fun e l he => he.2
  obtain ⟨hrun, hl, hc⟩ := hl
  exact ⟨⟨hl, withholds_of_cons hb.wellFormed (known v hv) (known w hw) hb.withheld hrun⟩, hc⟩

/-- A slot for an object, and giving it up again. -/
lemma Making.push (hb : b.Making made k) (hv : b.Reachable [] v ∨ v ∈ made) :
    b.Making made { k with roots := k.roots.push v } :=
  hb.congr (hb.toAdds.push hv (hv.elim (fun hv => hb.isLive hv) (hb.held v))) fun _ => rfl

lemma Making.pop (hb : b.Making made k) (hs : b.roots.size < k.roots.size) :
    b.Making made { k with roots := k.roots.pop } :=
  hb.congr (hb.toAdds.pop hs) fun _ => rfl

/-! ## Quotations -/

/-- There has been no room for `n` new cells. -/
def Cramps (b : Heap) (n : Nat) (e : Handle) (l : Heap) : Prop :=
  e = .outOfMemory ∧ b.Saves [] l ∧ b.capacity < n + b.usedWith []

variable {n : Nat} {e : Handle}

lemma Cramps.of_adds (ha : b.Adds [] made l) (hle : b.capacity ≤ b.usedWith [] + made.length)
    (hn : made.length < n) :
    b.Cramps n .outOfMemory l := ⟨rfl, ha.toSaves, by omega⟩

lemma Cramps.pop (hc : b.Cramps n e l) (hs : b.roots.size < l.roots.size) :
    b.Cramps n e { l with roots := l.roots.pop } := by
  obtain ⟨rfl, hs', hlt⟩ := hc
  refine ⟨rfl, hs'.setRoots hs'.wellFormed.pop (by rw [Array.size_pop]; omega) fun i hi => ?_, hlt⟩
  rw [Array.getElem?_pop, if_pos (by omega)]

lemma Cramps.mono_le {n' : Nat} (hc : b.Cramps n e l) (hn : n ≤ n') : b.Cramps n' e l :=
  ⟨hc.1, hc.2.1, Nat.lt_of_lt_of_le hc.2.2 (Nat.add_le_add_right hn _)⟩

/-- Since `b` the quotations of `ws` have been made, and they are in the next root slot. -/
structure Quoting (b : Heap) (kw : Keywords) (ws : List Handle) (cells : List Handle) (w : Handle)
    (k : Heap) : Prop where
  making : b.Making cells k
  roots : k.roots = b.roots.push w
  shows : k.Shows (.quotations kw ws) cells w
  known : b.Reachable [] w ∨ w ∈ cells

namespace Quoting

lemma length_eq (hq : Quoting b kw ws cells w k) : cells.length = 3 * ws.length := by
  rw [hq.shows.length_eq, Built.pairs_quotations]

lemma slot (hq : Quoting b kw ws cells w k) : k.roots[b.roots.size]? = some w := by
  rw [hq.roots, Array.getElem?_push_size]

/-- One more quotation. -/
lemma list_finishes (hq : Quoting b kw ws cells w k) (hquote : b.Reachable [] kw.quote)
    (hv : b.Reachable [] v) (hroom : b.roots.size + 3 ≤ b.rootSlots) (hn : 3 * ws.length + 3 ≤ n) :
    (list [kw.quote, v] k).Finishes
      (fun item l => ∃ c, b.Making (item :: c :: cells) l ∧
        l.Shows (.quotation kw v) [item, c] item ∧
        l.roots = k.roots ∧ l.Shows (.quotations kw ws) cells w)
      fun e l => b.Cramps n e l ∧ l.roots = k.roots := by
  have hlen := hq.length_eq
  have hsize : k.roots.size = b.roots.size + 1 := by rw [hq.roots, Array.size_push]
  have hnil : b.Reachable [] .emptyList := .sentinel (by decide)
  have hslots := hq.making.rootSlots
  refine finishes_rooted (by omega) (finishes_rooted (by simp [hslots, hsize]; omega) ?_)
  rw [List.foldrM_cons, List.foldrM_cons, List.foldrM_nil, bind_assoc, pure_bind]
  -- both objects are held, and so are the quotations that there are
  have h2 := (hq.making.push (.inl hquote)).push (.inl hv)
  have hheld : ∀ l : Heap, l.roots = (k.roots.push kw.quote).push v →
    l.Shows (.quotations kw ws) cells w →
      ∀ extra, ∀ u ∈ cells, l.Reachable extra u := by
    intro l hl hs extra
    have hmem : w ∈ l.roots.toList := by
      rw [hl, hq.roots]
      simp
    exact hs.reachable (.anchor (.root hmem))
  have hs2 : ({ k with roots := (k.roots.push kw.quote).push v } : Heap).Shows
    (.quotations kw ws) cells w :=
    hq.shows.congr fun _ _ => rfl
  have hpop : ∀ l : Heap, l.roots = (k.roots.push kw.quote).push v →
      l.roots.size = (k.roots.push kw.quote).size + 1 ∧ l.roots.pop.size = k.roots.size + 1 ∧
        l.roots.pop.pop = k.roots := by
    intro l hl
    simp [hl]
  have hfail : ∀ made l, made.length < n → b.Adds [] made l →
    l.roots = (k.roots.push kw.quote).push v →
      b.capacity ≤ b.usedWith [] + made.length →
      l.roots.size = (k.roots.push kw.quote).size + 1 ∧ l.roots.pop.size = k.roots.size + 1 ∧
        b.Cramps n .outOfMemory { l with roots := l.roots.pop.pop } ∧
        l.roots.pop.pop = k.roots := by
    intro made l hlt hl hr hle
    obtain ⟨h1, h2, h3⟩ := hpop l hr
    have hc : b.Cramps n .outOfMemory { l with roots := l.roots.pop } :=
      (Cramps.of_adds hl hle hlt).pop (by rw [h1, Array.size_push]; omega)
    exact ⟨h1, h2, hc.pop (by dsimp only; omega), h3⟩
  refine finishes_bind ((h2.cons_finishes (.inl hv) (.inl hnil) (hheld _ rfl hs2 _)).mono
    (fun _ _ => id)
    fun e l he => ?_) fun c l hl => ?_
  · obtain ⟨rfl, he, hr, hle⟩ := he
    exact hfail _ l (by omega) he hr hle
  obtain ⟨hl, hc, hr, hs⟩ := hl
  have hsl : l.Shows (.quotations kw ws) cells w :=
    hs2.congr fun u hu => hs.kept u (hheld _ rfl hs2 _ u hu)
  have hwithin : ∀ u ∈ c :: cells, l.Reachable [kw.quote, c] u :=
    List.forall_mem_cons.mpr ⟨.of_extra (by simp), hheld l hr hsl _⟩
  refine (hl.cons_finishes (.inl hquote) (.inr List.mem_cons_self) hwithin).mono
    (fun item m hm => ?_) fun e m he => ?_
  · obtain ⟨hm, hitem, hrm, hsm⟩ := hm
    obtain ⟨h1, h2, h3⟩ := hpop m (hrm.trans hr)
    have hcm : m.object? c = some (.pair v .emptyList) :=
      (hsm.kept c (.of_extra (by simp))).trans hc
    have hmade : b.Making (item :: c :: cells) { m with roots := m.roots.pop } :=
      hm.pop (by rw [h1, Array.size_push]; omega)
    have hform : m.Shows (.quotation kw v) [item, c] item :=
      .pair hitem .same (.pair hcm .same .same)
    exact ⟨h1, h2, c, hmade.pop (by dsimp only; omega), hform.congr fun _ _ => rfl, h3,
      hsl.congr fun u hu => hsm.kept u (hheld l hr hsl _ u hu)⟩
  · obtain ⟨rfl, he, hrm, hle⟩ := he
    exact hfail _ m (by simp only [List.length_cons]; omega) he (hrm.trans hr) hle

/-- It is put in front of the others. -/
lemma add_finishes (hq : Quoting b kw ws cells w k) (hquote : b.Reachable [] kw.quote)
    (hv : b.Reachable [] v) (hroom : b.roots.size + 3 ≤ b.rootSlots) (hn : 3 * ws.length + 3 ≤ n) :
    ((do
      let item ← list [kw.quote, v]
      store ⟨b.roots.size⟩ (← cons item (← contents ⟨b.roots.size⟩)) : EvalM Unit) k).Finishes
      (fun _ l => ∃ cells w, Quoting b kw (v :: ws) cells w l)
      fun e l => b.Cramps n e l ∧ ∃ w, l.roots = b.roots.push w := by
  have hlen := hq.length_eq
  refine finishes_bind ((hq.list_finishes hquote hv hroom hn).mono (fun _ _ => id) fun e l he => ?_)
    fun item l hl => ?_
  · exact ⟨he.1, w, he.2.trans hq.roots⟩
  obtain ⟨c, hl, hitem, hr, hsl⟩ := hl
  replace hr := hr.trans hq.roots
  have hslot : l.roots[b.roots.size]? = some w := by rw [hr, Array.getElem?_push_size]
  have hwithin : ∀ u ∈ item :: c :: cells, l.Reachable [item, w] u := by
    have hheads : ∀ u ∈ [item, w], l.Reachable [item, w] u := fun u hu => .of_extra hu
    have h1 := hitem.reachable (hheads item (by simp))
    have h2 := hsl.reachable (hheads w (by simp))
    exact List.forall_mem_cons.mpr ⟨h1 _ (by simp), List.forall_mem_cons.mpr ⟨h1 _ (by simp), h2⟩⟩
  rw [bind_of_ok (contents_apply hslot)]
  refine finishes_bind
    ((hl.cons_finishes (.inr List.mem_cons_self) (hq.known.imp_right fun hw => ?_)
    hwithin).mono (fun _ _ => id) fun e m he => ?_) fun p m hm => ?_
  · exact List.mem_cons_of_mem _ (List.mem_cons_of_mem _ hw)
  · obtain ⟨rfl, he, hrm, hle⟩ := he
    exact ⟨.of_adds he hle (by simp only [List.length_cons]; omega), w, hrm.trans hr⟩
  · obtain ⟨hm, hp, hrm, hs⟩ := hm
    replace hrm := hrm.trans hr
    have hset : m.roots.setIfInBounds b.roots.size p = b.roots.push p := by
      rw [hrm, setIfInBounds_push]
    have hput := hm.toAdds.put (.inr List.mem_cons_self) (hm.held p List.mem_cons_self)
      (Nat.le_refl b.roots.size)
    have hshow : m.Shows (.quotations kw (v :: ws)) (p :: ([item, c] ++ cells)) p := by
      refine .pair hp (hitem.congr fun u hu => hs.kept u (hwithin u ?_))
        (hsl.congr fun u hu => hs.kept u (hwithin u ?_))
      · simp only [List.mem_cons, List.not_mem_nil, or_false] at hu ⊢
        tauto
      · simp [hu]
    rw [store_apply (by rw [hrm, Array.size_push]; omega) p]
    exact ⟨_, p, hm.congr hput fun _ => rfl, hset, hshow.congr fun _ _ => rfl,
      .inr List.mem_cons_self⟩

/-- All quotations, the last of them first. -/
lemma loop_finishes (hq : Quoting b kw ws cells w k) (hquote : b.Reachable [] kw.quote)
    (hvs : ∀ v ∈ vs, b.Reachable [] v) (hroom : b.roots.size + 3 ≤ b.rootSlots)
    (hn : 3 * ws.length + 3 * vs.length ≤ n) :
    ((vs.forM fun v => do
      let item ← list [kw.quote, v]
      store ⟨b.roots.size⟩ (← cons item (← contents ⟨b.roots.size⟩)) : EvalM Unit) k).Finishes
      (fun _ l => ∃ cells w, Quoting b kw (vs.reverse ++ ws) cells w l)
      fun e l => b.Cramps n e l ∧ ∃ w, l.roots = b.roots.push w := by
  induction vs generalizing k w ws cells with
  | nil => exact ⟨cells, w, hq⟩
  | cons v vs ih =>
    obtain ⟨hv, hvs⟩ := List.forall_mem_cons.mp hvs
    rw [List.length_cons] at hn
    rw [List.forM_eq_forM, List.forM_cons]
    refine finishes_bind (hq.add_finishes hquote hv hroom (by omega)) fun _ l hl => ?_
    obtain ⟨cells, w, hl⟩ := hl
    rw [List.reverse_cons, List.append_assoc]
    exact ih hl hvs (by rw [List.singleton_append, List.length_cons]; omega)

end Quoting

/-- The combination is made of the procedure and the quotations. -/
lemma form_finishes (hw : b.WellFormed) (hp : b.Reachable [] procedure)
    (hquote : b.Reachable [] kw.quote) (hvs : ∀ v ∈ vs, b.Reachable [] v)
    (hroom : b.roots.size + 3 ≤ b.rootSlots) :
    ((rooted .emptyList fun quoted => do
      vs.reverse.forM fun v => do
        let item ← list [kw.quote, v]
        store quoted (← cons item (← contents quoted))
      return .eval (← cons procedure (← contents quoted)) : EvalM Step) b).Finishes
      (fun step l => ∃ form cells, step = .eval form ∧ b.Making cells l ∧
        l.Shows (.quotedCall kw procedure vs) cells form ∧ l.roots = b.roots)
      fun e l => b.Cramps (3 * vs.length + 1) e l ∧ l.roots = b.roots := by
  have hnil : b.Reachable [] .emptyList := .sentinel (by decide)
  have h0 : b.Making [] b := ⟨.refl hw (by simp), fun _ _ _ _ _ _ => List.not_mem_nil⟩
  have hq : Quoting b kw [] [] .emptyList { b with roots := b.roots.push .emptyList } :=
    ⟨h0.push (.inl hnil), rfl, .same, .inl hnil⟩
  have hpop : ∀ {l : Heap} {w}, l.roots = b.roots.push w → l.roots.size = b.roots.size + 1 ∧
      l.roots.pop = b.roots := by
    intro l w hr
    simp [hr]
  refine finishes_rooted (by omega) (finishes_bind ((hq.loop_finishes hquote
    (fun v hv => hvs v (List.mem_reverse.mp hv)) hroom (Nat.le_add_right _ 1)).mono (fun _ _ => id)
    fun e l he => ?_) fun _ l hl => ?_)
  · obtain ⟨he, w, hr⟩ := he
    rw [List.length_nil, Nat.mul_zero, Nat.zero_add, List.length_reverse] at he
    exact ⟨(hpop hr).1, (he.mono_le (by omega)).pop (by rw [hr, Array.size_push]; omega),
      (hpop hr).2⟩
  obtain ⟨cells, w, hl⟩ := hl
  rw [List.reverse_reverse, List.append_nil] at hl
  have hwithin : ∀ u ∈ cells, l.Reachable [procedure, w] u :=
    hl.shows.reachable (.of_extra (by simp))
  rw [bind_of_ok (contents_apply hl.slot)]
  refine finishes_bind ((hl.making.cons_finishes (.inl hp) hl.known hwithin).mono
    (fun _ _ => id) fun e m he => ?_)
    fun form m hm => ?_
  · obtain ⟨rfl, he, hr, hle⟩ := he
    replace hr := hr.trans hl.roots
    have hc : b.Cramps (3 * vs.length + 1) .outOfMemory m :=
      .of_adds he hle (by rw [hl.length_eq]; omega)
    exact ⟨(hpop hr).1, hc.pop (by rw [hr, Array.size_push]; omega), (hpop hr).2⟩
  · obtain ⟨hm, hform, hr, hs⟩ := hm
    replace hr := hr.trans hl.roots
    have hshow : m.Shows (.quotedCall kw procedure vs) (form :: ([] ++ cells)) form :=
      .pair hform .same (hl.shows.congr fun u hu => hs.kept u (hwithin u hu))
    exact ⟨(hpop hr).1, form, _, rfl, hm.pop (by rw [hr, Array.size_push]; omega),
      hshow.congr fun _ _ => rfl, (hpop hr).2⟩

end Heap

end ArenaScheme
