/-
# Handing on a datum

When the reader hands a datum to what waits for it, the automaton does the same with its tree.  New
pairs are allocated on the way, and a collection may run each time.  Until a pair refers to it, the
datum is kept as an operand of the constructor or in a slot of its own, and the cells of unfinished
lists are kept by the slots of the lists.  So all that has been made stays, and memory can run out
only if the arena is too small for what was in use and for all the cells of the text.
-/
import ArenaScheme.Proofs.Accessors
import ArenaScheme.Proofs.Reading.Layout
import ArenaScheme.Proofs.Discipline.Rules

namespace ArenaScheme

namespace Reader

open Heap HeapM

/-- The reader has come to where the automaton has, with its slots up to `n`. -/
inductive Reaches (h k : Heap) : Nat → Parser.Progress → Progress → Prop
  | done {t : Tree} {v : Handle} {F : List Handle} (hb : Builds k t v F) (he : h.Extends F k)
      (hn : k.roots.size = h.roots.size) : Reaches h k h.roots.size (.done t) (.done v)
  | more {n : Nat} {goal : Goal} {pending : List Pending} {goal' : Parser.Goal}
      {frames : List Parser.Frame} {F : List Handle}
      (hw : Waits k h.roots.size n goal pending goal' frames F) (he : h.Extends F k)
      (hn : k.roots.size = n) : Reaches h k n (.more goal' frames) (.more goal pending)

/-- Handing on a datum comes to what the automaton comes to, unless there is no cell left, and then
the slots up to `n` are still occupied. -/
def HandsOn (h : Heap) (n : Nat) (p : Parser.Progress) : Outcome Handle Progress → Prop
  | .ok q k => Reaches h k n p q
  | .error _ k => (∃ made, h.Extends made k) ∧ k.roots.size = n ∧ h.capacity < h.used + p.weight
  | .halt _ => False

variable {h k : Heap} {n : Nat} {pending : List Pending} {frames : List Parser.Frame} {t : Tree}
  {ts : List Tree} {u v w s last : Handle} {made F G : List Handle} {q : Quotation}

/-! ## Pairs -/

/-- A new pair is one cell more. -/
lemma cons_spec (he : h.Extends made k) (hv : h.Known made v) (hw : h.Known made w)
    (lv : k.isLive v = true) (lw : k.isLive w = true) (hr : ∀ u ∈ made, k.Reachable [v, w] u) :
    (∃ c k', cons v w k = .ok c k' ∧ h.Extends (c :: made) k' ∧ k'.object? c = some (.pair v w) ∧
      k'.roots = k.roots ∧ Agree made k k') ∨
    ∃ k', cons v w k = .error .outOfMemory k' ∧ h.Extends made k' ∧ k'.roots = k.roots ∧
      Agree made k k' ∧ h.capacity ≤ h.used + made.length :=
  he.alloc rfl (by simp [Datum.children, hv, hw]) (by simp [Datum.children, lv, lw]) hr

/-- Linking the last pair of a segment to what follows it. -/
lemma link (hs : Segment k .emptyList ts v last G) (he : h.Extends made k) (hG : G ⊆ made)
    (hd : G.Nodup) (hw : h.Known made w) (lw : k.isLive w = true) :
    ∃ k', (setCdr last w : EvalM Unit) k = .ok () k' ∧ h.Extends made k' ∧
      Segment k' w ts v last G ∧ k'.roots = k.roots ∧
      ∀ F : List Handle, last ∉ F → Agree F k k' := by
  obtain ⟨x, hx⟩ := hs.object?_last
  have hm : last ∈ made := hG hs.mem_last
  have hne : ∀ u, u ≠ last → (k.setCell last.index (.pair x w)).object? u = k.object? u :=
    fun u hu => object?_setCell_of_ne (Ne.symm hu)
  have hself : (k.setCell last.index (.pair x w)).object? last = some (.pair x w) := by
    rw [object?_setCell k (lt_size_of_object? hx), if_pos rfl]
    rfl
  refine ⟨_, setCdr_apply (pairAt_eq_some.mpr hx) _,
    he.setCell hm hx (by simp [Datum.type]) rfl ?_ ?_, hs.relink hd hx hself
    (fun u _ => hne u) fun _ _ => id, rfl, fun F hF => ⟨fun u hu => ?_, fun _ _ => id⟩⟩
  · have := he.closed last hm _ hx x (by simp [Datum.children])
    simp [Datum.children, this, hw]
  · have := he.wellFormed.child last _ hx x (by simp [Datum.children])
    simp [Datum.children, this, lw]
  · refine hne u ?_
    rintro rfl
    exact hF hu

/-! ## Forms -/

/-- The heap with two more slots. -/
def pushTwo (k : Heap) (s v : Handle) : Heap := { k with roots := (k.roots.push s).push v }

lemma list_pair (s v : Handle) :
    HeapM.list [s, v] = rooted s fun _ => rooted v fun _ => cons v .emptyList >>= cons s := by
  simp [HeapM.list, rootedAll]

lemma list_of_ok {l : Heap} (hroom : k.roots.size + 2 ≤ k.rootSlots)
    (hx : (cons v .emptyList >>= cons s) (pushTwo k s v) = .ok w l)
    (hl : l.roots = (pushTwo k s v).roots) :
    HeapM.list [s, v] k = .ok w { l with roots := l.roots.pop.pop } := by
  have hsize : l.roots.size = k.roots.size + 1 + 1 := by simp [hl, pushTwo]
  rw [list_pair]
  refine rooted_of_ok (k := { l with roots := l.roots.pop }) (by omega) ?_ (by simp [hsize])
  exact rooted_of_ok (by simp; omega) hx (by simpa using hsize)

lemma list_of_error {l : Heap} {e : Handle} (hroom : k.roots.size + 2 ≤ k.rootSlots)
    (hx : (cons v .emptyList >>= cons s) (pushTwo k s v) = .error e l)
    (hl : l.roots = (pushTwo k s v).roots) :
    HeapM.list [s, v] k = .error e { l with roots := l.roots.pop.pop } := by
  have hsize : l.roots.size = k.roots.size + 1 + 1 := by simp [hl, pushTwo]
  rw [list_pair]
  refine rooted_of_error (k := { l with roots := l.roots.pop }) (by omega) ?_ (by simp [hsize])
  exact rooted_of_error (by simp; omega) hx (by simpa using hsize)

/-- Two pairs are made for a form, of which the datum becomes a part. -/
lemma form_spec (hq : k.findSymbol q.name = some s) (hb : Builds k t v G)
    (hs : Stack k h.roots.size n pending frames F) (he : h.Extends (G ++ F) k) :
    (∃ w l G', (cons v .emptyList >>= cons s) k = .ok w l ∧ Builds l (q.form t) w G' ∧
      h.Extends (G' ++ F) l ∧ l.roots = k.roots ∧ Agree F k l) ∨
    ∃ e l made, (cons v .emptyList >>= cons s) k = .error e l ∧ h.Extends made l ∧
      l.roots = k.roots ∧ h.capacity < h.used + (t.cells + 2 + F.length) := by
  have hlen : (G ++ F).length = t.cells + F.length := by rw [List.length_append, hb.length]
  have hG : G ⊆ G ++ F := List.subset_append_left _ _
  have hF : F ⊆ G ++ F := List.subset_append_right _ _
  have hq' : k.IsLiteral (.symbol q.name) s := hq
  obtain ⟨hsc, hsl⟩ := hq'.isLive he.wellFormed rfl
  have hnil : ∀ made, h.Known made .emptyList := fun _ =>
    .inr (not_collectible_sentinel h (by decide))
  have hreach : ∀ u ∈ G ++ F, k.Reachable [v, .emptyList] u := by
    intro u hu
    rcases List.mem_append.mp hu with hu | hu
    · exact hb.reachable (.of_extra (by simp)) u hu
    · exact hs.reachable u hu
  rcases cons_spec he (hb.known he hG) (hnil _) (hb.isLive he.wellFormed)
      (he.wellFormed.isLive_sentinel (by decide)) hreach with
    ⟨c, k₁, hrun, he₁, hc, hroots₁, ha₁⟩ | ⟨k₁, hrun, he₁, hroots₁, ha₁, hcap⟩
  · have hpair : Builds k₁ (.pair t .emptyList) c (c :: (G ++ [])) :=
      .pair hc (hb.congr (ha₁.mono hG)) .emptyList
    have hs₁ := hs.congr (ha₁.mono hF) fun i _ => by rw [hroots₁]
    -- the first pair keeps the datum alive while the second is made
    have hreach₁ : ∀ u ∈ c :: (G ++ F), k₁.Reachable [s, c] u := by
      intro u hu
      rw [← List.cons_append, List.mem_append] at hu
      rcases hu with hu | hu
      · exact hpair.reachable (.of_extra (by simp)) u (by simpa using hu)
      · exact hs₁.reachable u hu
    have hq₁ : k₁.IsLiteral (.symbol q.name) s := ha₁.symbols _ _ hq
    rcases cons_spec he₁ (.inr (mt he.collectible.mpr hsc)) (.inl List.mem_cons_self)
        (hq₁.isLive he₁.wellFormed rfl).2 (isLive_of_object? hc) hreach₁ with
      ⟨w, k₂, hrun₂, he₂, hw, hroots₂, ha₂⟩ | ⟨k₂, hrun₂, he₂, hroots₂, ha₂, hcap⟩
    · have hform : Builds k₂ (q.form t) w (w :: ([] ++ (c :: (G ++ [])))) :=
        .pair hw (.shared rfl (ha₂.symbols _ _ hq₁)) (hpair.congr (ha₂.mono (by simp)))
      exact .inl ⟨w, k₂, _, (bind_of_ok hrun).trans hrun₂, hform, by simpa using he₂,
        hroots₂.trans hroots₁, (ha₁.mono hF).trans (ha₂.mono fun u hu => by simp [hu])⟩
    · refine .inr ⟨_, k₂, _, (bind_of_ok hrun).trans hrun₂, he₂, hroots₂.trans hroots₁, ?_⟩
      rw [List.length_cons] at hcap
      omega
  · exact .inr ⟨_, k₁, _, bind_of_error hrun, he₁, hroots₁, by omega⟩

/-- The two slots change nothing else. -/
lemma list_spec (hq : k.findSymbol q.name = some s) (hb : Builds k t v G)
    (hs : Stack k h.roots.size n pending frames F) (he : h.Extends (G ++ F) k)
    (hn : k.roots.size = n) (hroom : n + 2 ≤ h.rootSlots) :
    (∃ w l G', HeapM.list [s, v] k = .ok w l ∧ Builds l (q.form t) w G' ∧
      h.Extends (G' ++ F) l ∧ l.roots = k.roots ∧ Agree F k l) ∨
    ∃ e l made, HeapM.list [s, v] k = .error e l ∧ h.Extends made l ∧ l.roots = k.roots ∧
      h.capacity < h.used + (t.cells + 2 + F.length) := by
  have hroom' : k.roots.size + 2 ≤ k.rootSlots := by rwa [hn, he.rootSlots]
  have hq' : k.IsLiteral (.symbol q.name) s := hq
  obtain ⟨hsc, hsl⟩ := hq'.isLive he.wellFormed rfl
  have he₂ : h.Extends (G ++ F) (pushTwo k s v) :=
    (he.push (.inr (mt he.collectible.mpr hsc)) hsl).push
      (hb.known he (List.subset_append_left _ _)) (hb.isLive he.wellFormed)
  have hb₂ : Builds (pushTwo k s v) t v G := hb.congr (.setRoots G k _)
  have hs₂ : Stack (pushTwo k s v) h.roots.size n pending frames F := by
    refine hs.congr (.setRoots F k _) fun i hi => ?_
    rw [pushTwo, Array.getElem?_push, Array.getElem?_push, if_neg (by simp; omega),
      if_neg (by omega)]
  have hpop : ∀ {made : List Handle} {l : Heap}, l.roots = (pushTwo k s v).roots →
      h.Extends made l → h.Extends made { l with roots := l.roots.pop.pop } ∧
        l.roots.pop.pop = k.roots := by
    intro made l hl hel
    have hsize : l.roots.size = k.roots.size + 2 := by simp [hl, pushTwo]
    have := hs.le
    refine ⟨(hel.pop (by omega)).pop (by simp; omega), ?_⟩
    rw [hl, pushTwo, Array.pop_push, Array.pop_push]
  have hq₂ : (pushTwo k s v).findSymbol q.name = some s := hq
  rcases form_spec hq₂ hb₂ hs₂ he₂ with
    ⟨w, l, G', hrun, hw, hel, hl, ha⟩ | ⟨e, l, made, hrun, hel, hl, hcap⟩
  · obtain ⟨hel', hroots⟩ := hpop hl hel
    exact .inl ⟨w, _, G', list_of_ok hroom' hrun hl, hw.congr (.setRoots G' l _), hel',
      hroots, (Agree.setRoots F k _).trans (ha.trans (.setRoots F l _))⟩
  · obtain ⟨hel', hroots⟩ := hpop hl hel
    exact .inr ⟨e, _, made, list_of_error hroom' hrun hl, hel', hroots, hcap⟩

/-! ## Handing on -/

/-- The first element of a list is put into the slot of the list. -/
lemma complete_first (hb : Builds k t v G) (hs : Stack k h.roots.size n pending frames F)
    (he : h.Extends (G ++ F) k) (hn : k.roots.size = n + 1) :
    HandsOn h (n + 1) (Parser.complete t (.items [] :: frames))
      (complete v (.items ⟨n⟩ none :: pending) k) := by
  have hG : G ⊆ G ++ F := List.subset_append_left _ _
  have hF : F ⊆ G ++ F := List.subset_append_right _ _
  have hreach : ∀ u ∈ G ++ F, k.Reachable [v, .emptyList] u := by
    intro u hu
    rcases List.mem_append.mp hu with hu | hu
    · exact hb.reachable (.of_extra (by simp)) u hu
    · exact hs.reachable u hu
  rw [complete]
  rcases cons_spec he (hb.known he hG) (.inr (not_collectible_sentinel h (by decide)))
      (hb.isLive he.wellFormed) (he.wellFormed.isLive_sentinel (by decide)) hreach with
    ⟨c, k₁, hrun, he₁, hc, hroots, ha⟩ | ⟨k₁, hrun, he₁, hroots, ha, hcap⟩
  · have hn₁ : n < k₁.roots.size := by
      rw [hroots, hn]
      exact Nat.lt_succ_self n
    rw [bind_of_ok hrun]
    dsimp only
    rw [bind_of_ok (store_apply hn₁ c)]
    have he₂ := he₁.put (.inl List.mem_cons_self) (isLive_of_object? hc) hs.le
    have ha₂ : Agree (G ++ F) k { k₁ with roots := k₁.roots.setIfInBounds n c } :=
      ha.trans (.setRoots _ k₁ _)
    refine .more (.datum (.items (F := F) ?_ (.last (F := G) hc (hb.congr (ha₂.mono hG)))
      (hs.congr (ha₂.mono hF) fun i hi => ?_))) (by simpa using he₂) ?_
    · exact Array.getElem?_setIfInBounds_self_of_lt hn₁
    · rw [Array.getElem?_setIfInBounds_ne (by omega), hroots]
    · simp [hroots, hn]
  · refine (bind_of_error hrun).symm ▸ ⟨⟨_, he₁⟩, by rw [hroots, hn], ?_⟩
    rw [List.length_append, hb.length, hs.length] at hcap
    simp only [Parser.complete, Parser.Progress.weight, Parser.Goal.weight, Parser.weight,
      Parser.Frame.weight, Tree.spineCells_append, Tree.spineCells_cons, Tree.spineCells_nil]
    omega

/-- A further element is linked to the last pair. -/
lemma complete_next (hb : Builds k t v G) {r : Handle} {G₀ : List Handle}
    (hv : k.roots[n]? = some r) (hg : Segment k .emptyList ts r last G₀)
    (hs : Stack k h.roots.size n pending frames F) (he : h.Extends (G ++ (G₀ ++ F)) k)
    (hn : k.roots.size = n + 1) :
    HandsOn h (n + 1) (Parser.complete t (.items ts :: frames))
      (complete v (.items ⟨n⟩ (some last) :: pending) k) := by
  have hG : G ⊆ G ++ (G₀ ++ F) := List.subset_append_left _ _
  have hF : F ⊆ G ++ (G₀ ++ F) := fun u hu => by simp [hu]
  have hG₀ : G₀ ⊆ G ++ (G₀ ++ F) := fun u hu => by simp [hu]
  have hst : Stack k h.roots.size (n + 1) (.items ⟨n⟩ (some last) :: pending) (.items ts :: frames)
      (G₀ ++ F) := .items hv hg hs
  have hreach : ∀ u ∈ G ++ (G₀ ++ F), k.Reachable [v, .emptyList] u := by
    intro u hu
    rcases List.mem_append.mp hu with hu | hu
    · exact hb.reachable (.of_extra (by simp)) u hu
    · exact hst.reachable u hu
  obtain ⟨-, hnd, hdG⟩ := List.nodup_append.mp he.nodup
  obtain ⟨hnd₀, -, hdF⟩ := List.nodup_append.mp hnd
  rw [complete]
  rcases cons_spec he (hb.known he hG) (.inr (not_collectible_sentinel h (by decide)))
      (hb.isLive he.wellFormed) (he.wellFormed.isLive_sentinel (by decide)) hreach with
    ⟨c, k₁, hrun, he₁, hc, hroots, ha⟩ | ⟨k₁, hrun, he₁, hroots, ha, hcap⟩
  · obtain ⟨k₂, hrun₂, he₂, hg₂, hroots₂, ha₂⟩ := link (w := c) (hg.congr (ha.mono hG₀)) he₁
      (fun u hu => List.mem_cons_of_mem _ (hG₀ hu)) hnd₀ (.inl List.mem_cons_self)
      (isLive_of_object? hc)
    rw [bind_of_ok hrun]
    dsimp only
    rw [bind_of_ok hrun₂]
    have hroots' : k₂.roots = k.roots := hroots₂.trans hroots
    have hlast : last ∈ G₀ := hg.mem_last
    -- the new pair and what it holds do not have the cell that was linked
    have hagree : Agree (c :: G) k₁ k₂ := by
      refine ha₂ _ fun hl => ?_
      rcases List.mem_cons.mp hl with rfl | hl
      · exact (List.nodup_cons.mp he₁.nodup).1 (hG₀ hlast)
      · exact hdG last hl last (List.mem_append_left _ hlast) rfl
    have hagreeF : Agree F k₁ k₂ := ha₂ _ fun hl => hdF last hlast last hl rfl
    have hpair : Segment k₂ .emptyList [t] c c (c :: G) :=
      .last ((hagree.objects c List.mem_cons_self).trans hc)
        ((hb.congr (ha.mono hG)).congr (hagree.mono fun u hu => List.mem_cons_of_mem _ hu))
    have hs₂ : Stack k₂ h.roots.size n pending frames F :=
      hs.congr ((ha.mono hF).trans hagreeF) fun i _ => by rw [hroots']
    refine .more (.datum (.items (hroots' ▸ hv) (hg₂.append hpair) hs₂)) (he₂.perm ?_)
      (hroots' ▸ hn)
    rw [List.append_assoc, ← List.cons_append, ← List.append_assoc, ← List.append_assoc]
    exact List.perm_append_comm.append_right F
  · refine (bind_of_error hrun).symm ▸ ⟨⟨_, he₁⟩, by rw [hroots, hn], ?_⟩
    rw [List.length_append, hb.length, hst.length] at hcap
    simp only [Parser.complete, Parser.Progress.weight, Parser.Goal.weight, Parser.weight,
      Parser.Frame.weight, Tree.spineCells_append, Tree.spineCells_cons, Tree.spineCells_nil]
        at hcap ⊢
    omega

/-- The datum after a dot is linked to the last pair, and the list is to be closed. -/
lemma complete_tail (hb : Builds k t v G) {r : Handle} {G₀ : List Handle}
    (hv : k.roots[n]? = some r) (hg : Segment k .emptyList ts r last G₀)
    (hs : Stack k h.roots.size n pending frames F) (he : h.Extends (G ++ (G₀ ++ F)) k)
    (hn : k.roots.size = n + 1) :
    HandsOn h (n + 1) (Parser.complete t (.tail ts :: frames))
      (complete v (.tail ⟨n⟩ last :: pending) k) := by
  have hG : G ⊆ G ++ (G₀ ++ F) := List.subset_append_left _ _
  obtain ⟨-, hnd, hdG⟩ := List.nodup_append.mp he.nodup
  obtain ⟨hnd₀, -, hdF⟩ := List.nodup_append.mp hnd
  have hlast : last ∈ G₀ := hg.mem_last
  obtain ⟨k₁, hrun, he₁, hg₁, hroots, ha⟩ := link hg he (fun u hu => by simp [hu]) hnd₀
    (hb.known he hG) (hb.isLive he.wellFormed)
  have hb₁ : Builds k₁ t v G :=
    hb.congr (ha G fun hl => hdG last hl last (List.mem_append_left _ hlast) rfl)
  have hs₁ : Stack k₁ h.roots.size n pending frames F :=
    hs.congr (ha F fun hl => hdF last hlast last hl rfl) fun i _ => by rw [hroots]
  rw [complete, bind_of_ok hrun]
  refine .more (.closing (hroots ▸ hv) (hg₁.builds hb₁) hs₁) (he₁.perm ?_) (hroots ▸ hn)
  rw [← List.append_assoc]
  exact List.perm_append_comm.append_right F

/-- The reader hands on a datum as the automaton hands on its tree. -/
lemma complete_spec (hb : Builds k t v G) (hs : Stack k h.roots.size n pending frames F)
    (he : h.Extends (G ++ F) k) (hn : k.roots.size = n) (hroom : n + 2 ≤ h.rootSlots) :
    HandsOn h n (Parser.complete t frames) (complete v pending k) := by
  induction pending generalizing k t v G F n frames with
  | nil =>
    cases hs
    rw [List.append_nil] at he
    exact .done hb he hn
  | cons p pending ih =>
    cases hs with
    | opened _ hs => exact complete_first hb hs he hn
    | items hv hg hs => exact complete_next hb hv hg hs he hn
    | tail hv hg hs => exact complete_tail hb hv hg hs he hn
    | @mark _ _ frames q _ _ hq hs =>
      rw [complete, Parser.complete]
      rcases list_spec hq hb hs he hn hroom with
        ⟨w, l, G', hrun, hw, hel, hl, ha⟩ | ⟨e, l, made, hrun, hel, hl, hcap⟩
      · rw [bind_of_ok hrun]
        exact ih hw (hs.congr ha fun i _ => by rw [hl]) hel (hl ▸ hn) hroom
      · rw [bind_of_error hrun]
        refine ⟨⟨_, hel⟩, hl ▸ hn, ?_⟩
        have := Parser.weight_complete (q.form t) frames
        rw [Parser.cells_form] at this
        rw [hs.length] at hcap
        omega

end Reader

end ArenaScheme
