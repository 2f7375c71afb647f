/-
# Lists, pair by pair

A row is a spine together with what it consists of: its pairs, in order, their heads, and what comes
after the last pair.  A walk down the spine tells the heads and the end of a row, if the end is no
pair, and there is nothing else that it could tell.  So an object is a proper list exactly if it is
a row that ends in the empty list.
-/
import ArenaScheme.Proofs.Protection.Growth
import ArenaScheme.Proofs.Walks

namespace ArenaScheme

namespace Heap

/-- From `v` on there are the pairs `cells`, whose heads are `vs`, and then comes `last`. -/
inductive Row (h : Heap) (last : Handle) : List Handle → List Handle → Handle → Prop
  | nil : Row h last [] [] last
  | cons {x next v : Handle} {vs cells : List Handle} (hv : h.object? v = some (.pair x next))
      (hr : Row h last vs cells next) : Row h last (x :: vs) (v :: cells) v

variable {h k : Heap} {extra vs ws cells cells' : List Handle} {v w u last last' : Handle}

namespace Row

lemma length_eq (hr : h.Row last vs cells v) : cells.length = vs.length := by
  induction hr with
  | nil => rfl
  | cons _ _ ih => rw [List.length_cons, List.length_cons, ih]

/-- A row starts with its first pair, or with its end. -/
lemma start (hr : h.Row last vs cells v) : v = last ∨ v ∈ cells := by
  cases hr with
  | nil => exact .inl rfl
  | cons _ _ => exact .inr List.mem_cons_self

lemma isLive (hr : h.Row last vs cells v) (hl : h.isLive last = true) : h.isLive v = true := by
  cases hr with
  | nil => exact hl
  | cons hv _ => exact isLive_of_object? hv

/-- A row depends on its pairs only. -/
lemma congr (hr : h.Row last vs cells v) (hk : ∀ c ∈ cells, k.object? c = h.object? c) :
    k.Row last vs cells v := by
  induction hr with
  | nil => exact .nil
  | cons hv _ ih =>
    exact .cons ((hk _ List.mem_cons_self).trans hv)
      (ih fun c hc => hk c (List.mem_cons_of_mem _ hc))

lemma append (hr : h.Row u vs cells v) (hs : h.Row last ws cells' u) :
    h.Row last (vs ++ ws) (cells ++ cells') v := by
  induction hr with
  | nil => exact hs
  | cons hv _ ih => exact .cons hv ih

/-! ## What a row leads to -/

lemma reachable (hr : h.Row last vs cells v) (hv : h.Reachable extra v) :
    (∀ c ∈ cells, h.Reachable extra c) ∧ (∀ x ∈ vs, h.Reachable extra x) ∧
    h.Reachable extra last := by
  induction hr with
  | nil => exact ⟨by simp, by simp, hv⟩
  | cons hp _ ih =>
    obtain ⟨hc, hx, hl⟩ := ih (hv.tail hp)
    exact ⟨List.forall_mem_cons.mpr ⟨hv, hc⟩, List.forall_mem_cons.mpr ⟨hv.head hp, hx⟩, hl⟩

/-- A row that can be reached is there as long as what can be reached is. -/
lemma saved (hr : h.Row last vs cells v) (hs : h.Saves extra k) (hv : h.Reachable extra v) :
    k.Row last vs cells v :=
  hr.congr fun c hc => hs.kept c ((hr.reachable hv).1 c hc)

/-- There is one row at most that ends with no pair. -/
lemma unique (hp : h.pairAt last = none) (hp' : h.pairAt last' = none) (hr : h.Row last vs cells v)
    (hr' : h.Row last' ws cells' v) : vs = ws ∧ cells = cells' ∧ last = last' := by
  induction hr generalizing ws cells' with
  | nil =>
    cases hr' with
    | nil => exact ⟨rfl, rfl, rfl⟩
    | cons hv _ =>
      rw [pairAt_eq_some.mpr hv] at hp
      cases hp
  | cons hv _ ih =>
    cases hr' with
    | nil =>
      rw [pairAt_eq_some.mpr hv] at hp'
      cases hp'
    | cons hv' hr' =>
      obtain ⟨rfl, rfl⟩ := Datum.pair.inj (Option.some.inj (hv.symm.trans hv'))
      obtain ⟨rfl, rfl, rfl⟩ := ih hr'
      exact ⟨rfl, rfl, rfl⟩

/-! ## Walks -/

/-- The slow cursor never catches up on a row. -/
lemma walkFrom_eq (hl : h.isLive last = true) (hp : h.pairAt last = none) {n : Nat}
    {slow fast : Handle} (hf : h.Row last vs cells fast) (hs : h.Row last ws cells' slow)
    (hle : cells.length ≤ cells'.length) (hn : cells.length < n) (seen : Array Handle) :
    h.walkFrom n slow fast seen = .ok ⟨seen.toList ++ vs, some last⟩ := by
  induction n generalizing vs ws cells cells' slow fast seen with
  | zero => omega
  | succ n ih =>
    cases hf with
    | nil => rw [walkFrom_stop hl hp, List.append_nil]
    | cons hv hf =>
      cases hf with
      | nil => rw [walkFrom_stop_second (pairAt_eq_some.mpr hv) hl hp, Array.toList_push]
      | cons hv' hf =>
        cases hs with
        | nil => simp at hle
        | cons hv'' hs =>
          simp only [List.length_cons] at hle hn
          rw [walkFrom_go (pairAt_eq_some.mpr hv) (pairAt_eq_some.mpr hv')
            (pairAt_eq_some.mpr hv''), if_neg, ih hf hs (by omega) (by omega)]
          · simp
          · rintro rfl
            obtain ⟨-, rfl, -⟩ := unique hp hp hf hs
            omega

/-- A walk tells the heads and the end of a row. -/
lemma walkSpine_eq (hl : h.isLive last = true) (hp : h.pairAt last = none)
    (hr : h.Row last vs cells v) : h.walkSpine v = .ok ⟨vs, some last⟩ := by
  rw [Heap.walkSpine_eq v (n := h.cells.size + 1 + cells.length) (by omega),
    walkFrom_eq hl hp hr hr (Nat.le_refl _) (by omega)]
  rfl

end Row

/-- What a walk tells of a spine that ends is so. -/
lemma row_of_walkFrom {n : Nat} {slow fast : Handle} {seen : Array Handle}
    (hw : h.walkFrom n slow fast seen = .ok ⟨vs, some last⟩) :
    ∃ ws cells, vs = seen.toList ++ ws ∧ h.Row last ws cells fast ∧ h.pairAt last = none := by
  have hend : ∀ {u d}, h.read u = .ok d → (∀ a b, d ≠ .pair a b) → h.pairAt u = none := by
    intro u d hr hd
    cases hp : h.pairAt u with
    | none => rfl
    | some parts => exact absurd (Except.ok.inj (hr.symm.trans (read_of_pairAt hp))) (hd _ _)
  induction n generalizing slow fast seen with
  | zero => simp [walkFrom] at hw
  | succ n ih =>
    simp only [walkFrom, bind, Except.bind] at hw
    split at hw
    · cases hw
    next d hr =>
    split at hw
    · next first second =>
      have hp := pairAt_eq_some.mp (pairAt_of_read hr)
      split at hw
      · cases hw
      next e hr' =>
      split at hw
      · next head fast' =>
        have hp' := pairAt_eq_some.mp (pairAt_of_read hr')
        split at hw
        · cases hw
        split at hw
        · simp at hw
        · obtain ⟨ws, cells, rfl, hrow, hl⟩ := ih hw
          exact ⟨_, _, by simp, .cons hp (.cons hp' hrow), hl⟩
      · next hd =>
        obtain ⟨rfl, hl⟩ := Walk.mk.inj (Except.ok.inj hw)
        obtain rfl := Option.some.inj hl
        exact ⟨_, _, by simp, .cons hp .nil, hend hr' fun a b hab => hd a b hab⟩
    · next hd =>
      obtain ⟨rfl, hl⟩ := Walk.mk.inj (Except.ok.inj hw)
      obtain rfl := Option.some.inj hl
      exact ⟨[], [], by simp, .nil, hend hr fun a b hab => hd a b hab⟩

lemma row_of_walkSpine (hw : h.walkSpine v = .ok ⟨vs, some last⟩) :
    ∃ cells, h.Row last vs cells v ∧ h.pairAt last = none := by
  obtain ⟨ws, cells, rfl, hr⟩ := row_of_walkFrom hw
  exact ⟨cells, hr⟩

/-- Walks never halt. -/
lemma exists_walkFrom (hc : h.Closed) (n : Nat) {k : Nat} (hk : h.Walked v k)
    (hl : h.isLive (h.tailOf^[2 * k] v) = true) (seen : Array Handle) :
    ∃ w, h.walkFrom n (h.tailOf^[k] v) (h.tailOf^[2 * k] v) seen = .ok w := by
  induction n generalizing k seen with
  | zero => exact ⟨_, rfl⟩
  | succ n ih =>
    cases hp : h.pairAt (h.tailOf^[2 * k] v) with
    | none => exact ⟨_, walkFrom_stop hl hp⟩
    | some parts =>
      obtain ⟨first, second⟩ := parts
      have hlive : ∀ {u a b}, h.pairAt u = some (a, b) → h.isLive b = true := fun hp =>
        hc.child _ _ (pairAt_eq_some.mp hp) _ (by simp [Datum.children])
      cases hp' : h.pairAt second with
      | none => exact ⟨_, walkFrom_stop_second hp (hlive hp) hp'⟩
      | some parts =>
        obtain ⟨head, fast⟩ := parts
        obtain ⟨⟨x, slow⟩, hs⟩ := Option.isSome_iff_exists.mp (hk.pairAt_slow hp)
        rw [walkFrom_go hp hp' hs]
        split
        · exact ⟨_, rfl⟩
        · next hne =>
          obtain ⟨hk', rfl, rfl⟩ := hk.succ hp hp' (cdr_of_pairAt hs) hne
          exact ih hk' (hlive hp') _

lemma exists_walkSpine (hc : h.Closed) (hl : h.isLive v = true) : ∃ w, h.walkSpine v = .ok w :=
  exists_walkFrom hc _ (h.walked_zero v) hl _

/-! ## Proper lists -/

lemma HasSentinels.emptyList (hs : h.HasSentinels) : h.object? .emptyList = some .emptyList :=
  hs .emptyList (by decide)

lemma HasSentinels.pairAt_emptyList (hs : h.HasSentinels) : h.pairAt .emptyList = none := by
  rw [pairAt, hs.emptyList]
  rfl

/-- The elements of an object, if it is a proper list, are those of the row. -/
lemma walkSpine_items (hw : h.WellFormed) (hs : h.HasSentinels) (hl : h.isLive v = true) :
    ∃ w, h.walkSpine v = .ok w ∧
      ∀ vs, w.items? = some vs ↔ ∃ cells, h.Row .emptyList vs cells v := by
  obtain ⟨w, hwalk⟩ := exists_walkSpine hw.toClosed hl
  refine ⟨w, hwalk, fun vs => ⟨fun hi => ?_, ?_⟩⟩
  · unfold Walk.items? at hi
    split at hi
    · next he =>
      obtain ⟨visited, ending⟩ := w
      dsimp only at he hi
      subst he
      obtain rfl := Option.some.inj hi
      obtain ⟨cells, hr, -⟩ := row_of_walkSpine hwalk
      exact ⟨cells, hr⟩
    · cases hi
  · rintro ⟨cells, hr⟩
    rw [hr.walkSpine_eq (isLive_of_object? hs.emptyList) hs.pairAt_emptyList] at hwalk
    obtain rfl := Except.ok.inj hwalk
    rfl

end Heap

namespace HeapM

open Heap

variable {ε : Type} {h : Heap} {vs cells : List Handle} {v : Handle}

lemma items?_eq {w : Walk} (hw : h.walkSpine v = .ok w) :
    (items? v : HeapM ε (Option (List Handle))) h = .ok w.items? h := by
  simp only [items?, HeapM.walkSpine, bind_apply, inspect, hw]
  rfl

/-- A proper list has its elements. -/
lemma items?_of_row (hs : h.HasSentinels) (hr : h.Row .emptyList vs cells v) :
    (items? v : HeapM ε (Option (List Handle))) h = .ok (some vs) h :=
  items?_eq (hr.walkSpine_eq (isLive_of_object? hs.emptyList) hs.pairAt_emptyList)

/-- Nothing else has any. -/
lemma items?_of_not_row (hw : h.WellFormed) (hs : h.HasSentinels) (hl : h.isLive v = true)
    (hn : ∀ vs cells, ¬ h.Row .emptyList vs cells v) :
    (items? v : HeapM ε (Option (List Handle))) h = .ok none h := by
  obtain ⟨w, hwalk, hi⟩ := walkSpine_items hw hs hl
  rw [items?_eq hwalk]
  cases hw' : w.items? with
  | none => rfl
  | some vs =>
    obtain ⟨cells, hr⟩ := (hi vs).mp hw'
    exact absurd hr (hn vs cells)

end HeapM

end ArenaScheme
