/-
# Searches come to an end

A name is looked for in the two lists of a frame, pair by pair, and then in the parent of the frame.
The searches of the interpreter are bounded by the number of cells, and here they are described
without a bound: one that ends is what the interpreter finds.  Nothing is known about a list of
names, which a program may have made circular.  But a search needs a pair of the list of values for
each pair of the list of names, and that list is proper; and frames have the base frame for an
ancestor.  So every search of a sealed heap comes to an end.
-/
import ArenaScheme.Proofs.Walks
import ArenaScheme.Proofs.Seclusion.Heaps

namespace ArenaScheme

namespace Heap

/-- Looking for `symbol` in two parallel lists ends with a slot, or without one. -/
inductive FindsIn (h : Heap) (symbol : Handle) : Handle → Handle → Option Handle → Prop
  | here {names values rest x others : Handle} (hn : h.pairAt names = some (symbol, rest))
      (hv : h.pairAt values = some (x, others)) : FindsIn h symbol names values (some values)
  | there {names values name rest x others : Handle} {slot : Option Handle}
      (hn : h.pairAt names = some (name, rest)) (hne : name ≠ symbol)
      (hv : h.pairAt values = some (x, others)) (hs : FindsIn h symbol rest others slot) :
      FindsIn h symbol names values slot
  | stop {names values : Handle} (hn : h.isLive names = true) (hv : h.isLive values = true)
      (hp : h.pairAt names = none ∨ h.pairAt values = none) : FindsIn h symbol names values none

/-- Looking for `symbol` in an environment ends with a frame and its slot, or without any. -/
inductive Finds (h : Heap) (symbol : Handle) : Handle → Option (Handle × Handle) → Prop
  | here {f names values slot : Handle} {p : Option Handle}
      (hf : h.object? f = some (.frame p names values))
      (hs : FindsIn h symbol names values (some slot)) : Finds h symbol f (some (f, slot))
  | outward {f p names values : Handle} {found : Option (Handle × Handle)}
      (hf : h.object? f = some (.frame (some p) names values))
      (hs : FindsIn h symbol names values none) (hp : Finds h symbol p found) :
      Finds h symbol f found
  | nowhere {f names values : Handle} (hf : h.object? f = some (.frame none names values))
      (hs : FindsIn h symbol names values none) : Finds h symbol f none

variable {h k : Heap} {V : Veil} {s : List Handle} {f v symbol names values env : Handle}
  {slot : Option Handle} {found : Option (Handle × Handle)}

/-! ## What the interpreter finds -/

/-- What a search of two lists comes to is what the interpreter finds. -/
lemma FindsIn.slotIn_eq (hf : h.FindsIn symbol names values slot) {n : Nat}
    (hn : h.cells.size < n) :
    h.slotIn symbol n names values = .ok slot := by
  -- some number of positions is enough, and so is the number that the search is bounded by
  suffices hall : ∃ k, ∀ n, k < n → h.slotIn symbol n names values = .ok slot by
    obtain ⟨k, hk⟩ := hall
    rw [slotIn_eq_of_lt hn, ← slotIn_eq_of_lt (n := k + h.cells.size + 1) (by omega)]
    exact hk _ (by omega)
  clear hn
  induction hf with
  | here hnames hv =>
    refine ⟨0, fun n hn => ?_⟩
    obtain ⟨n, rfl⟩ := Nat.exists_eq_add_of_lt hn
    rw [slotIn_go hnames hv, if_pos rfl]
  | there hnames hne hv _ ih =>
    obtain ⟨k, hk⟩ := ih
    refine ⟨k + 1, fun n hn => ?_⟩
    obtain ⟨n, rfl⟩ : ∃ m, n = m + 1 := ⟨n - 1, by omega⟩
    rw [slotIn_go hnames hv, if_neg hne]
    exact hk n (by omega)
  | stop hnames hv hp =>
    refine ⟨0, fun n hn => ?_⟩
    obtain ⟨n, rfl⟩ := Nat.exists_eq_add_of_lt hn
    exact slotIn_stop hnames hv hp

lemma FindsIn.localSlot_eq {p : Option Handle} (hfind : h.FindsIn symbol names values slot)
    (hf : h.object? f = some (.frame p names values)) : h.localSlot f symbol = .ok slot := by
  rw [localSlot, frameAt_of_object? hf]
  exact hfind.slotIn_eq (Nat.lt_succ_self _)

/-- What a search of an environment comes to is what the interpreter finds. -/
lemma Finds.nearestSlot_eq (hfind : h.Finds symbol env found) :
    h.nearestSlot env symbol = .ok (found.map (·.2)) := by
  suffices hall : ∃ k, ∀ n, k < n → h.slotFrom symbol n env = .ok (found.map (·.2)) by
    obtain ⟨k, hk⟩ := hall
    rw [nearestSlot, ← slotFrom_eq_of_lt (n := k + h.cells.size + 1) (by omega)]
    exact hk _ (by omega)
  induction hfind with
  | here hf hs | nowhere hf hs =>
    refine ⟨0, fun n hn => ?_⟩
    obtain ⟨n, rfl⟩ := Nat.exists_eq_add_of_lt hn
    rw [slotFrom_succ hf (hs.localSlot_eq hf)]
    rfl
  | outward hf hs _ ih =>
    obtain ⟨k, hk⟩ := ih
    refine ⟨k + 1, fun n hn => ?_⟩
    obtain ⟨n, rfl⟩ : ∃ m, n = m + 1 := ⟨n - 1, by omega⟩
    rw [slotFrom_succ hf (hs.localSlot_eq hf)]
    exact hk n (by omega)

/-! ## Searches that end -/

/-- Whatever the list of names is like, a search ends with the list of values. -/
lemma exists_findsIn (hn : h.object? .emptyList = some .emptyList)
    (hatt : ∀ u d, h.object? u = some d → ∀ c ∈ d.children, ∃ e, h.object? c = some e)
    (symbol : Handle) (hs : h.Spine s values) (hnames : h.isLive names = true) :
    ∃ slot, h.FindsIn symbol names values slot := by
  induction s generalizing names values with
  | nil =>
    obtain rfl : values = .emptyList := hs
    refine ⟨none, .stop hnames (isLive_iff.mpr ⟨_, hn⟩) (.inr ?_)⟩
    simp [pairAt, hn, Datum.pair?]
  | cons c s ih =>
    obtain ⟨rfl, a, b, hp, hs⟩ := hs
    cases hpn : h.pairAt names with
    | none => exact ⟨none, .stop hnames (isLive_iff.mpr ⟨_, hp⟩) (.inl hpn)⟩
    | some parts =>
      obtain ⟨name, rest⟩ := parts
      by_cases he : name = symbol
      · subst he
        exact ⟨some values, .here hpn (pairAt_eq_some.mpr hp)⟩
      · have hrest : h.isLive rest = true :=
          isLive_iff.mpr (hatt _ _ (pairAt_eq_some.mp hpn) rest (by simp [Datum.children]))
        obtain ⟨slot, hslot⟩ := ih hs hrest
        exact ⟨slot, .there hpn he (pairAt_eq_some.mpr hp) hslot⟩

namespace Sealed

/-- A search of one frame comes to an end. -/
lemma exists_localSlot (hs : h.Sealed V) (symbol : Handle) {p : Option Handle}
    (hf : h.object? f = some (.frame p names values)) :
    ∃ slot, h.FindsIn symbol names values slot ∧ h.localSlot f symbol = .ok slot := by
  obtain ⟨s, hspine⟩ := hs.listed f _ _ _ hf
  have hnames : h.isLive names = true :=
    isLive_iff.mpr (hs.attached f _ hf names (by simp [Datum.children]))
  obtain ⟨slot, hslot⟩ := exists_findsIn hs.emptyList hs.attached symbol hspine hnames
  exact ⟨slot, hslot, hslot.localSlot_eq hf⟩

/-- A search of an environment comes to an end, and it is what the interpreter finds. -/
lemma exists_finds (hs : h.Sealed V) (symbol : Handle) (hf : h.IsFrame env) :
    ∃ found, h.Finds symbol env found ∧ h.nearestSlot env symbol = .ok (found.map (·.2)) := by
  suffices hfind : ∃ found, h.Finds symbol env found by
    obtain ⟨found, hfind⟩ := hfind
    exact ⟨found, hfind, hfind.nearestSlot_eq⟩
  have hc := hs.chained env hf
  clear hf
  induction hc with
  | base hf =>
    obtain ⟨slot, hslot, -⟩ := hs.exists_localSlot symbol hf
    cases slot with
    | none => exact ⟨none, .nowhere hf hslot⟩
    | some slot => exact ⟨_, .here hf hslot⟩
  | child hf _ ih =>
    obtain ⟨slot, hslot, -⟩ := hs.exists_localSlot symbol hf
    cases slot with
    | none =>
      obtain ⟨found, hfound⟩ := ih
      exact ⟨found, .outward hf hslot hfound⟩
    | some slot => exact ⟨_, .here hf hslot⟩

end Sealed

end Heap

end ArenaScheme
