/-
# Walks take as many steps as they need

Walks along lists and frames are bounded by the number of cells of the arena.  The bound is there
only so that a walk that goes round in circles comes to an end.  This file shows that it never cuts
a walk short: with a larger bound the result would be the same.

A chain of distinct cells is no longer than the arena.  So a walk along a chain that has an end is
within the bound, and a search that has not ended within the bound has no end.  For a spine of any
shape the argument is Floyd's: if the cells of a spine repeat from the `p`-th on with a period `l`,
then the cursors meet at the first multiple of `l` after `p`.  The same multiple serves for the
printer, whose cursors move at other speeds.
-/
import Mathlib.Data.Fintype.Pigeonhole
import Mathlib.Logic.Function.Iterate
import ArenaScheme.Environment
import ArenaScheme.Printer
import ArenaScheme.Proofs.FreeList

namespace ArenaScheme

namespace Heap

/-! ## Pairs -/

/-- Head and tail of the pair in a cell, if it holds one. -/
def pairAt (h : Heap) (v : Handle) : Option (Handle × Handle) := (h.object? v).bind Datum.pair?

lemma pairAt_eq_some {h : Heap} {u a b : Handle} :
    h.pairAt u = some (a, b) ↔ h.object? u = some (.pair a b) := by
  rw [pairAt, Option.bind_eq_some_iff]
  constructor
  · rintro ⟨d, hd, hp⟩
    cases d <;> simp_all [Datum.pair?]
  · intro hd
    exact ⟨_, hd, rfl⟩

lemma read_of_pairAt {h : Heap} {u a b : Handle} (hp : h.pairAt u = some (a, b)) :
    h.read u = .ok (.pair a b) := read_of_object? (pairAt_eq_some.mp hp)

lemma cdr_of_pairAt {h : Heap} {u a b : Handle} (hp : h.pairAt u = some (a, b)) :
    h.cdr u = .ok b := by
  rw [cdr, read_of_pairAt hp]

lemma pairAt_of_read {h : Heap} {u a b : Handle} (hr : h.read u = .ok (.pair a b)) :
    h.pairAt u = some (a, b) :=
  pairAt_eq_some.mpr (object?_eq_some.mpr ⟨cells_of_read hr, rfl⟩)

lemma lt_size_of_pairAt {h : Heap} {u : Handle} (hp : (h.pairAt u).isSome) :
    u.index < h.cells.size := by
  obtain ⟨⟨a, b⟩, hp⟩ := Option.isSome_iff_exists.mp hp
  exact lt_size_of_object? (pairAt_eq_some.mp hp)

/-! ## Chains that end -/

/-- Following `next` from a handle ends after exactly so many steps. -/
def Ends (next : Handle → Option Handle) : Nat → Handle → Prop
  | 0, v => next v = none
  | n + 1, v => ∃ w, next v = some w ∧ Ends next n w

lemma Ends.unique {next : Handle → Option Handle} {n m : Nat} {v : Handle} (hn : Ends next n v)
    (hm : Ends next m v) : n = m := by
  induction n generalizing m v with
  | zero =>
    cases m with
    | zero => rfl
    | succ m =>
      obtain ⟨w, hw, -⟩ := hm
      have h0 : next v = none := hn
      rw [h0] at hw
      simp at hw
  | succ n ih =>
    obtain ⟨w, hw, hn⟩ := hn
    cases m with
    | zero =>
      have h0 : next v = none := hm
      rw [h0] at hw
      simp at hw
    | succ m =>
      obtain ⟨w', hw', hm⟩ := hm
      obtain rfl := Option.some.inj (hw.symm.trans hw')
      rw [ih hn hm]

/-- A chain that ends has no more steps than there are cells to take them from. -/
lemma Ends.le {next : Handle → Option Handle} {N : Nat}
    (hN : ∀ v w, next v = some w → v.index < N) {n : Nat} {v : Handle} (hn : Ends next n v) :
    n ≤ N := by
  -- the cells of the chain, each of which has its own distance from the end
  suffices hl : ∃ l : List Nat, l.length = n ∧ l.Nodup ∧
      ∀ i ∈ l, i < N ∧ ∃ m ≤ n, 0 < m ∧ Ends next m ⟨i⟩ by
    obtain ⟨l, hlen, hnodup, hmem⟩ := hl
    have hsub : l ⊆ List.range N := fun i hi => List.mem_range.mpr (hmem i hi).1
    have hle := (List.subperm_of_subset hnodup hsub).length_le
    rw [List.length_range] at hle
    omega
  induction n generalizing v with
  | zero => exact ⟨[], rfl, by simp, by simp⟩
  | succ n ih =>
    have hv : Ends next (n + 1) v := hn
    obtain ⟨w, hw, hn⟩ := hn
    obtain ⟨l, hlen, hnodup, hmem⟩ := ih hn
    refine ⟨v.index :: l, by rw [List.length_cons, hlen],
      List.nodup_cons.mpr ⟨fun hi => ?_, hnodup⟩, fun i hi => ?_⟩
    · obtain ⟨-, m, hm, -, he⟩ := hmem _ hi
      have := he.unique hv
      omega
    · rcases List.mem_cons.mp hi with rfl | hi
      · exact ⟨hN v w hw, n + 1, Nat.le_refl _, Nat.succ_pos n, hv⟩
      · obtain ⟨hlt, m, hm, h0, he⟩ := hmem i hi
        exact ⟨hlt, m, by omega, h0, he⟩

/-! ## Searches of frames -/

lemma slotIn_stop {h : Heap} {symbol names values : Handle} {n : Nat}
    (hn : h.isLive names = true) (hv : h.isLive values = true)
    (hp : h.pairAt names = none ∨ h.pairAt values = none) :
    h.slotIn symbol (n + 1) names values = .ok none := by
  obtain ⟨d, hd⟩ := isLive_iff.mp hn
  obtain ⟨e, he⟩ := isLive_iff.mp hv
  have hne : ∀ x c y c', d = .pair x c → e = .pair y c' → False := by
    rintro x c y c' rfl rfl
    rw [pairAt_eq_some.mpr hd, pairAt_eq_some.mpr he] at hp
    simp at hp
  simp only [slotIn, read_of_object? hd, read_of_object? he, bind, Except.bind]

lemma slotIn_go {h : Heap} {symbol names values nm ns x vs : Handle} {n : Nat}
    (hn : h.pairAt names = some (nm, ns)) (hv : h.pairAt values = some (x, vs)) :
    h.slotIn symbol (n + 1) names values =
      if nm = symbol then .ok (some values) else h.slotIn symbol n ns vs := by
  simp only [slotIn, read_of_pairAt hn, read_of_pairAt hv, bind, Except.bind]

lemma frameAt_of_object? {h : Heap} {v n vs : Handle} {p : Option Handle}
    (hd : h.object? v = some (.frame p n vs)) : h.frameAt v = .ok (p, n, vs) := by
  rw [frameAt, read_of_object? hd]

lemma frameAt_eq_ok {h : Heap} {f : Handle} {parts : Option Handle × Handle × Handle}
    (hf : h.frameAt f = .ok parts) : h.object? f = some (.frame parts.1 parts.2.1 parts.2.2) := by
  unfold frameAt at hf
  split at hf
  · next hr =>
    obtain rfl := Except.ok.inj hf
    exact object?_eq_some.mpr ⟨cells_of_read hr, rfl⟩
  · simp at hf
  · simp at hf

/-- The parent of a frame, if it has one. -/
def parentAt (h : Heap) (v : Handle) : Option Handle :=
  match h.object? v with
  | some (.frame p _ _) => p
  | _ => none

lemma parentAt_of_object? {h : Heap} {v ns vs : Handle} {p : Option Handle}
    (hd : h.object? v = some (.frame p ns vs)) : parentAt h v = p := by
  rw [parentAt, hd]

lemma lt_size_of_parentAt {h : Heap} (u w : Handle) (hp : parentAt h u = some w) :
    u.index < h.cells.size := by
  unfold parentAt at hp
  split at hp
  · next hd => exact lt_size_of_object? hd
  · simp at hp

lemma slotFrom_succ {h : Heap} {p o : Option Handle} {env symbol ns vs : Handle} {n : Nat}
    (hd : h.object? env = some (.frame p ns vs)) (ho : h.localSlot env symbol = .ok o) :
    h.slotFrom symbol (n + 1) env = match o, p with
      | some slot, _ => .ok (some slot)
      | none, some q => h.slotFrom symbol n q
      | none, none => .ok none := by
  simp only [slotFrom, ho, frameAt_of_object? hd, bind, Except.bind]
  cases o <;> cases p <;> rfl

/-! ## Cursors of different speeds -/

/-- Among one more cells than there are, two are the same. -/
lemma exists_repeat {N : Nat} (x : Nat → Handle) (hx : ∀ i ≤ N, (x i).index < N) :
    ∃ p q, p < q ∧ q ≤ N ∧ x p = x q := by
  obtain ⟨i, j, hne, heq⟩ := Fintype.exists_ne_map_eq_of_card_lt
    (fun i : Fin (N + 1) => (⟨(x i).index, hx i (by omega)⟩ : Fin N)) (by simp)
  have hij : x i = x j := congrArg Handle.mk (congrArg Fin.val heq)
  have hv : (i : Nat) ≠ j := fun he => hne (Fin.ext he)
  rcases Nat.lt_or_gt_of_ne hv with hlt | hlt
  · exact ⟨i, j, hlt, by omega, hij⟩
  · exact ⟨j, i, hlt, by omega, hij.symm⟩

/-- If a sequence of iterates repeats itself, then some iterate is the same as the one twice as far
on, and the same as the one before that. -/
lemma exists_meeting {f : Handle → Handle} {v : Handle} {p q : Nat} (hpq : p < q)
    (he : f^[p] v = f^[q] v) :
    ∃ i, 1 ≤ i ∧ i ≤ q ∧ f^[2 * i] v = f^[i] v ∧ f^[2 * i - 1] v = f^[i - 1] v := by
  obtain ⟨l, rfl⟩ : ∃ l, q = p + l := ⟨q - p, by omega⟩
  have hl : 0 < l := by omega
  have hperiod : ∀ k t, f^[p + k + t * l] v = f^[p + k] v := by
    intro k t
    induction t with
    | zero => simp
    | succ t ih =>
      have h1 : p + k + (t + 1) * l = (k + t * l) + (p + l) := by
        rw [Nat.succ_mul]
        omega
      have h2 : p + k + t * l = (k + t * l) + p := by omega
      rw [h1, Function.iterate_add_apply, ← he, ← Function.iterate_add_apply, ← h2, ih]
  -- the first multiple of the period that lies beyond `p`
  have hdiv := Nat.div_add_mod p l
  have hmod := Nat.mod_lt p hl
  set t := p / l + 1 with ht
  have hti : t * l = l * (p / l) + l := by rw [ht, Nat.add_mul, Nat.one_mul, Nat.mul_comm]
  refine ⟨t * l, by omega, by omega, ?_, ?_⟩
  · have h := hperiod (t * l - p) t
    rwa [show p + (t * l - p) + t * l = 2 * (t * l) by omega,
      show p + (t * l - p) = t * l by omega] at h
  · have h := hperiod (t * l - 1 - p) t
    rwa [show p + (t * l - 1 - p) + t * l = 2 * (t * l) - 1 by omega,
      show p + (t * l - 1 - p) = t * l - 1 by omega] at h

/-- The tail of a pair; anything else stays where it is. -/
def tailOf (h : Heap) (v : Handle) : Handle :=
  match h.pairAt v with
  | some (_, tail) => tail
  | none => v

lemma tailOf_of_pairAt {h : Heap} {u a b : Handle} (hp : h.pairAt u = some (a, b)) :
    h.tailOf u = b := by
  rw [tailOf, hp]

/-- Somewhere along a spine that is longer than the arena, the cursors meet. -/
lemma exists_meeting_of_spine {h : Heap} {v : Handle}
    (hx : ∀ i ≤ h.cells.size, (h.pairAt (h.tailOf^[i] v)).isSome) :
    ∃ i, 1 ≤ i ∧ i ≤ h.cells.size ∧ h.tailOf^[2 * i] v = h.tailOf^[i] v ∧
      h.tailOf^[2 * i - 1] v = h.tailOf^[i - 1] v := by
  obtain ⟨p, q, hpq, hq, he⟩ := exists_repeat (fun i => h.tailOf^[i] v)
    fun i hi => lt_size_of_pairAt (hx i hi)
  obtain ⟨i, h1, h2, h3, h4⟩ := exists_meeting hpq he
  exact ⟨i, h1, by omega, h3, h4⟩

/-! ## Searches without an end -/

/-- An iterate that has come round equals an earlier one. -/
lemma exists_iterate_lt {f : Handle → Handle} {v : Handle} {p q : Nat} (hpq : p < q)
    (he : f^[p] v = f^[q] v) (i : Nat) : ∃ j < q, f^[i] v = f^[j] v := by
  induction i using Nat.strongRecOn with
  | ind i ih =>
    rcases Nat.lt_or_ge i q with hlt | hge
    · exact ⟨i, hlt, rfl⟩
    · obtain ⟨j, hj, heq⟩ := ih (i - q + p) (by omega)
      refine ⟨j, hj, ?_⟩
      rw [← heq, Function.iterate_add_apply, he, ← Function.iterate_add_apply,
        Nat.sub_add_cancel hge]

/-- What is true of one more iterates than there are cells, and of cells only, is true of all. -/
lemma forall_iterate {N : Nat} {P : Handle → Prop} {f : Handle → Handle} {v : Handle}
    (hN : ∀ u, P u → u.index < N) (hP : ∀ i ≤ N, P (f^[i] v)) (i : Nat) : P (f^[i] v) := by
  obtain ⟨p, q, hpq, hq, he⟩ := exists_repeat (fun i => f^[i] v) fun i hi => hN _ (hP i hi)
  obtain ⟨j, hj, heq⟩ := exists_iterate_lt hpq he i
  rw [heq]
  exact hP j (by omega)

/-- A search that is given a number of positions.  It goes on from one position to the next, or it
has come to its end, and then it does not matter how many are left; without any it has no
answer. -/
structure Search {α β : Type} (goes : α → Prop) (next : α → α) (run : Nat → α → Except Halt β) :
    Prop where
  spent : ∀ x, run 0 x = .error .endlessSearch
  again : ∀ n x, goes x → run (n + 1) x = run n (next x)
  ended : ∀ n m x, ¬ goes x → run (n + 1) x = run (m + 1) x

namespace Search

variable {α β : Type} {goes : α → Prop} {next : α → α} {run : Nat → α → Except Halt β} {x : α}
  {n m : Nat}

lemma congr (hs : Search goes next run) {i : Nat} (hg : ¬ goes (next^[i] x)) (hn : i < n)
    (hm : i < m) : run n x = run m x := by
  induction i generalizing x n m with
  | zero =>
    obtain ⟨n, rfl⟩ := Nat.exists_eq_add_of_lt hn
    obtain ⟨m, rfl⟩ := Nat.exists_eq_add_of_lt hm
    exact hs.ended _ _ _ hg
  | succ i ih =>
    obtain ⟨n, rfl⟩ : ∃ k, n = k + 1 := ⟨n - 1, by omega⟩
    obtain ⟨m, rfl⟩ : ∃ k, m = k + 1 := ⟨m - 1, by omega⟩
    by_cases hgo : goes x
    · rw [hs.again n x hgo, hs.again m x hgo]
      exact ih hg (by omega) (by omega)
    · exact hs.ended n m x hgo

lemma endless (hs : Search goes next run) (hg : ∀ i < n, goes (next^[i] x)) :
    run n x = .error .endlessSearch := by
  induction n generalizing x with
  | zero => exact hs.spent x
  | succ n ih =>
    rw [hs.again n x (hg 0 (Nat.succ_pos n))]
    exact ih fun i hi => hg (i + 1) (by omega)

/-- More positions make no difference to a search that, if it goes on for so long, goes on for
ever. -/
lemma eq_of_lt (hs : Search goes next run) {N : Nat}
    (hall : (∀ i ≤ N, goes (next^[i] x)) → ∀ i, goes (next^[i] x)) (hn : N < n) :
    run n x = run (N + 1) x := by
  by_cases hg : ∀ i ≤ N, goes (next^[i] x)
  · rw [hs.endless fun i _ => hall hg i, hs.endless fun i _ => hall hg i]
  · simp only [not_forall] at hg
    obtain ⟨i, hi, hg⟩ := hg
    exact hs.congr hg (by omega) (by omega)

end Search

section

variable {h : Heap} {symbol names values env : Handle} {n m : Nat}

/-- A search of lists goes on from the position where `names` and `values` stand. -/
def GoesOn (h : Heap) (symbol names values : Handle) : Prop :=
  (∃ name rest, h.pairAt names = some (name, rest) ∧ name ≠ symbol) ∧ (h.pairAt values).isSome

lemma slotIn_of_goesOn (hg : h.GoesOn symbol names values) :
    h.slotIn symbol (n + 1) names values =
      h.slotIn symbol n (h.tailOf names) (h.tailOf values) := by
  obtain ⟨⟨name, rest, hn, hne⟩, hv⟩ := hg
  obtain ⟨⟨x, others⟩, hv⟩ := Option.isSome_iff_exists.mp hv
  rw [slotIn_go hn hv, if_neg hne, tailOf_of_pairAt hn, tailOf_of_pairAt hv]

/-- Where a search of lists does not go on, it has come to its end. -/
lemma slotIn_of_not_goesOn (hg : ¬ h.GoesOn symbol names values) :
    h.slotIn symbol (n + 1) names values = h.slotIn symbol (m + 1) names values := by
  simp only [slotIn, bind, Except.bind]
  cases hn : h.read names with
  | error c => rfl
  | ok d =>
    cases hv : h.read values with
    | error c => rfl
    | ok e =>
      dsimp only
      split
      · next name rest x others =>
        split
        · rfl
        · next he =>
          refine absurd ⟨⟨name, rest, pairAt_of_read hn, he⟩, ?_⟩ hg
          rw [pairAt_of_read hv]
          rfl
      · rfl

lemma search_slotIn (h : Heap) (symbol : Handle) :
    Search (fun x => h.GoesOn symbol x.1 x.2) (Prod.map h.tailOf h.tailOf)
      (fun n x => h.slotIn symbol n x.1 x.2) where
  spent _ := rfl
  again _ _ hg := slotIn_of_goesOn hg
  ended _ _ _ hg := slotIn_of_not_goesOn hg

/-- A larger bound makes no difference to a search of lists: either it comes to an end within as
many positions as there are cells, or it has none. -/
lemma slotIn_eq_of_lt (hn : h.cells.size < n) :
    h.slotIn symbol n names values = h.slotIn symbol (h.cells.size + 1) names values := by
  refine (search_slotIn h symbol).eq_of_lt (x := (names, values)) (fun hall => ?_) hn
  simp only [Prod.map_iterate, Prod.map_apply] at hall ⊢
  have hnames : ∀ i, ∃ name rest, h.pairAt (h.tailOf^[i] names) = some (name, rest) ∧
      name ≠ symbol := by
    refine forall_iterate (P := fun u => ∃ name rest, h.pairAt u = some (name, rest) ∧
      name ≠ symbol) (fun u hu => ?_) fun i hi => (hall i hi).1
    obtain ⟨name, rest, hu, -⟩ := hu
    exact lt_size_of_object? (pairAt_eq_some.mp hu)
  have hvalues : ∀ i, (h.pairAt (h.tailOf^[i] values)).isSome :=
    forall_iterate (fun u hu => lt_size_of_pairAt hu) fun i hi => (hall i hi).2
  exact fun i => ⟨hnames i, hvalues i⟩

/-- The parent of a frame; anything else stays where it is. -/
def outerOf (h : Heap) (v : Handle) : Handle := (h.parentAt v).getD v

/-- A search of environments goes on from a frame. -/
def GoesOut (h : Heap) (symbol env : Handle) : Prop :=
  h.localSlot env symbol = .ok none ∧ (h.parentAt env).isSome

lemma slotFrom_of_goesOut (hg : h.GoesOut symbol env) :
    h.slotFrom symbol (n + 1) env = h.slotFrom symbol n (h.outerOf env) := by
  obtain ⟨hl, hp⟩ := hg
  obtain ⟨p, hp⟩ := Option.isSome_iff_exists.mp hp
  rw [outerOf, hp]
  unfold parentAt at hp
  split at hp
  · next hd =>
    obtain rfl := hp
    exact slotFrom_succ hd hl
  · simp at hp

/-- Where a search of environments does not go on, it has come to its end. -/
lemma slotFrom_of_not_goesOut (hg : ¬ h.GoesOut symbol env) :
    h.slotFrom symbol (n + 1) env = h.slotFrom symbol (m + 1) env := by
  simp only [slotFrom, bind, Except.bind]
  cases hl : h.localSlot env symbol with
  | error c => rfl
  | ok o =>
    cases o with
    | some slot => rfl
    | none =>
      dsimp only
      cases hf : h.frameAt env with
      | error c => rfl
      | ok parts =>
        obtain ⟨_ | p, ns, vs⟩ := parts
        · rfl
        · refine absurd ⟨hl, ?_⟩ hg
          rw [parentAt_of_object? (frameAt_eq_ok hf)]
          rfl

lemma search_slotFrom (h : Heap) (symbol : Handle) :
    Search (h.GoesOut symbol) h.outerOf (h.slotFrom symbol) where
  spent _ := rfl
  again _ _ hg := slotFrom_of_goesOut hg
  ended _ _ _ hg := slotFrom_of_not_goesOut hg

/-- So it is with a search of environments. -/
lemma slotFrom_eq_of_lt (hn : h.cells.size < n) :
    h.slotFrom symbol n env = h.slotFrom symbol (h.cells.size + 1) env := by
  refine (search_slotFrom h symbol).eq_of_lt (fun hall => ?_) hn
  refine forall_iterate (fun u hu => ?_) hall
  obtain ⟨p, hp⟩ := Option.isSome_iff_exists.mp hu.2
  exact lt_size_of_parentAt u p hp

end

/-! ## The walk down a spine -/

lemma read_of_not_pair {h : Heap} {u : Handle} (hl : h.isLive u = true) (hp : h.pairAt u = none) :
    ∃ d, h.read u = .ok d ∧ ∀ x c, d ≠ .pair x c := by
  obtain ⟨d, hd⟩ := isLive_iff.mp hl
  refine ⟨d, read_of_object? hd, ?_⟩
  rintro x c rfl
  rw [pairAt_eq_some.mpr hd] at hp
  simp at hp

lemma walkFrom_stop {h : Heap} {n : Nat} {slow fast : Handle} {seen : Array Handle}
    (hl : h.isLive fast = true) (hp : h.pairAt fast = none) :
    h.walkFrom (n + 1) slow fast seen = .ok ⟨seen.toList, some fast⟩ := by
  obtain ⟨d, hd, hne⟩ := read_of_not_pair hl hp
  simp only [walkFrom, hd, bind, Except.bind]

lemma walkFrom_stop_second {h : Heap} {n : Nat} {slow fast first second : Handle}
    {seen : Array Handle} (hf : h.pairAt fast = some (first, second)) (hl : h.isLive second = true)
    (hp : h.pairAt second = none) :
    h.walkFrom (n + 1) slow fast seen = .ok ⟨(seen.push first).toList, some second⟩ := by
  obtain ⟨d, hd, hne⟩ := read_of_not_pair hl hp
  simp only [walkFrom, read_of_pairAt hf, hd, bind, Except.bind]

lemma walkFrom_go {h : Heap} {n : Nat} {slow fast first second head fast' x slow' : Handle}
    {seen : Array Handle} (hf : h.pairAt fast = some (first, second))
    (hs : h.pairAt second = some (head, fast')) (hc : h.pairAt slow = some (x, slow')) :
    h.walkFrom (n + 1) slow fast seen =
      if slow' = fast' then .ok ⟨((seen.push first).push head).toList, none⟩
      else h.walkFrom n slow' fast' ((seen.push first).push head) := by
  simp only [walkFrom, read_of_pairAt hf, read_of_pairAt hs, cdr_of_pairAt hc, bind, Except.bind]

/-- A round of a walk depends on the number of rounds left only where it goes on. -/
lemma walkFrom_succ_congr {h : Heap} {n m : Nat} {slow fast : Handle} {seen : Array Handle}
    (hgo : ∀ first second head fast' slow', h.pairAt fast = some (first, second) →
      h.pairAt second = some (head, fast') → h.cdr slow = .ok slow' → slow' ≠ fast' →
      h.walkFrom n slow' fast' ((seen.push first).push head) =
        h.walkFrom m slow' fast' ((seen.push first).push head)) :
    h.walkFrom (n + 1) slow fast seen = h.walkFrom (m + 1) slow fast seen := by
  simp only [walkFrom, bind, Except.bind]
  cases hf : h.read fast with
  | error c => rfl
  | ok d =>
    cases d with
    | pair first second =>
      dsimp only
      cases hs : h.read second with
      | error c => rfl
      | ok e =>
        cases e with
        | pair head fast' =>
          dsimp only
          cases hc : h.cdr slow with
          | error c => rfl
          | ok slow' =>
            dsimp only
            split
            · rfl
            · next hne =>
              exact hgo _ _ _ _ _ (pairAt_of_read hf) (pairAt_of_read hs) hc hne
        | _ => rfl
    | _ => rfl

/-- After `k` rounds the cursors are where they should be, the cells behind the fast one hold pairs,
and the cursors have not met. -/
def Walked (h : Heap) (v : Handle) (k : Nat) : Prop :=
  (∀ j < 2 * k, (h.pairAt (h.tailOf^[j] v)).isSome) ∧
    ∀ i, 1 ≤ i → i ≤ k → h.tailOf^[2 * i] v ≠ h.tailOf^[i] v

lemma Walked.le {h : Heap} {v : Handle} {k : Nat} (hk : h.Walked v k) : k ≤ h.cells.size := by
  by_contra hlt
  obtain ⟨i, h1, h2, h3, -⟩ := exists_meeting_of_spine (h := h) (v := v)
    fun i hi => hk.1 i (by omega)
  exact hk.2 i h1 (by omega) h3

lemma Walked.pairAt_slow {h : Heap} {v a b : Handle} {k : Nat} (hk : h.Walked v k)
    (hp : h.pairAt (h.tailOf^[2 * k] v) = some (a, b)) : (h.pairAt (h.tailOf^[k] v)).isSome := by
  rcases Nat.eq_zero_or_pos k with rfl | h0
  · rw [Nat.mul_zero] at hp
    rw [hp]
    rfl
  · exact hk.1 k (by omega)

lemma Walked.succ {h : Heap} {v first second head fast slow : Handle} {k : Nat} (hk : h.Walked v k)
    (hf : h.pairAt (h.tailOf^[2 * k] v) = some (first, second))
    (hs : h.pairAt second = some (head, fast)) (hc : h.cdr (h.tailOf^[k] v) = .ok slow)
    (hne : slow ≠ fast) :
    h.Walked v (k + 1) ∧ slow = h.tailOf^[k + 1] v ∧ fast = h.tailOf^[2 * (k + 1)] v := by
  have h1 : second = h.tailOf^[2 * k + 1] v := by
    rw [Function.iterate_succ_apply', tailOf_of_pairAt hf]
  have h2 : fast = h.tailOf^[2 * (k + 1)] v := by
    rw [show 2 * (k + 1) = 2 * k + 1 + 1 by omega, Function.iterate_succ_apply', ← h1,
      tailOf_of_pairAt hs]
  obtain ⟨⟨a, b⟩, hp⟩ := Option.isSome_iff_exists.mp (hk.pairAt_slow hf)
  have h3 : slow = h.tailOf^[k + 1] v := by
    rw [Function.iterate_succ_apply', tailOf_of_pairAt hp]
    rw [cdr_of_pairAt hp] at hc
    exact (Except.ok.inj hc).symm
  refine ⟨⟨fun j hj => ?_, fun i hi hle => ?_⟩, h3, h2⟩
  · rcases Nat.lt_or_ge j (2 * k) with hlt | hge
    · exact hk.1 j hlt
    · rcases Nat.eq_or_lt_of_le hge with rfl | hgt
      · rw [hf]
        rfl
      · obtain rfl : j = 2 * k + 1 := by omega
        rw [← h1, hs]
        rfl
  · rcases Nat.lt_or_ge k i with hlt | hge
    · obtain rfl : i = k + 1 := by omega
      rw [← h2, ← h3]
      exact hne.symm
    · exact hk.2 i hi hge

lemma walkFrom_stable {h : Heap} {v : Handle} (n m k : Nat) (hk : h.Walked v k)
    (hn : h.cells.size < k + n) (seen : Array Handle) :
    h.walkFrom n (h.tailOf^[k] v) (h.tailOf^[2 * k] v) seen =
      h.walkFrom (n + m) (h.tailOf^[k] v) (h.tailOf^[2 * k] v) seen := by
  induction n generalizing k seen with
  | zero =>
    have := hk.le
    omega
  | succ n ih =>
    rw [Nat.succ_add]
    refine walkFrom_succ_congr fun first second head fast slow hf hs hc hne => ?_
    obtain ⟨hk', rfl, rfl⟩ := hk.succ hf hs hc hne
    exact ih (k + 1) hk' (by omega) _

lemma walked_zero (h : Heap) (v : Handle) : h.Walked v 0 :=
  ⟨fun j hj => by omega, fun i h1 h2 => by omega⟩

/-- The walk down a spine is the same with any larger bound on the rounds. -/
lemma walkSpine_eq {h : Heap} (v : Handle) {n : Nat} (hn : h.cells.size < n) :
    h.walkSpine v = h.walkFrom n v v #[] := by
  obtain ⟨m, rfl⟩ : ∃ m, n = h.cells.size + 1 + m := ⟨n - (h.cells.size + 1), by omega⟩
  exact walkFrom_stable (h.cells.size + 1) m 0 (h.walked_zero v) (by omega) #[]

end Heap

/-! ## The printed rest of a list -/

namespace Printer

open Heap

lemma spineText_succ_congr {h : Heap} {element : Handle → Except Halt String} {n m : Nat}
    {due : Bool} {slow current : Handle} {out : String}
    (hgo : ∀ head next slow' out', h.pairAt current = some (head, next) → current ≠ slow →
      (if due then h.cdr slow else pure slow) = .ok slow' →
      spineText h element n (!due) slow' next out' =
        spineText h element m (!due) slow' next out') :
    spineText h element (n + 1) due slow current out =
      spineText h element (m + 1) due slow current out := by
  simp only [spineText, bind, Except.bind]
  cases hc : h.read current with
  | error c => rfl
  | ok d =>
    cases d with
    | pair head next =>
      dsimp only
      split
      · rfl
      next hne =>
      cases element head with
      | error c => rfl
      | ok text =>
        cases due with
        | false => exact hgo _ _ _ _ (pairAt_of_read hc) hne rfl
        | true =>
          dsimp only [if_true]
          cases hs : h.cdr slow with
          | error c => rfl
          | ok slow' => exact hgo _ _ _ _ (pairAt_of_read hc) hne hs
    | _ => rfl

/-- After `j` steps the printing is `j` pairs beyond the second, the slow cursor half as far from
the first, and they have not met. -/
def Printed (h : Heap) (v : Handle) (j : Nat) : Prop :=
  (∀ i ≤ j, (h.pairAt (h.tailOf^[i] v)).isSome) ∧
    ∀ i < j, h.tailOf^[i + 1] v ≠ h.tailOf^[i / 2] v

lemma Printed.le {h : Heap} {v : Handle} {j : Nat} (hj : Printed h v j) :
    j < 2 * h.cells.size + 2 := by
  by_contra hlt
  obtain ⟨i, h1, h2, -, h4⟩ := exists_meeting_of_spine (h := h) (v := v)
    fun i hi => hj.1 i (by omega)
  refine hj.2 (2 * i - 2) (by omega) ?_
  rw [show 2 * i - 2 + 1 = 2 * i - 1 by omega, h4, show (2 * i - 2) / 2 = i - 1 by omega]

lemma Printed.succ {h : Heap} {v head next slow : Handle} {j : Nat} (hj : Printed h v j)
    (hc : h.pairAt (h.tailOf^[j + 1] v) = some (head, next))
    (hne : h.tailOf^[j + 1] v ≠ h.tailOf^[j / 2] v)
    (hs : (if j % 2 = 1 then h.cdr (h.tailOf^[j / 2] v) else pure (h.tailOf^[j / 2] v)) =
      .ok slow) :
    Printed h v (j + 1) ∧ slow = h.tailOf^[(j + 1) / 2] v ∧ next = h.tailOf^[j + 2] v := by
  refine ⟨⟨fun i hi => ?_, fun i hi => ?_⟩, ?_, ?_⟩
  · rcases Nat.lt_or_ge j i with hlt | hge
    · obtain rfl : i = j + 1 := by omega
      rw [hc]
      rfl
    · exact hj.1 i hge
  · rcases Nat.lt_or_ge i j with hlt | hge
    · exact hj.2 i hlt
    · obtain rfl : i = j := by omega
      exact hne
  · split at hs
    · obtain ⟨⟨a, b⟩, hp⟩ := Option.isSome_iff_exists.mp (hj.1 (j / 2) (by omega))
      rw [cdr_of_pairAt hp] at hs
      rw [show (j + 1) / 2 = j / 2 + 1 by omega, Function.iterate_succ_apply', tailOf_of_pairAt hp]
      exact (Except.ok.inj hs).symm
    · rw [show (j + 1) / 2 = j / 2 by omega]
      exact (Except.ok.inj hs).symm
  · rw [Function.iterate_succ_apply', tailOf_of_pairAt hc]

lemma spineText_stable {h : Heap} {element : Handle → Except Halt String} {v : Handle} (n m j : Nat)
    (hj : Printed h v j) (hn : 2 * h.cells.size + 2 ≤ j + n) (out : String) :
    spineText h element n (decide (j % 2 = 1)) (h.tailOf^[j / 2] v) (h.tailOf^[j + 1] v) out =
      spineText h element (n + m) (decide (j % 2 = 1)) (h.tailOf^[j / 2] v) (h.tailOf^[j + 1] v)
        out := by
  induction n generalizing j out with
  | zero =>
    have := hj.le
    omega
  | succ n ih =>
    rw [Nat.succ_add]
    refine spineText_succ_congr fun head next slow out' hc hne hs => ?_
    have hs' : (if j % 2 = 1 then h.cdr (h.tailOf^[j / 2] v) else pure (h.tailOf^[j / 2] v)) =
        .ok slow := by
      rw [← hs]
      simp only [decide_eq_true_eq]
    obtain ⟨hj', rfl, rfl⟩ := hj.succ hc hne hs'
    have hdue : (!decide (j % 2 = 1)) = decide ((j + 1) % 2 = 1) := by
      rw [← decide_not]
      exact decide_eq_decide.mpr (by omega)
    rw [hdue]
    exact ih (j + 1) hj' (by omega) out'

/-- The rest of a list prints the same with any larger bound on the steps. -/
lemma spineText_eq {h : Heap} {element : Handle → Except Halt String} {v head next : Handle}
    (hp : h.pairAt v = some (head, next)) {n : Nat} (hn : 2 * h.cells.size + 2 ≤ n) (out : String) :
    spineText h element (2 * h.cells.size + 2) false v next out =
      spineText h element n false v next out := by
  obtain ⟨m, rfl⟩ : ∃ m, n = 2 * h.cells.size + 2 + m := ⟨n - (2 * h.cells.size + 2), by omega⟩
  have h0 : Printed h v 0 := by
    refine ⟨fun i hi => ?_, fun i hi => by omega⟩
    obtain rfl : i = 0 := by omega
    exact Option.isSome_iff_exists.mpr ⟨_, hp⟩
  have hs := @spineText_stable h element v (2 * h.cells.size + 2) m 0 h0 (by omega) out
  have hnext : h.tailOf^[0 + 1] v = next := tailOf_of_pairAt hp
  rwa [hnext] at hs

end Printer

end ArenaScheme
