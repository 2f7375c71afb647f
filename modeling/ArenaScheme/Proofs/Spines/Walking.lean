/-
# Walks decide which lists are proper

A walk down a spine has two cursors, of which the fast one makes two moves in the time that the slow
one makes one.  If the spine has an end then the fast cursor gets there, and on the way it has been
at every pair once.  If the spine is circular then the cursors meet, for the first time after so
many moves of the slow one as is a multiple of the length of the cycle.  This takes no longer than
one round of the slow one, and by then the fast one has been everywhere.

None of this depends on the heap being well formed.  There only has to be a cell wherever the spine
leads; else the walk halts, since it leads out of the arena.
-/
import ArenaScheme.Proofs.Spines.Shapes

namespace ArenaScheme

open Heap

namespace Heap

/-- What a walk down the spine of `v` comes to, without a bound on the rounds. -/
inductive Walks (h : Heap) (v : Handle) : Except Halt Walk → Prop
  /-- The heads of all pairs, and what comes after the last one. -/
  | ends {vs cells : List Handle} {last : Handle} (hr : h.Row last vs cells v)
      (ht : h.Terminal last) :
      Walks h v (.ok ⟨vs, some last⟩)
  /-- The cursors meet for the first time after `j` rounds. -/
  | meets {vs cells : List Handle} {j : Nat} (hr : h.Row (h.tailOf^[j] v) vs cells v)
      (hl : cells.length = 2 * j) (hj : 1 ≤ j)
      (hfirst : ∀ i, 1 ≤ i → i < j → h.tailOf^[2 * i] v ≠ h.tailOf^[i] v) : Walks h v
      (.ok ⟨vs, none⟩)
  /-- There is no cell where the spine leads. -/
  | strays {vs cells : List Handle} {w : Handle} (hr : h.Row w vs cells v)
      (hw : h.cells.size ≤ w.index) : Walks h v (.error (.outOfRange h.cells.size w.index))

variable {h : Heap} {v last : Handle} {us vs ws lead cycle cells seen : List Handle}

/-- The rounds that are left are enough, if each of those before has taken the cursors on. -/
lemma walks_walkFrom {n k : Nat} {seen : Array Handle} (hk : h.Walked v k)
    (hn : h.cells.size < k + n) (hr : h.Row (h.tailOf^[2 * k] v) seen.toList cells v)
    (hl : cells.length = 2 * k) :
    h.Walks v (h.walkFrom n (h.tailOf^[k] v) (h.tailOf^[2 * k] v) seen) := by
  induction n generalizing k cells seen with
  | zero =>
    have := hk.le
    omega
  | succ n ih =>
    simp only [walkFrom, bind, Except.bind]
    cases hfast : h.read (h.tailOf^[2 * k] v) with
    | error c =>
      obtain ⟨hle, rfl⟩ := read_eq_error hfast
      exact .strays hr hle
    | ok d =>
      dsimp only
      split
      swap
      · next hd => exact .ends hr (terminal_of_read hfast fun a b he => hd a b he)
      next first second =>
      have hp := pairAt_of_read hfast
      have hr' := hr.concat (pairAt_eq_some.mp hp)
      rw [← Array.toList_push] at hr'
      cases hsecond : h.read second with
      | error c =>
        obtain ⟨hle, rfl⟩ := read_eq_error hsecond
        exact .strays hr' hle
      | ok e =>
        dsimp only
        split
        swap
        · next hd => exact .ends hr' (terminal_of_read hsecond fun a b he => hd a b he)
        next head fast =>
        have hp' := pairAt_of_read hsecond
        have hr'' := hr'.concat (pairAt_eq_some.mp hp')
        rw [← Array.toList_push] at hr''
        have hl'' : (cells ++ [h.tailOf^[2 * k] v] ++ [second]).length = 2 * (k + 1) := by
          simp only [List.length_append, List.length_singleton, hl]
          omega
        obtain ⟨⟨x, slow⟩, hslow⟩ := Option.isSome_iff_exists.mp (hk.pairAt_slow hp)
        have hnext : h.tailOf^[k + 1] v = slow := by
          rw [Function.iterate_succ_apply', tailOf_of_pairAt hslow]
        simp only [cdr_of_pairAt hslow]
        split
        · next he =>
          -- the cursors meet, and they have not met before
          refine .meets (j := k + 1) ?_ hl'' (Nat.le_add_left 1 k) fun i h1 hi =>
            hk.2 i h1 (by omega)
          rw [hnext, he]
          exact hr''
        · next hne =>
          obtain ⟨hk', hs', hf'⟩ := hk.succ hp hp' (cdr_of_pairAt hslow) hne
          rw [hs', hf']
          exact ih hk' (by omega) (hf' ▸ hr'') hl''

/-- The bound on the rounds is no matter. -/
lemma walks_walkSpine (h : Heap) (v : Handle) : h.Walks v (h.walkSpine v) :=
  walks_walkFrom (h.walked_zero v) (by omega) .nil rfl

/-! ## Walks and shapes -/

/-- If the cursors meet then the spine is circular. -/
lemma Row.exists_circular_of_meeting {j : Nat} (hr : h.Row (h.tailOf^[j] v) vs cells v)
    (hl : cells.length = 2 * j) (hj : 1 ≤ j) :
    ∃ us lead ws cycle, h.Circular us lead ws cycle v := by
  refine exists_circular_of_return (p := j) (q := 2 * j) (by omega) ?_ fun i hi =>
    hr.isSome_pairAt (by omega)
  rw [← hl, hr.tailOf_iterate]

/-- The cursors meet when the fast one has been at every pair, and by the end of a round of the slow
one. -/
lemma Circular.meeting (hc : h.Circular us lead ws cycle v) {j : Nat}
    (hmeet : h.tailOf^[2 * j] v = h.tailOf^[j] v) (hj : 1 ≤ j)
    (hfirst : ∀ i, 1 ≤ i → i < j → h.tailOf^[2 * i] v ≠ h.tailOf^[i] v) :
    lead.length + cycle.length ≤ 2 * j ∧ j ≤ lead.length + cycle.length := by
  constructor
  · by_contra hlt
    have := hc.eq_of_iterate_eq (by omega) (by omega) hmeet
    omega
  · by_contra hlt
    have hpos := hc.length_pos
    obtain ⟨i, h1, hi, he, -⟩ := exists_meeting (p := lead.length) (by omega) hc.returns
    exact hfirst i h1 (by omega) he

/-- What a walk tells of a spine that has an end. -/
lemma walkSpine_eq_ends_iff :
    h.walkSpine v = .ok ⟨vs, some last⟩ ↔ h.Terminal last ∧ ∃ cells, h.Row last vs cells v := by
  constructor
  · intro hw
    have ho := h.walks_walkSpine v
    rw [hw] at ho
    cases ho with
    | ends hr ht => exact ⟨ht, _, hr⟩
  · rintro ⟨ht, cells, hr⟩
    have ho := h.walks_walkSpine v
    revert ho
    generalize h.walkSpine v = o
    rintro (⟨hr', ht'⟩ | ⟨hr', hl, hj, -⟩ | ⟨hr', hw⟩)
    · obtain ⟨rfl, -, rfl⟩ := hr.unique ht.pairAt ht'.pairAt hr'
      rfl
    · obtain ⟨us, lead, ws, cycle, hc⟩ := hr'.exists_circular_of_meeting hl hj
      exact absurd hr (hc.not_row ht.pairAt)
    · obtain ⟨-, -, rfl⟩ := hr.unique ht.pairAt (pairAt_of_size_le hw) hr'
      obtain ⟨d, hd, -⟩ := ht
      rw [datum?, Array.getElem?_eq_none hw] at hd
      cases hd

/-- What it tells of a circular one. -/
lemma exists_walkSpine_eq_none_iff : (∃ seen, h.walkSpine v = .ok ⟨seen, none⟩) ↔
    ∃ us lead ws cycle, h.Circular us lead ws cycle v := by
  have ho := h.walks_walkSpine v
  constructor
  · rintro ⟨seen, hw⟩
    rw [hw] at ho
    cases ho with
    | meets hr hl hj _ => exact hr.exists_circular_of_meeting hl hj
  · rintro ⟨us, lead, ws, cycle, hc⟩
    revert ho
    generalize h.walkSpine v = o
    rintro (⟨hr, ht⟩ | ⟨hr, -⟩ | ⟨hr, hw⟩)
    · exact absurd hr (hc.not_row ht.pairAt)
    · exact ⟨_, rfl⟩
    · exact absurd hr (hc.not_row (pairAt_of_size_le hw))

/-- Where the fast cursor has been when the cursors meet. -/
lemma Circular.visited (hc : h.Circular us lead ws cycle v)
    (hw : h.walkSpine v = .ok ⟨seen, none⟩) :
    (∃ u cells, h.Row u seen cells v) ∧ us ++ ws <+: seen ∧
      seen.length ≤ 2 * (lead.length + cycle.length) := by
  have ho := h.walks_walkSpine v
  rw [hw] at ho
  cases ho with
  | @meets _ cells j hr hl hj hfirst =>
    have hmeet : h.tailOf^[2 * j] v = h.tailOf^[j] v := hl ▸ hr.tailOf_iterate
    obtain ⟨hlo, hhi⟩ := hc.meeting hmeet hj hfirst
    refine ⟨⟨_, cells, hr⟩, (hc.row.isPrefix hr ?_).1, ?_⟩
    · rw [List.length_append]
      omega
    · rw [← hr.length_eq]
      omega

/-- What becomes of a spine that leads out of the arena. -/
lemma walkSpine_eq_error_iff {c : Halt} : h.walkSpine v = .error c ↔
    ∃ w vs cells, h.Row w vs cells v ∧ h.cells.size ≤ w.index ∧
      c = .outOfRange h.cells.size w.index := by
  have ho := h.walks_walkSpine v
  constructor
  · intro hw
    rw [hw] at ho
    cases ho with
    | strays hr hle => exact ⟨_, _, _, hr, hle, rfl⟩
  · rintro ⟨w, vs, cells, hr, hle, rfl⟩
    have hp := pairAt_of_size_le hle
    revert ho
    generalize h.walkSpine v = o
    rintro (⟨hr', ht⟩ | ⟨hr', hl, hj, -⟩ | ⟨hr', hw⟩)
    · obtain ⟨-, -, rfl⟩ := hr.unique hp ht.pairAt hr'
      obtain ⟨d, hd, -⟩ := ht
      rw [datum?, Array.getElem?_eq_none hle] at hd
      cases hd
    · obtain ⟨us, lead, ws, cycle, hc⟩ := hr'.exists_circular_of_meeting hl hj
      exact absurd hr (hc.not_row hp)
    · obtain ⟨-, -, rfl⟩ := hr.unique hp (pairAt_of_size_le hw) hr'
      rfl

end Heap

namespace HeapM

variable {ε : Type} {h k : Heap} {v : Handle} {vs : List Handle} {n : Nat}

/-- The elements of a proper list. -/
lemma items?_eq_some_iff : (items? v : HeapM ε (Option (List Handle))) h = .ok (some vs) k ↔
    k = h ∧ h.Terminal .emptyList ∧ ∃ cells, h.Row .emptyList vs cells v := by
  rw [← walkSpine_eq_ends_iff]
  constructor
  · intro hi
    cases hw : h.walkSpine v with
    | error c =>
      simp [items?, HeapM.walkSpine, bind_apply, inspect, hw] at hi
    | ok w =>
      rw [items?_eq hw] at hi
      obtain ⟨hitems, rfl⟩ := Outcome.ok.inj hi
      refine ⟨rfl, ?_⟩
      unfold Walk.items? at hitems
      split at hitems
      · next he =>
        obtain rfl := Option.some.inj hitems
        rw [← he]
      · cases hitems
  · rintro ⟨rfl, hw⟩
    exact items?_eq hw

/-- The length of a proper list. -/
lemma length?_eq_some_iff : (length? v : HeapM ε (Option Nat)) h = .ok (some n) k ↔
    k = h ∧ h.Terminal .emptyList ∧ ∃ vs cells, h.Row .emptyList vs cells v ∧ vs.length = n := by
  have hlen : (length? v : HeapM ε (Option Nat)) h = .ok (some n) k ↔
      ∃ vs, (items? v : HeapM ε (Option (List Handle))) h = .ok (some vs) k ∧ vs.length = n := by
    rw [length?, bind_apply]
    cases (items? v : HeapM ε (Option (List Handle))) h with
    | ok o l =>
      cases o with
      | none => simp [pure_apply]
      | some ws => simp [pure_apply, and_comm, and_assoc]
    | error e l => simp
    | halt c => simp
  rw [hlen]
  constructor
  · rintro ⟨vs, hi, hn⟩
    obtain ⟨rfl, ht, cells, hr⟩ := items?_eq_some_iff.mp hi
    exact ⟨rfl, ht, vs, cells, hr, hn⟩
  · rintro ⟨rfl, ht, vs, cells, hr, hn⟩
    exact ⟨vs, items?_eq_some_iff.mpr ⟨rfl, ht, cells, hr⟩, hn⟩

end HeapM

/-- Walking down a spine decides whether it is a proper list, whatever the heap.

* The walk ends: a bound on the rounds beyond the number of cells makes no difference.
* It comes to an end of the spine exactly if there is one, and then it has been at every pair once,
  in order.
* It comes to no end exactly if the spine is circular.  Then it has been at every pair, going along
  the spine, and at no more than twice as many as the spine has got.
* It halts exactly if the spine leads out of the arena.

So exactly the proper lists have elements and a length, and these are the right ones. -/
theorem walks_decide_properness (h : Heap) (v : Handle) (ε : Type) :
    (∀ n, h.cells.size < n → h.walkFrom n v v #[] = h.walkSpine v) ∧
    (∀ vs last, h.walkSpine v = .ok ⟨vs, some last⟩ ↔
      h.Terminal last ∧ ∃ cells, h.Row last vs cells v) ∧
    ((∃ seen, h.walkSpine v = .ok ⟨seen, none⟩) ↔
      ∃ us lead ws cycle, h.Circular us lead ws cycle v) ∧
    (∀ seen us lead ws cycle, h.walkSpine v = .ok ⟨seen, none⟩ → h.Circular us lead ws cycle v →
      (∃ u cells, h.Row u seen cells v) ∧ us ++ ws <+: seen ∧
        seen.length ≤ 2 * (lead.length + cycle.length)) ∧
    (∀ c, h.walkSpine v = .error c ↔ ∃ w vs cells, h.Row w vs cells v ∧ h.cells.size ≤ w.index ∧
      c = .outOfRange h.cells.size w.index) ∧
    (∀ vs k, (HeapM.items? v : HeapM ε (Option (List Handle))) h = .ok (some vs) k ↔
      k = h ∧ h.Terminal .emptyList ∧ ∃ cells, h.Row .emptyList vs cells v) ∧
    ∀ n k, (HeapM.length? v : HeapM ε (Option Nat)) h = .ok (some n) k ↔
      k = h ∧ h.Terminal .emptyList ∧ ∃ vs cells, h.Row .emptyList vs cells v ∧ vs.length = n :=
  ⟨fun _ hn => (Heap.walkSpine_eq v hn).symm, fun _ _ => walkSpine_eq_ends_iff,
    exists_walkSpine_eq_none_iff, fun _ _ _ _ _ hw hc => hc.visited hw, fun _ =>
      walkSpine_eq_error_iff,
    fun _ _ => HeapM.items?_eq_some_iff, fun _ _ => HeapM.length?_eq_some_iff⟩

/-- A list whose first element is the list itself.  After one pair it goes round in two. -/
def winding : Heap where
  cells := #[.emptyList, .bool true, .bool false, .error .outOfMemory "out of memory",
    .pair ⟨4⟩ ⟨5⟩, .pair .trueObject ⟨6⟩, .pair .falseObject ⟨5⟩, rootFrame]
  capacity := 3
  free := none
  freeCount := 0
  collections := 0
  roots := #[⟨4⟩]
  rootSlots := 8
  symbols := ∅
  baseEnv := ⟨7⟩
  currentEnv := ⟨7⟩
  audited := true

lemma circular_winding : winding.Circular [⟨4⟩] [⟨4⟩] [.trueObject, .falseObject] [⟨5⟩, ⟨6⟩] ⟨4⟩ :=
  ⟨⟨⟨5⟩, .cons rfl .nil, .cons rfl (.cons rfl .nil)⟩, by decide, by decide⟩

/-- So a walk goes over at least three and at most six of its elements. -/
theorem walks_decide_properness_winding :
    winding.Circular [⟨4⟩] [⟨4⟩] [.trueObject, .falseObject] [⟨5⟩, ⟨6⟩] ⟨4⟩ ∧
    ∃ seen, winding.walkSpine ⟨4⟩ = .ok ⟨seen, none⟩ ∧ [⟨4⟩, .trueObject, .falseObject] <+: seen ∧
      seen.length ≤ 6 := by
  obtain ⟨-, -, hiff, hvisited, -⟩ := walks_decide_properness winding ⟨4⟩ Empty
  obtain ⟨seen, hw⟩ := hiff.mpr ⟨_, _, _, _, circular_winding⟩
  obtain ⟨-, hprefix, hle⟩ := hvisited _ _ _ _ _ hw circular_winding
  exact ⟨circular_winding, seen, hw, hprefix, hle⟩

end ArenaScheme
