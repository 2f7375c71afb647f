/-
# The shapes of a spine

In any heap at all, be it well formed or not, going from pair to pair along the tails does one of
three things.  It comes to a cell that holds something else than a pair; it leads out of the arena;
or it comes back to a pair where it has been, and goes round in circles from then on.  In the last
case some pairs lead to a cycle of pairs, and all of these are different.

A spine has only one of these shapes, and what it is made of is determined.
-/
import ArenaScheme.Proofs.Protection.Rows

namespace ArenaScheme

namespace Heap

/-- The cell exists and holds no pair. -/
def Terminal (h : Heap) (v : Handle) : Prop := ∃ d, h.datum? v = some d ∧ d.pair? = none

/-- From `v` on there are the pairs `lead`, whose heads are `us`, and then the spine goes round in
the pairs `cycle`, whose heads are `ws`. -/
structure Circular (h : Heap) (us lead ws cycle : List Handle) (v : Handle) : Prop where
  entry : ∃ w, h.Row w us lead v ∧ h.Row w ws cycle w
  ne_nil : cycle ≠ []
  nodup : (lead ++ cycle).Nodup

variable {h : Heap} {us vs ws lead cycle cells cells' : List Handle} {u v w last : Handle}
  {d : Datum} {i j n : Nat}

/-! ## Ends -/

lemma Terminal.pairAt (ht : h.Terminal v) : h.pairAt v = none := by
  obtain ⟨d, hd, hp⟩ := ht
  cases hv : h.pairAt v with
  | none => rfl
  | some parts =>
    have hread := (object?_eq_some.mp (pairAt_eq_some.mp hv)).1
    obtain rfl := Option.some.inj (hd.symm.trans hread)
    cases hp

lemma pairAt_of_size_le (hv : h.cells.size ≤ v.index) : h.pairAt v = none := by
  cases hp : h.pairAt v with
  | none => rfl
  | some parts => exact absurd (lt_size_of_pairAt (by rw [hp]; rfl)) (Nat.not_lt.mpr hv)

lemma terminal_of_read (hr : h.read v = .ok d) (hd : ∀ a b, d ≠ .pair a b) : h.Terminal v := by
  unfold read at hr
  split at hr
  · next e he =>
    obtain rfl := Except.ok.inj hr
    refine ⟨e, he, ?_⟩
    cases e <;> first | rfl | exact absurd rfl (hd _ _)
  · cases hr

lemma read_eq_error {c : Halt} (hr : h.read v = .error c) :
    h.cells.size ≤ v.index ∧ c = .outOfRange h.cells.size v.index := by
  unfold read at hr
  split at hr
  · cases hr
  · next hn => exact ⟨Array.getElem?_eq_none_iff.mp hn, (Except.error.inj hr).symm⟩

/-! ## Rows and positions along a spine -/

namespace Row

/-- One more pair at the end. -/
lemma concat {x next : Handle} (hr : h.Row u vs cells v) (hu : h.object? u = some (.pair x next)) :
    h.Row next (vs ++ [x]) (cells ++ [u]) v := hr.append (.cons hu .nil)

lemma tailOf_iterate (hr : h.Row last vs cells v) : h.tailOf^[cells.length] v = last := by
  induction hr with
  | nil => rfl
  | cons hv _ ih =>
    rw [List.length_cons, Function.iterate_succ_apply, tailOf_of_pairAt (pairAt_eq_some.mpr hv)]
    exact ih

lemma getElem?_cells (hr : h.Row last vs cells v) (hi : i < cells.length) :
    cells[i]? = some (h.tailOf^[i] v) := by
  induction hr generalizing i with
  | nil => simp at hi
  | cons hv _ ih =>
    cases i with
    | zero => rfl
    | succ i =>
      rw [List.getElem?_cons_succ, Function.iterate_succ_apply,
        tailOf_of_pairAt (pairAt_eq_some.mpr hv)]
      exact ih (by simpa using hi)

lemma isSome_pairAt (hr : h.Row last vs cells v) (hi : i < cells.length) :
    (h.pairAt (h.tailOf^[i] v)).isSome := by
  induction hr generalizing i with
  | nil => simp at hi
  | cons hv _ ih =>
    cases i with
    | zero =>
      rw [Function.iterate_zero_apply, pairAt_eq_some.mpr hv]
      rfl
    | succ i =>
      rw [Function.iterate_succ_apply, tailOf_of_pairAt (pairAt_eq_some.mpr hv)]
      exact ih (by simpa using hi)

/-- Of two rows from the same pair on, the shorter one is the beginning of the longer one. -/
lemma isPrefix (hr : h.Row u vs cells v) (hr' : h.Row w ws cells' v)
    (hle : cells.length ≤ cells'.length) :
    vs <+: ws ∧ cells <+: cells' := by
  induction hr generalizing ws cells' with
  | nil => exact ⟨List.nil_prefix, List.nil_prefix⟩
  | cons hv _ ih =>
    cases hr' with
    | nil => simp at hle
    | cons hv' hr' =>
      obtain ⟨rfl, rfl⟩ := Datum.pair.inj (Option.some.inj (hv.symm.trans hv'))
      obtain ⟨hvs, hcells⟩ := ih hr' (by simpa using hle)
      exact ⟨(List.prefix_cons_inj _).mpr hvs, (List.prefix_cons_inj _).mpr hcells⟩

end Row

/-- As long as there are pairs, they are a row. -/
lemma exists_row (hp : ∀ i < n, (h.pairAt (h.tailOf^[i] v)).isSome) :
    ∃ vs cells, h.Row (h.tailOf^[n] v) vs cells v ∧ cells.length = n := by
  induction n with
  | zero => exact ⟨[], [], .nil, rfl⟩
  | succ n ih =>
    obtain ⟨vs, cells, hr, hl⟩ := ih fun i hi => hp i (by omega)
    obtain ⟨⟨x, next⟩, hx⟩ := Option.isSome_iff_exists.mp (hp n (Nat.lt_succ_self n))
    refine ⟨vs ++ [x], cells ++ [h.tailOf^[n] v], ?_, by simp [hl]⟩
    rw [Function.iterate_succ_apply', tailOf_of_pairAt hx]
    exact hr.concat (pairAt_eq_some.mp hx)

/-! ## Circular spines -/

namespace Circular

lemma row (hc : h.Circular us lead ws cycle v) :
    h.Row (h.tailOf^[lead.length] v) (us ++ ws) (lead ++ cycle) v := by
  obtain ⟨w, hl, hw⟩ := hc.entry
  rw [hl.tailOf_iterate]
  exact hl.append hw

lemma returns (hc : h.Circular us lead ws cycle v) :
    h.tailOf^[lead.length] v = h.tailOf^[lead.length + cycle.length] v := by
  have hr := hc.row.tailOf_iterate
  rw [List.length_append] at hr
  exact hr.symm

lemma length_pos (hc : h.Circular us lead ws cycle v) : 0 < cycle.length :=
  List.length_pos_iff.mpr hc.ne_nil

/-- The first pairs are different ones. -/
lemma eq_of_iterate_eq (hc : h.Circular us lead ws cycle v) (hi : i < lead.length + cycle.length)
    (hj : j < lead.length + cycle.length) (he : h.tailOf^[i] v = h.tailOf^[j] v) : i = j := by
  rw [← List.length_append] at hi hj
  refine (List.getElem?_inj hi hc.nodup).mp ?_
  rw [hc.row.getElem?_cells hi, hc.row.getElem?_cells hj, he]

/-- A circular spine has no end. -/
lemma isSome_pairAt (hc : h.Circular us lead ws cycle v) (i : Nat) :
    (h.pairAt (h.tailOf^[i] v)).isSome := by
  induction i using Nat.strongRecOn with
  | ind i ih =>
    rcases Nat.lt_or_ge i (lead.length + cycle.length) with hlt | hge
    · exact hc.row.isSome_pairAt (by rwa [List.length_append])
    · -- one round earlier there is the same pair
      have hpos := hc.length_pos
      have hback : h.tailOf^[i] v = h.tailOf^[i - cycle.length] v := by
        obtain ⟨k, rfl⟩ : ∃ k, i = k + (lead.length + cycle.length) :=
          ⟨i - (lead.length + cycle.length), by omega⟩
        rw [Function.iterate_add_apply, ← hc.returns, ← Function.iterate_add_apply]
        congr 2
        omega
      rw [hback]
      exact ih _ (by omega)

lemma not_row (hc : h.Circular us lead ws cycle v) (hp : h.pairAt last = none) :
    ¬ h.Row last vs cells v := by
  intro hr
  have hsome := hc.isSome_pairAt cells.length
  rw [hr.tailOf_iterate, hp] at hsome
  cases hsome

end Circular

/-- A spine without an end is circular. -/
lemma exists_circular (hp : ∀ i, (h.pairAt (h.tailOf^[i] v)).isSome) :
    ∃ us lead ws cycle, h.Circular us lead ws cycle v := by
  classical
  have hrep : ∃ q p, p < q ∧ h.tailOf^[p] v = h.tailOf^[q] v := by
    obtain ⟨p, q, hpq, -, he⟩ := exists_repeat (fun i => h.tailOf^[i] v)
      fun i _ => lt_size_of_pairAt (hp i)
    exact ⟨q, p, hpq, he⟩
  -- the first time that a pair is seen again
  obtain ⟨p, hpq, he⟩ := Nat.find_spec hrep
  set q := Nat.find hrep
  obtain ⟨us, lead, hlead, hl⟩ := exists_row (n := p) fun i _ => hp i
  obtain ⟨ws, cycle, hcycle, hc⟩ := exists_row (v := h.tailOf^[p] v) (n := q - p) fun i _ => by
    rw [← Function.iterate_add_apply]
    exact hp _
  rw [← Function.iterate_add_apply, show q - p + p = q by omega, ← he] at hcycle
  refine ⟨us, lead, ws, cycle, ⟨_, hlead, hcycle⟩, List.ne_nil_of_length_pos (by omega), ?_⟩
  have hrow := hlead.append hcycle
  rw [List.nodup_iff_getElem?_ne_getElem?]
  intro i j hij hj hsame
  have hlen : (lead ++ cycle).length = q := by
    rw [List.length_append]
    omega
  rw [hrow.getElem?_cells (by omega), hrow.getElem?_cells hj] at hsame
  exact Nat.find_min hrep (by omega) ⟨i, hij, Option.some.inj hsame⟩

/-- A spine that comes back to where it has been is circular. -/
lemma exists_circular_of_return {p q : Nat} (hpq : p < q) (he : h.tailOf^[q] v = h.tailOf^[p] v)
    (hp : ∀ i < q, (h.pairAt (h.tailOf^[i] v)).isSome) :
    ∃ us lead ws cycle, h.Circular us lead ws cycle v := by
  refine exists_circular fun i => ?_
  induction i using Nat.strongRecOn with
  | ind i ih =>
    rcases Nat.lt_or_ge i q with hlt | hge
    · exact hp i hlt
    · obtain ⟨k, rfl⟩ : ∃ k, i = k + q := ⟨i - q, by omega⟩
      rw [Function.iterate_add_apply, he, ← Function.iterate_add_apply]
      exact ih _ (by omega)

end Heap

end ArenaScheme
