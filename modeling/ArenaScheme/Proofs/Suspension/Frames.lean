/-
# Frames that can be reached

A frame has a list of names and a list of values.  The first names a frame gets are the parameters
of a procedure, and its list of names may be the list of parameters itself, which the program can
get hold of and change.  On a machine whose programs change no pair, nothing of that kind happens:
both lists are proper lists, of the same length, and all names are symbols.  A definition adds a
name only if the frame does not have it yet.  So no name occurs twice, unless a parameter does.

This holds of every frame that can be reached at the beginning of any turn.
-/
import ArenaScheme.Proofs.Suspension.Machines

namespace ArenaScheme

open Heap HeapM Evaluator Interpreter Activation
open Twin (noSlot)

variable {ctx : Context} {h : Heap} {text : String} {a z : Activation} {budget n : Nat} {W : Regime}
  {ρ σ : Twin} {l : List Handle} {p : Option Handle}
  {env names names' values values' : Handle}

/-- The two lists of a frame.  There are as many values as names; the names are symbols; and those
that have been added in front of the parameters are new each time. -/
structure Heap.Pairing (h : Heap) (names values : Handle)
    (added params vs : List Handle) : Prop where
  names : ∃ cells, h.Row .emptyList (added ++ params) cells names
  values : ∃ cells, h.Row .emptyList vs cells values
  length : vs.length = (added ++ params).length
  symbols : ∀ s ∈ added ++ params, ∃ name, h.object? s = some (.symbol name)
  nodup : added.Nodup
  fresh : ∀ s ∈ added, s ∉ params

/-- A name occurs twice only if a parameter does. -/
lemma Heap.Pairing.nodup_iff {added params vs : List Handle}
    (hp : h.Pairing names values added params vs) :
    (added ++ params).Nodup ↔ params.Nodup :=
  ⟨fun hn => (List.nodup_append'.mp hn).2.1, fun hn => List.nodup_append'.mpr
    ⟨hp.nodup, hn, hp.fresh⟩⟩

namespace Twin

/-- The names of a frame are those that have been added and those that it has been made with. -/
lemma Bindings.exists_added (hb : σ.Bindings W l names names' values values') (hw : ¬ W.rewriting) :
    ∃ added params, l = added ++ params ∧
      (∀ s ∈ added ++ params, ∃ name, σ.left.object? s = some (.symbol name)) ∧
      added.Nodup ∧ ∀ s ∈ added, s ∉ params := by
  induction hb with
  | @made l _ _ _ _ _ hl _ => exact ⟨[], l, rfl, (hl hw).symbols, .nil, by simp⟩
  | @added _ _ name _ _ _ _ s _ _ _ _ _ _ _ _ _ _ _ _ _ _ _ _ hname hnew _ ih =>
    obtain ⟨added, params, rfl, hsym, hnodup, hfresh⟩ := ih
    obtain ⟨hs, hs'⟩ := not_or.mp (mt List.mem_append.mpr (hnew hw))
    exact ⟨s :: added, params, rfl, List.forall_mem_cons.mpr ⟨⟨name, hname⟩, hsym⟩,
      List.nodup_cons.mpr ⟨hs, hnodup⟩, List.forall_mem_cons.mpr ⟨hs', hfresh⟩⟩

lemma Bindings.pairing (hb : σ.Bindings W l names names' values values') (hw : ¬ W.rewriting) :
    ∃ added params vs, σ.left.Pairing names values added params vs := by
  obtain ⟨added, params, rfl, hsym, hnodup, hfresh⟩ := hb.exists_added hw
  obtain ⟨vs, cells, hlen, hvalues⟩ := hb.row_values
  exact ⟨added, params, vs, hb.row_names hw, ⟨cells, hvalues⟩, hlen, hsym, hnodup, hfresh⟩

/-- A frame that can be reached has bindings. -/
lemma Valid.bindings (hv : σ.Valid W) (hr : σ.left.Reachable [] env)
    (hd : σ.left.object? env = some (.frame p names values)) :
    ∃ l names' values', σ.Bindings W l names names' values values' := by
  obtain ⟨r, b, hab, -⟩ := hv.reachable .nil hr
  obtain ⟨d', -, hf⟩ := hv.data_of_left hab hd
  cases hf with
  | atom _ hc | secret _ hc => cases p <;> simp [Datum.children] at hc
  | frame _ _ hb => exact ⟨_, _, _, hb⟩

/-- So it has at the beginning of every turn, if all evaluations leave suspended expressions
intact. -/
lemma exists_bindings (hs : W.same) (h : Ready W noSlot ctx.keywords ctx.keywords ρ σ)
    (hscan : (Scan.ofString text 0).Within W.names)
    (hi : ∀ a (τ : Twin), Undertakes ctx budget text σ.left a → τ.Begins W ctx noSlot a →
      a.Intact ctx noSlot)
    (ha : Undertakes ctx budget text σ.left a) (hz : Activation.Follows ctx a z)
    (hr : z.heap.Reachable [] env) (hd : z.heap.object? env = some (.frame p names values)) :
    ∃ (τ : Twin) (l : List Handle) (names' values' : Handle), τ.left = z.heap ∧
      τ.Bindings W l names names' values values' := by
  obtain ⟨τ, hτ⟩ := begins_of_undertakes hs h hscan hi ha
  obtain ⟨B, hz⟩ := hz.getsTo noSlot
  obtain ⟨υ, hυ⟩ := (hi a τ ha hτ).begins hs hτ hz
  rw [← hυ.left] at hr hd ⊢
  obtain ⟨l, names', values', hb⟩ := hυ.ready.valid.bindings hr hd
  exact ⟨υ, l, names', values', rfl, hb⟩

end Twin

/-- Whatever pairs a program changes, as long as it leaves suspended expressions intact, the values
of a frame that can be reached at the beginning of a turn are a proper list. -/
theorem frames_list_values (hm : RanOnly LeavesIntact ctx h) (ht : LeavesIntact ctx budget text h)
    (ha : Undertakes ctx budget text h a) (hz : Follows ctx a z) (hr : z.heap.Reachable [] env)
    (hd : z.heap.object? env = some (.frame p names values)) :
    ∃ vs cells, z.heap.Row .emptyList vs cells values := by
  obtain ⟨σ, rfl, hσ⟩ := hm.ready
  obtain ⟨τ, l, names', values', hl, hb⟩ :=
    Twin.exists_bindings trivial hσ (fun _ _ => trivial) (fun a _ ha _ => ht a ha) ha hz hr hd
  obtain ⟨vs, cells, -, hrow⟩ := hb.row_values
  exact ⟨vs, cells, hl ▸ hrow⟩

/-- On a machine that has only run texts that do not name the procedures that change pairs, and that
runs such a text, all frames that can be reached at the beginning of a turn have two lists of one
length: values, and symbols that are their names. -/
theorem frames_pair_names (hm : RanOnly NamesUnchanging ctx h)
    (ht : NamesUnchanging ctx budget text h) (ha : Undertakes ctx budget text h a)
    (hz : Follows ctx a z) (hr : z.heap.Reachable [] env)
    (hd : z.heap.object? env = some (.frame p names values)) :
    ∃ added params vs, z.heap.Pairing names values added params vs := by
  obtain ⟨σ, rfl, hσ⟩ := hm.ready_unchanging
  obtain ⟨τ, l, names', values', hl, hb⟩ :=
    Twin.exists_bindings trivial hσ ht (fun _ _ _ hb => intact_of_begins hb trivial id) ha hz hr hd
  exact hl ▸ hb.pairing id

/-! ## Two procedures

One defines a variable of its own, the other has the same parameter twice. -/

namespace Activation

/-- The activation after so many turns, if the evaluation comes to that. -/
def after (ctx : Context) : Nat → Activation → Option Activation
  | 0, a => some a
  | n + 1, a =>
    match a.budget, (a.turn ctx (a.evaluator ctx)) with
    | budget + 1, .ok (.again focus) h => after ctx n ⟨budget, a.slot, focus, h⟩
    | _, _ => none

lemma follows_of_after (hz : a.after ctx n = some z) : Follows ctx a z := by
  induction n generalizing a with
  | zero =>
    obtain rfl := Option.some.inj hz
    exact .refl a
  | succ n ih =>
    rw [after] at hz
    split at hz
    · next hb ht => exact .again hb ht (ih hz)
    · simp at hz

/-- The parent and the lists of the current frame. -/
def current (a : Activation) : Option (Handle × Handle × Handle) :=
  match a.heap.object? a.heap.currentEnv with
  | some (.frame (some parent) names values) => some (parent, names, values)
  | _ => none

lemma object?_of_current {parent : Handle} (hc : a.current = some (parent, names, values)) :
    a.heap.object? a.heap.currentEnv = some (.frame (some parent) names values) := by
  unfold current at hc
  split at hc
  · next hd =>
    cases hc
    exact hd
  · simp at hc

/-- Whether the first two names of the current frame are the same. -/
def repeats (a : Activation) : Bool :=
  match a.current with
  | some (_, names, _) =>
    match a.heap.pairAt names with
    | some (s, rest) =>
      rest != .emptyList && names != .emptyList && (a.heap.pairAt rest).any (·.1 == s)
    | none => false
  | none => false

/-- Then a name occurs twice. -/
lemma not_nodup_of_repeats (hr : a.repeats = true) :
    ∃ parent names values, a.current = some (parent, names, values) ∧
    ∀ l cells, a.heap.Row .emptyList l cells names → ¬ l.Nodup := by
  unfold repeats at hr
  split at hr
  · next parent names values hcur =>
    refine ⟨parent, names, values, hcur, fun l cells hrow => ?_⟩
    split at hr
    · next s rest hp =>
      simp only [Bool.and_eq_true, bne_iff_ne, ne_eq, Option.any_eq_true, beq_iff_eq] at hr
      obtain ⟨⟨hrest, hnames⟩, ⟨t, c⟩, hq, rfl⟩ := hr
      cases hrow with
      | nil => exact absurd rfl hnames
      | cons hd hrow =>
        obtain ⟨rfl, rfl⟩ := Prod.mk.inj (Option.some.inj ((pairAt_eq_some.mpr hd).symm.trans hp))
        cases hrow with
        | nil => exact absurd rfl hrest
        | cons hd' _ =>
          obtain ⟨rfl, rfl⟩ :=
            Prod.mk.inj (Option.some.inj ((pairAt_eq_some.mpr hd').symm.trans hq))
          simp
    · cases hr
  · cases hr

end Activation

/-- A text that calls a procedure which defines a variable before it returns its first argument. -/
def defining : String := "((lambda (x . r) (define y 2) x) 1)"

/-- A text that calls a procedure with the same parameter twice. -/
def repeating : String := "((lambda (x x) x) 1 2)"

/-- Read a text, and take some turns of the evaluation of its first datum. -/
def entering (ctx : Context) (text : String) (turns : Nat) (k : Heap) : Option Activation :=
  match HeapM.read (Scan.ofString text 0) k with
  | .ok (some reading) l =>
    if l.roots.size + 1 < l.rootSlots then (start 19 reading.datum l.currentEnv l).after ctx
      turns else none
  | _ => none

lemma undertakes_of_entering {turns : Nat} {last : Root} {k : Heap}
    (hacq : (acquire .emptyList h : Outcome Failure Root) = .ok last k)
    (he : entering ctx text turns k = some z) :
    ∃ a, Undertakes ctx 20 text h a ∧ Follows ctx a z := by
  unfold entering at he
  split at he
  · next reading l hread =>
    obtain ⟨hroom, hz⟩ := Option.ite_none_right_eq_some.mp he
    exact ⟨_, ⟨19, last, k, _, _, reading, k, l, hacq, .refl _ _ _, hread, hroom, rfl, rfl⟩,
      follows_of_after hz⟩
  · cases he

/-- Set up a machine, and enter both procedures.  The result tells about the frames then. -/
def visiting : HeapM Failure (Option (Handle × Handle × Handle) × Bool) := do
  let ctx ← install #[]
  let _ ← acquire .emptyList
  observe fun k => ((entering ctx defining 2 k).bind current,
    (entering ctx repeating 1 k).any repeats)

lemma visiting_eq : (visiting { Heap.ofSizing ⟨85, 12⟩ with audited := false }).value? =
    some (some (⟨89⟩, ⟨86⟩, ⟨87⟩), true) := by
  decide +kernel

/-- What the visits come to. -/
lemma exists_visits : ∃ ctx h last k z y,
    install #[] { Heap.ofSizing ⟨85, 12⟩ with audited := false } = .ok ctx h ∧
    (acquire .emptyList h : Outcome Failure Root) = .ok last k ∧
    entering ctx defining 2 k = some z ∧ z.current = some (⟨89⟩, ⟨86⟩, ⟨87⟩) ∧
    entering ctx repeating 1 k = some y ∧ y.repeats = true := by
  obtain ⟨m, hm⟩ := Outcome.value?_eq_some.mp visiting_eq
  obtain ⟨ctx, h, hi, hm⟩ := bind_eq_ok.mp hm
  obtain ⟨last, k, hacq, hm⟩ := bind_eq_ok.mp hm
  obtain ⟨hz, hy⟩ := Prod.mk.inj (Outcome.ok.inj hm).1
  obtain ⟨z, hz, hcur⟩ := Option.bind_eq_some_iff.mp hz
  obtain ⟨y, hy, hr⟩ := (Option.any_eq_true ..).mp hy
  exact ⟨ctx, h, last, k, z, y, hi, hacq, hz, hcur, hy, hr⟩

/-- The theorem for the frame of the first call, after its body has defined a variable. -/
theorem frames_pair_names_defining : ∃ ctx h a z,
    install #[] { Heap.ofSizing ⟨85, 12⟩ with audited := false } = .ok ctx h ∧
    NamesUnchanging ctx 20 defining h ∧ Undertakes ctx 20 defining h a ∧ Follows ctx a z ∧
    z.heap.Reachable [] z.heap.currentEnv ∧
    z.heap.object? z.heap.currentEnv = some (.frame (some ⟨89⟩) ⟨86⟩ ⟨87⟩) ∧
    ∃ added params vs, z.heap.Pairing ⟨86⟩ ⟨87⟩ added params vs := by
  obtain ⟨ctx, h, last, k, z, -, hi, hacq, hz, hcur, -⟩ := exists_visits
  have hnames : NamesUnchanging ctx 20 defining h := by
    unfold NamesUnchanging
    decide +kernel
  obtain ⟨a, ha, hf⟩ := undertakes_of_entering hacq hz
  have hd := object?_of_current hcur
  exact ⟨ctx, h, a, z, hi, hnames, ha, hf, .anchor .current, hd,
    frames_pair_names (.new hi) hnames ha hf (.anchor .current) hd⟩

/-- In the frame of the second call a name occurs twice. -/
theorem frames_repeat_names : ∃ ctx h a z parent names values,
    install #[] { Heap.ofSizing ⟨85, 12⟩ with audited := false } = .ok ctx h ∧
    Undertakes ctx 20 repeating h a ∧ Follows ctx a z ∧ z.heap.Reachable [] z.heap.currentEnv ∧
    z.heap.object? z.heap.currentEnv = some (.frame (some parent) names values) ∧
    ∀ l cells, z.heap.Row .emptyList l cells names → ¬ l.Nodup := by
  obtain ⟨ctx, h, last, k, -, y, hi, hacq, -, -, hy, hr⟩ := exists_visits
  obtain ⟨a, ha, hf⟩ := undertakes_of_entering hacq hy
  obtain ⟨parent, names, values, hcur, hnodup⟩ := not_nodup_of_repeats hr
  exact ⟨ctx, h, a, y, parent, names, values, hi, ha, hf, .anchor .current,
    object?_of_current hcur, hnodup⟩

end ArenaScheme
