/-
# Machines whose suspended expressions are left intact

A machine is *considerate* if it has been set up and has only run texts that leave suspended
expressions intact.  The objects on its heap fit together.

A turn works on the expression in its slot, and has parts of it evaluated one after the other.  It
fetches the handles of these parts from the pairs that lead to them, often long before it comes to
them.  On a considerate machine this is sound.  When a part is evaluated, its handle is one of those
that the expression has led to since the beginning of the turn; it still leads there, so that no
collection has taken the part away; and nothing on the way has changed.  And while the machine runs
such a text, it comes to no fatal halt but those at its bounds.

Texts that do not name the procedures that change pairs are among these texts.
-/
import ArenaScheme.Proofs.Suspension.Guards

namespace ArenaScheme

open Heap HeapM Evaluator Interpreter Activation
open Twin (noSlot)

variable {ctx : Context} {h : Heap} {text : String} {z : Activation} {budget : Nat} {W : Regime}
  {σ : Twin} {A B : Nat → Prop} {sites : Set Site} {site : Site}

/-! ## What a turn works on -/

/-- The heap `k` has the parts of what a slot holds in `h`, as they are there, and objects of the
same types at their places. -/
structure Heap.Outlasts (slot : Root) (h k : Heap) : Prop where
  upholds : h.Upholds (· = slot.slot) k
  types : ∀ v, h.Part (· = slot.slot) v → k.typeAt v = h.typeAt v

/-- What is evaluated at a site is a part of what a slot has held since the heap was `h`. -/
structure Site.Serves (site : Site) (slot : Root) (h : Heap) : Prop where
  live : site.heap.isLive site.expr = true
  fetched : h.Part (· = slot.slot) site.expr
  held : site.heap.Part (· = slot.slot) site.expr
  outlasts : h.Outlasts slot site.heap

namespace Twin

/-- What a turn has evaluated has been part of its expression all along. -/
lemma Begins.serves (hb : σ.Begins W ctx noSlot z) (hs : W.same) (hsv : z.Served W ctx noSlot)
    (hq : z.Asks ctx sites site) : site.Serves z.slot z.heap := by
  obtain ⟨τ, hl, hr, he⟩ := hb.asks hs hsv hq
  have hslot : also noSlot z.slot.slot = (· = z.slot.slot) :=
    funext fun i => propext ⟨fun h => h.resolve_left id, .inr⟩
  have hpart := he.2
  have hsince := hr.since
  rw [hslot] at hpart hsince
  obtain ⟨expr, heap⟩ := site
  obtain rfl : τ.left = heap := hl
  rw [← hb.left]
  exact ⟨hr.valid.isLive_left he.1, hsince.part_iff.mp hpart, hpart, fun _ => hsince.part,
    fun _ hv => hsince.type (.part hv)⟩

/-- What a turn works on is there. -/
lemma Begins.isLive (hb : σ.Begins W ctx B z) :
    ∃ expr, z.heap.roots[z.slot.slot]? = some expr ∧ z.heap.isLive expr = true := by
  obtain ⟨expr, expr', hslot, -, hr⟩ := hb.slot
  rw [← hb.left]
  exact ⟨expr, hslot, hb.ready.valid.isLive_left hr⟩

lemma Begins.mono (hb : σ.Begins W ctx B z) (hA : ∀ i, A i → B i) : σ.Begins W ctx A z :=
  ⟨hb.left, ⟨hb.ready.valid, fun i hi => hb.ready.active i (hA i hi), Motion.refl _ σ,
    hb.ready.words⟩, hb.slot, fun h => hb.fresh (hA _ h)⟩

end Twin

/-! ## Machines -/

/-- A machine without procedures of the host that has been set up and has run some texts as stated,
each of which has come to a value or to a failure. -/
inductive RanOnly (P : Context → Nat → String → Heap → Prop) (ctx : Context) : Heap → Prop
  | new {s : Sizing} {audited : Bool} {h : Heap}
      (hi : install #[] { Heap.ofSizing s with audited } = .ok ctx h) : RanOnly P ctx h
  | returned {budget : Nat} {text : String} {v : Handle} {h k : Heap} (hm : RanOnly P ctx h)
      (ht : P ctx budget text h) (hr : Interpreter.run ctx budget text h = .ok v k) :
      RanOnly P ctx k
  | failed {budget : Nat} {text : String} {f : Failure} {h k : Heap} (hm : RanOnly P ctx h)
      (ht : P ctx budget text h) (hr : Interpreter.run ctx budget text h = .error f k) :
      RanOnly P ctx k

/-- What is known of a machine, if the texts that it runs come to an end that is known. -/
lemma RanOnly.ready_of {P : Context → Nat → String → Heap → Prop} (hs : W.same)
    (hends : ∀ budget text (σ : Twin), Twin.Ready W noSlot ctx.keywords ctx.keywords σ σ →
      P ctx budget text σ.left →
      Twin.Ends W (Twin.Evolves 0 noSlot) σ (fun v v' τ => τ.rel .shown v v')
        (Interpreter.run ctx budget text σ.left)) (hm : RanOnly P ctx h) :
    ∃ σ : Twin, σ.left = h ∧ Twin.Ready W noSlot ctx.keywords ctx.keywords σ σ := by
  induction hm with
  | new hi => exact Twin.ready_of_install hs hi
  | @returned budget text v h k _ ht hr ih =>
    obtain ⟨σ, rfl, hσ⟩ := ih
    have hrun := hends budget text σ hσ ht
    rw [hr] at hrun
    obtain @⟨_, τ, hv, he, -⟩ := hrun
    exact ⟨τ, rfl, (hσ.lasts he.1 hv).anew⟩
  | @failed budget text f h k _ ht hr ih =>
    obtain ⟨σ, rfl, hσ⟩ := ih
    have hrun := hends budget text σ hσ ht
    rw [hr] at hrun
    cases hrun with
    | error hv he _ => exact ⟨_, rfl, (hσ.lasts he.1 hv).anew⟩

/-- One and the same run of any program. -/
def Regime.single : Regime where
  names _ := True
  natives
    | .builtin _ => True
    | .host _ => False
  same := True
  rewriting := True
  vocabulary _ _ _ _ := trivial
  builtin _ := Iff.rfl
  host _ := id
  collects _ := trivial
  rewrites _ := trivial

/-- A machine whose objects fit together. -/
lemma RanOnly.ready (hm : RanOnly LeavesIntact ctx h) :
    ∃ σ : Twin, σ.left = h ∧ Twin.Ready .single noSlot ctx.keywords ctx.keywords σ σ :=
  hm.ready_of trivial fun _ _ _ hσ ht => Twin.ends_run trivial hσ (fun _ _ => trivial) ht

/-! ## Texts that change no pair -/

/-- A name that is not of the procedures that change pairs. -/
def Unchanging (name : String) : Prop := name ≠ "set-car!" ∧ name ≠ "set-cdr!"

instance (name : String) : Decidable (Unchanging name) := inferInstanceAs (Decidable (_ ∧ _))

/-- One and the same run of a program that changes no pair. -/
def Regime.unchanging : Regime where
  names := Unchanging
  natives
    | .builtin b => Unchanging b.name
    | .host _ => False
  same := True
  rewriting := False
  vocabulary _ h1 h2 _ := ⟨h1, h2⟩
  builtin _ := Iff.rfl
  host _ := id
  collects _ := trivial
  rewrites h := h.elim (fun h => h.1 rfl) fun h => h.2 rfl

/-- A text that does not name the procedures that change pairs. -/
def NamesUnchanging (_ : Context) (_ : Nat) (text : String) (_ : Heap) : Prop :=
  (Scan.ofString text 0).Within Unchanging

lemma RanOnly.ready_unchanging (hm : RanOnly NamesUnchanging ctx h) :
    ∃ σ : Twin, σ.left = h ∧ Twin.Ready .unchanging noSlot ctx.keywords ctx.keywords σ σ :=
  hm.ready_of trivial fun _ _ _ hσ ht =>
    (Twin.Runs.run id (fun _ => rfl) hσ ht (Nat.zero_le _)).ends hσ.valid trivial

/-- A program that does not name the procedures that change pairs leaves suspended expressions
intact, whatever else it does. -/
theorem leavesIntact_of_unchanging (hm : RanOnly NamesUnchanging ctx h)
    (ht : NamesUnchanging ctx budget text h) : LeavesIntact ctx budget text h := by
  obtain ⟨σ, rfl, hσ⟩ := hm.ready_unchanging
  intro a ha
  obtain ⟨τ, hτ⟩ := Twin.begins_of_undertakes trivial hσ ht
    (fun a τ _ hb => intact_of_begins hb trivial id) ha
  exact intact_of_begins hτ trivial id

theorem RanOnly.of_unchanging (hm : RanOnly NamesUnchanging ctx h) :
    RanOnly LeavesIntact ctx h := by
  induction hm with
  | new hi => exact .new hi
  | returned hm ht hr ih => exact .returned ih (leavesIntact_of_unchanging hm ht) hr
  | failed hm ht hr ih => exact .failed ih (leavesIntact_of_unchanging hm ht) hr

/-! ## Considerate machines -/

/-- While a machine has only run texts that leave suspended expressions intact, and runs such a
text, there are no fatal halts but those at the bounds of the root stack and of the budget. -/
theorem halts_at_bounds (hm : RanOnly LeavesIntact ctx h) (ht : LeavesIntact ctx budget text h)
    {c : Halt} (hr : Interpreter.run ctx budget text h = .halt c) :
    (∃ slots, c = .rootOverflow slots) ∨ c = .unfinished := by
  obtain ⟨σ, rfl, hσ⟩ := hm.ready
  have hends := Twin.ends_run trivial hσ (fun _ _ => trivial) ht
  rw [hr] at hends
  cases hends with
  | halt hc =>
    cases c with
    | rootOverflow slots => exact .inl ⟨slots, rfl⟩
    | unfinished => exact .inr rfl
    | _ => exact hc.elim

/-- While a machine has only run texts that leave suspended expressions intact, and runs such a
text, no cell has been reclaimed that it works on: neither the expression of any turn, nor a part
that the turn asks to have evaluated, nor the value in the end. -/
theorem expressions_outlast_turns (hm : RanOnly LeavesIntact ctx h)
    (ht : LeavesIntact ctx budget text h) :
    (∀ a z, Undertakes ctx budget text h a → Follows ctx a z →
      (∃ expr, z.heap.roots[z.slot.slot]? = some expr ∧ z.heap.isLive expr = true) ∧
      ∀ sites site, z.Asks ctx sites site → site.Serves z.slot z.heap) ∧
    ∀ v k, Interpreter.run ctx budget text h = .ok v k → k.isLive v = true := by
  obtain ⟨σ, rfl, hσ⟩ := hm.ready
  refine ⟨fun a z ha hz => ?_, fun v k hr => ?_⟩
  · obtain ⟨B, hz⟩ := hz.getsTo noSlot
    obtain ⟨τ, hτ⟩ := Twin.begins_of_undertakes trivial hσ (fun _ _ => trivial)
      (fun a _ ha _ => ht a ha) ha
    obtain ⟨υ, hυ⟩ := (ht a ha).begins trivial hτ hz
    have hown : z.Served .single ctx noSlot :=
      (((ht a ha).getsTo hz).mono fun _ h => h.elim).served trivial
    exact ⟨hυ.isLive, fun sites site hq => (hυ.mono fun _ h => h.elim).serves trivial hown hq⟩
  · have hends := Twin.ends_run trivial hσ (fun _ _ => trivial) ht
    rw [hr] at hends
    obtain @⟨_, τ, hv, -, hx⟩ := hends
    exact hv.isLive_left hx

/-! ## A machine that changes pairs and collects garbage -/

/-- A text that cuts a list and collects what is left of it, at the same time. -/
def cutting : String := "(set-cdr! '(1) (gc))"

/-- A text with calls within calls. -/
def nesting : String := "(list (list (list 1)))"

/-- Set up a machine, and run both texts on it, under guard first.  The result tells how the guarded
runs halt, how many collections there have been in between, and how the last run halts. -/
def rehearsal : HeapM Failure (Option Halt × Nat × Option Halt × Option Halt) := do
  let ctx ← install #[]
  let guarded ← observe fun h => (guardedRun ctx 20 cutting h).halt?
  let _ ← run ctx 20 cutting
  let collections ← observe (·.collections)
  let guarded' ← observe fun h => (guardedRun ctx 20 nesting h).halt?
  let halted ← observe fun h => (run ctx 20 nesting h).halt?
  return (guarded, collections, guarded', halted)

lemma rehearsal_eq : (rehearsal { Heap.ofSizing ⟨80, 9⟩ with audited := false }).value? =
    some (none, 1, some (.rootOverflow 9), some (.rootOverflow 9)) := by
  decide +kernel

/-- What happens on that machine. -/
lemma exists_rehearsal : ∃ ctx h v k,
    install #[] { Heap.ofSizing ⟨80, 9⟩ with audited := false } = .ok ctx h ∧
    LeavesIntact ctx 20 cutting h ∧ run ctx 20 cutting h = .ok v k ∧ k.collections = 1 ∧
    LeavesIntact ctx 20 nesting k ∧ run ctx 20 nesting k = .halt (.rootOverflow 9) := by
  obtain ⟨m, hm⟩ := Outcome.value?_eq_some.mp rehearsal_eq
  obtain ⟨ctx, h, hi, hm⟩ := bind_eq_ok.mp hm
  rw [observe_bind] at hm
  obtain ⟨v, k, hr, hm⟩ := bind_eq_ok.mp hm
  rw [observe_bind, observe_bind, observe_bind] at hm
  have hm := (Outcome.ok.inj hm).1
  simp only [Prod.mk.injEq] at hm
  obtain ⟨hg, hcol, hg', hhalt⟩ := hm
  refine ⟨ctx, h, v, k, hi, leavesIntact_of_guardedRun fun he => ?_, hr, hcol,
    leavesIntact_of_guardedRun fun he => ?_, Outcome.halt?_eq_some.mp hhalt⟩
  · simp [he, Outcome.halt?] at hg
  · simp [he, Outcome.halt?, alarm] at hg'

/-- The theorem on halts for a machine with nine root slots, which has changed a pair and collected
garbage before it runs out of slots. -/
theorem halts_at_bounds_nesting : ∃ ctx h v k,
    install #[] { Heap.ofSizing ⟨80, 9⟩ with audited := false } = .ok ctx h ∧
    LeavesIntact ctx 20 cutting h ∧ run ctx 20 cutting h = .ok v k ∧ k.collections = 1 ∧
    LeavesIntact ctx 20 nesting k ∧ run ctx 20 nesting k = .halt (.rootOverflow 9) ∧
    ((∃ slots, Halt.rootOverflow 9 = .rootOverflow slots) ∨ Halt.rootOverflow 9 = .unfinished) := by
  obtain ⟨ctx, h, v, k, hi, hc, hr, hcol, hn, hhalt⟩ := exists_rehearsal
  exact ⟨ctx, h, v, k, hi, hc, hr, hcol, hn, hhalt,
    halts_at_bounds (.returned (.new hi) hc hr) hn hhalt⟩

/-- The theorem on expressions for the text that changes a pair and collects garbage. -/
theorem expressions_outlast_turns_cutting : ∃ ctx h v k,
    install #[] { Heap.ofSizing ⟨80, 9⟩ with audited := false } = .ok ctx h ∧
    LeavesIntact ctx 20 cutting h ∧ run ctx 20 cutting h = .ok v k ∧ k.collections = 1 ∧
    k.isLive v = true ∧ ∀ a z, Undertakes ctx 20 cutting h a → Follows ctx a z →
      ∀ sites site, z.Asks ctx sites site → site.Serves z.slot z.heap := by
  obtain ⟨ctx, h, v, k, hi, hc, hr, hcol, -, -⟩ := exists_rehearsal
  obtain ⟨hturns, hlive⟩ := expressions_outlast_turns (.new hi) hc
  exact ⟨ctx, h, v, k, hi, hc, hr, hcol, hlive v k hr, fun a z ha hz => (hturns a z ha hz).2⟩

end ArenaScheme
