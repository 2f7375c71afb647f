/-
# Collections cannot be observed

A text is run on two new machines that differ in the sizes of their heaps, so that they collect at
different times, or one of them not at all, and use their cells over again in different ways.  If
neither run is stopped by the bounds of its machine, both come to the same end: they fail with the
same failure, or they return values with the same printed form.  No program can tell the machines
apart, not even by comparing objects for identity.

The text must not name the procedures that change pairs.  A program that changes its own expressions
while they are being evaluated may drop the parts that are to be evaluated later, and then a
collection takes them away.  Nor must it ask for a collection, which reports how much it has freed.
-/
import ArenaScheme.Proofs.Twin.Printing
import ArenaScheme.Proofs.Twin.Texts

namespace ArenaScheme

open HeapM Interpreter

/-! ## What is compared -/

/-- A run has not been stopped by the bounds of its machine. -/
inductive Outcome.Unhindered {α : Type} : Outcome Failure α → Prop
  | ok {a : α} {h : Heap} : Unhindered (.ok a h)
  | error {e : Failure} {h : Heap} (he : e ≠ .outOfMemory) : Unhindered (.error e h)
  | halt {c : Halt} (hc : ¬ c.Limit) : Unhindered (.halt c)

/-- Two runs have come to ends that look the same. -/
inductive Outcome.Alike : Outcome Failure Handle → Outcome Failure Handle → Prop
  | value {v v' : Handle} {h h' : Heap} {text : String} (hv : h.print v = .ok text)
      (hv' : h'.print v' = .ok text) : Alike (.ok v h) (.ok v' h')
  | failure {failure : Failure} {h h' : Heap} : Alike (.error failure h) (.error failure h')

/-- A name that neither changes pairs nor asks for a collection. -/
def Harmless (name : String) : Prop := name ≠ "set-car!" ∧ name ≠ "set-cdr!" ∧ name ≠ "gc"

instance (name : String) : Decidable (Harmless name) := inferInstanceAs (Decidable (_ ∧ _))

/-- Different runs of programs that use harmless names only. -/
def Regime.harmless : Regime where
  names := Harmless
  natives
    | .builtin b => Harmless b.name
    | .host _ => False
  same := False
  rewriting := False
  vocabulary _ h1 h2 h3 := ⟨h1, h2, h3⟩
  builtin _ := Iff.rfl
  host _ := id
  collects h := absurd rfl h.2.2
  rewrites h := h.elim (fun h => h.1 rfl) fun h => h.2.1 rfl

namespace Twin

variable {ε α α' : Type} [Fault ε] {W : Regime} {σ : Twin} {R : Twin → Twin → Prop}
  {x : HeapM ε α} {y : HeapM ε α'} {Q : α → α' → Twin → Prop}

/-- The twin that is left when two actions in step have both returned. -/
lemma Runs.returned (hr : Runs W R x y σ Q) {a : α} {b : α'} {h k : Heap}
    (hx : x σ.left = .ok a h) (hy : y σ.right = .ok b k) :
    ∃ τ : Twin, τ.left = h ∧ τ.right = k ∧ τ.Valid W ∧ R σ τ ∧ Q a b τ := by
  rw [Runs, hx, hy] at hr
  cases hr with
  | ok hq => exact hq
  | left _ ho => cases ho
  | right _ ho => cases ho

/-- The ends of actions in step that have not been stopped by the bounds of their machines. -/
lemma Runs.alike {x y : HeapM Failure Handle}
    (hr : Runs W R x y σ fun v v' τ => τ.rel .shown v v') (hx : (x σ.left).Unhindered)
    (hy : (y σ.right).Unhindered) : (x σ.left).Alike (y σ.right) := by
  unfold Runs at hr
  revert hr hx hy
  generalize x σ.left = o
  generalize y σ.right = o'
  intro hr hx hy
  have hover : ∀ {P : Heap → Prop} {o : Outcome Failure Handle}, o.Over P → ¬ o.Unhindered := by
    rintro P _ (⟨hc⟩ | ⟨rfl, -⟩) (_ | he | hn)
    · exact hn hc
    · exact he rfl
  cases hr with
  | ok hq =>
    obtain ⟨τ, rfl, rfl, hv, -, hq⟩ := hq
    obtain ⟨text, h1, h2⟩ := print_eq hv hq
    exact .value h1 h2
  | error he =>
    obtain ⟨-, -, -, -, -, rfl⟩ := he
    exact .failure
  | halt hc => exact absurd hx (hover (P := fun _ => True) (.halt hc))
  | left _ ho => exact absurd hx (hover ho)
  | right _ ho => exact absurd hy (hover ho)

end Twin

/-! ## Different machines -/

/-- A harmless text has the same outcome on all new machines whose bounds it does not meet. -/
theorem collections_unobservable {s s' : Sizing} {audited : Bool} {ctx ctx' : Context} {h h' : Heap}
    {budget budget' : Nat} {text : String} (ht : (Scan.ofString text 0).Within Harmless)
    (hi : install #[] { Heap.ofSizing s with audited } = .ok ctx h)
    (hi' : install #[] { Heap.ofSizing s' with audited } = .ok ctx' h')
    (hr : (run ctx budget text h).Unhindered) (hr' : (run ctx' budget' text h').Unhindered) :
    (run ctx budget text h).Alike (run ctx' budget' text h') := by
  have hfresh : (Twin.fresh s s' audited).Valid .harmless := Twin.valid_fresh False.elim
  obtain ⟨σ, rfl, rfl, hv, -, hwords⟩ :=
    (Twin.Runs.install (m := 0) hfresh (Nat.zero_le _) #[] #[]).returned hi hi'
  exact (Twin.Runs.run (m := 0) id False.elim
    ⟨hv, Twin.active_noSlot σ, Twin.Motion.refl _ σ, hwords⟩ ht
    (Nat.zero_le _)).alike hr hr'

/-- Set up a machine, run a text on it, and count the collections. -/
def countCollections (text : String) : HeapM Failure Nat := do
  let ctx ← install #[]
  let _ ← run ctx 10 text
  observe (·.collections)

/-- What it takes to count the collections. -/
lemma run_of_countCollections {text : String} {h : Heap} {n : Nat}
    (hn : (countCollections text h).value? = some n) :
    ∃ ctx h', install #[] h = .ok ctx h' ∧ ∃ v k, run ctx 10 text h' = .ok v k ∧
      k.collections = n := by
  obtain ⟨k, hk⟩ := Outcome.value?_eq_some.mp hn
  obtain ⟨ctx, h', hi, hk⟩ := bind_eq_ok.mp hk
  obtain ⟨v, k', hr, hk⟩ := bind_eq_ok.mp hk
  exact ⟨ctx, h', hi, v, k', hr, (Outcome.ok.inj hk).1⟩

/-- A program that asks whether two new lists are the same. -/
def sameLists : String := "(eq? (list 1) (list 1))"

lemma countCollections_tight :
    (countCollections sameLists { Heap.ofSizing ⟨78, 16⟩ with audited := false }).value? =
      some 1 := by
  decide +kernel

lemma countCollections_roomy :
    (countCollections sameLists { Heap.ofSizing ⟨80, 16⟩ with audited := false }).value? =
      some 0 := by
  decide +kernel

/-- The answer is the same with a collection and without one. -/
theorem collections_unobservable_eq : ∃ ctx h v k ctx' h' v' k',
    install #[] { Heap.ofSizing ⟨78, 16⟩ with audited := false } = .ok ctx h ∧
    install #[] { Heap.ofSizing ⟨80, 16⟩ with audited := false } = .ok ctx' h' ∧
    run ctx 10 sameLists h = .ok v k ∧ k.collections = 1 ∧
    run ctx' 10 sameLists h' = .ok v' k' ∧ k'.collections = 0 ∧
    (run ctx 10 sameLists h).Alike (run ctx' 10 sameLists h') := by
  obtain ⟨ctx, h, hi, v, k, hr, hk⟩ := run_of_countCollections countCollections_tight
  obtain ⟨ctx', h', hi', v', k', hr', hk'⟩ := run_of_countCollections countCollections_roomy
  have ht : (Scan.ofString sameLists 0).Within Harmless := by decide +kernel
  have hu : (run ctx 10 sameLists h).Unhindered := by
    rw [hr]
    exact .ok
  have hu' : (run ctx' 10 sameLists h').Unhindered := by
    rw [hr']
    exact .ok
  exact ⟨ctx, h, v, k, ctx', h', v', k', hi, hi', hr, hk, hr', hk',
    collections_unobservable ht hi hi' hu hu'⟩

end ArenaScheme
