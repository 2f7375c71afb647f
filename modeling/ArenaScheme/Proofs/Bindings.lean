/-
# Bindings cannot be reached through data

The frame of a call takes the list of the values of the operands as it is for its list of values,
and the list of parameters of the procedure for its list of names.  A program never gets hold of a
pair of the former.  So it cannot change a variable but by an assignment or a definition, and
neither changes variables of other frames than the one it is meant for.

A list of parameters is another matter, for a program may have built it itself.  If it replaces a
parameter there by `set-car!`, then the frames of earlier calls have another variable instead.  All
of their values remain in place, and every search of a frame comes to an end, even if the list of
names has been made circular.

All this holds as long as there has been no collection.
-/
import ArenaScheme.Proofs.Seclusion.Deeds

namespace ArenaScheme

open Heap HeapM

namespace Heap

/-- What can be got at from an object by taking heads and tails of pairs. -/
inductive Accesses (h : Heap) (v : Handle) : Handle → Prop
  | refl : Accesses h v v
  | head {u a b : Handle} (hu : Accesses h v u) (hp : h.object? u = some (.pair a b)) :
      Accesses h v a
  | tail {u a b : Handle} (hu : Accesses h v u) (hp : h.object? u = some (.pair a b)) :
      Accesses h v b

/-- No binding can be got at from the object. -/
def Innocent (h : Heap) (v : Handle) : Prop := ∀ u, h.Accesses v u → ∀ f, ¬ h.Binds f u

/-- Bindings cannot be reached through data. -/
structure Secluded (h : Heap) : Prop where
  /-- The values of every frame make up a finite proper list. -/
  listed : ∀ f p names values, h.object? f = some (.frame p names values) → ∃ s, h.Spine s values
  /-- No pair belongs to the lists of values of two frames. -/
  apart : ∀ f g c, h.Binds f c → h.Binds g c → f = g
  /-- Nothing that an evaluation holds leads to a binding. -/
  roots : ∀ (i : Nat) (v : Handle), h.roots[i]? = some v → h.Innocent v
  /-- Neither does what objects have been made of, but for the tail of a pair and the list of values
  of a frame. -/
  parts : ∀ v d, h.object? v = some d → ∀ c ∈ d.parts, h.Innocent c
  /-- The parents of every frame end with the base frame. -/
  chained : ∀ f, h.IsFrame f → h.Chained f
  /-- Every search of an environment comes to an end, and the interpreter finds what there is to be
  found. -/
  searches : ∀ env symbol, h.IsFrame env →
    ∃ found, h.Finds symbol env found ∧ h.nearestSlot env symbol = .ok (found.map (·.2))

variable {h : Heap} {V : Veil} {u v : Handle} {kw : Keywords}

/-- From drafts and from open objects one gets at drafts and open objects only. -/
lemma Accesses.open_or_draft (hs : h.Sealed V) (ht : V.Tidy h)
    (hv : h.Open V.cells v ∨ v ∈ V.cells) (hu : h.Accesses v u) :
    h.Open V.cells u ∨ u ∈ V.cells := by
  induction hu with
  | refl => exact hv
  | head _ hp _ => exact .inl (hs.open_part hp (by simp [Datum.parts]))
  | tail _ hp ih =>
    rcases ih with ho | hd
    · exact .inl (hs.open_tail ho hp)
    · rcases ht.tails _ hd _ _ hp with rfl | hb
      · exact .inl (hs.open_sentinel (by decide))
      · exact .inr hb

namespace Sealed

lemma innocent (hs : h.Sealed V) (ht : V.Tidy h) (hv : h.Open V.cells v ∨ v ∈ V.cells) :
    h.Innocent v := by
  intro u hu f hb
  rcases hu.open_or_draft hs ht hv with ho | hd
  · exact ho.not_hidden (.binding hb)
  · exact hs.undrafted f u hb hd

lemma secluded (hs : h.Sealed V) (ht : V.Tidy h) : h.Secluded where
  listed := hs.listed
  apart := hs.apart
  roots i v hv := by
    refine hs.innocent ht ?_
    by_cases hi : i ∈ V.slots
    · exact .inr (ht.slots i hi v hv)
    · exact .inl (hs.slots i v hv hi)
  parts v d hv c hc := hs.innocent ht (.inl (hs.open_part hv hc))
  chained := hs.chained
  searches env symbol henv := hs.exists_finds symbol henv

end Sealed

end Heap

variable {ctx : Context} {text : String} {h : Heap} {z : Activation}

/-- Bindings cannot be reached through data: let a text be run on a machine without procedures of
the host, let the run get to the activation `z`, and let there be no collection by then, or by the
time that is spoken of.  Then

* at the beginning of the turn bindings are secluded;
* so they are when the evaluation is over, and its value or error leads to no binding;
* a call of `set-car!` or `set-cdr!` leaves the list of values of every frame and the values
  themselves alone, and all the bindings of every frame unless the pair belongs to its list of
  names;
* a definition leaves the bindings of all frames alone but for the one in which it takes place;
* an assignment leaves the bindings of all frames alone but for the one in which the name is
  found. -/
theorem bindings_secluded (hm : Machine ctx h) (hz : Executes ctx text h z) :
    (z.heap.Unswept → z.heap.Secluded) ∧
    (∀ v k, (z.outcome ctx).Gives v k → k.Unswept → k.Secluded ∧ k.Innocent v) ∧
    (∀ b args k v l, z.Calls ctx b args k → b = .setCar ∨ b = .setCdr → (b.call args k).Gives v l →
      l.Unswept → ∀ f p names values, k.object? f = some (.frame p names values) →
        k.SameValues l f ∧
        ((∀ pair x, Builtin.arguments args k = .ok [pair, x] k → ¬ k.Along names pair) →
          k.SameBindings l f)) ∧
    (∀ env name v k u l, z.Defines ctx env name v k → (define env name v k).Gives u l → l.Unswept →
      ∀ f, k.IsFrame f → f ≠ env → k.SameBindings l f) ∧
    ∀ env name v k u l, z.Assigns ctx env name v k → (assign env name v k).Gives u l → l.Unswept →
      ∀ f, k.IsFrame f → (∀ slot, ¬ k.Finds name env (some (f, slot))) → k.SameBindings l f := by
  have hh := hm.ready.1
  have hsh := hz.sheltered hm
  refine ⟨fun hu => ?_, fun v k ho hu => ?_, fun b args k v l hc hb hg hu f p names values hf => ?_,
    fun env name v k u l hd hg hu f hf hne => ?_, fun env name v k u l hd hg hu f hf hne => ?_⟩
  · obtain ⟨V, hr, -⟩ := hsh
    exact (hr.seals hu).secluded (hr.tidy hu)
  · obtain ⟨V, hr, hv⟩ := hsh.outcome hh ho
    exact ⟨(hr.seals hu).secluded (hr.tidy hu), (hr.seals hu).innocent (hr.tidy hu) (.inl (hv hu))⟩
  · obtain ⟨V, hs⟩ := hc.seals hh hsh
    have hk : k.Sparing Set.univ l := .of_gives (Local.call hb fun _ _ _ _ _ _ => trivial) hg
    exact (hs (hk.unswept hu)).sameValues_of_call hb hg hu hf
  · obtain ⟨V, hs⟩ := hd.seals hh hsh
    have hk : k.Sparing Set.univ l :=
      .of_gives (Local.define env name v (fun _ _ => trivial) trivial) hg
    have hsl := hs (hk.unswept hu)
    exact hsl.sameBindings_of_define (hd.env_eq ▸ hsl.current) hg hu hf hne
  · obtain ⟨V, hs⟩ := hd.seals hh hsh
    have hk : k.Sparing Set.univ l := .of_gives (Local.assign env name v fun _ _ => trivial) hg
    have hsl := hs (hk.unswept hu)
    exact hsl.sameBindings_of_assign (hd.env_eq ▸ hsl.current) hg hu hf hne

/-! ## An example -/

open Interpreter

/-- Begin to run a text: read the first datum, and hold the frame and the datum for its
evaluation. -/
def commence (text : String) : HeapM Failure Handle := do
  let _ ← acquire .emptyList
  match ← mapError (HeapM.read (Scan.ofString text 0)) (·.failure) with
  | none => halt .unfinished
  | some reading =>
    let _ ← acquire (← currentEnv)
    let _ ← acquire reading.datum
    return reading.datum

/-- The symbols at the heads of special forms. -/
def Keywords.heads (kw : Keywords) : List Handle :=
  [kw.quote, kw.quasiquote, kw.conditional, kw.sequence, kw.clauses, kw.definition, kw.assignment,
    kw.conjunction, kw.disjunction, kw.binding, kw.lambda, kw.apply, kw.eval, kw.theEnvironment]

/-- Evaluate the parts of a combination until a built-in procedure is to be called. -/
def approach (ctx : Context) (budget : Nat) (expr : Handle) : HeapM Failure (Builtin × Handle) := do
  let (head, operands) ← pairParts expr
  if head ∈ ctx.keywords.heads then halt .unfinished
  else
    let call ← reporting
      (Application.evalCombination (Evaluator.nestedEval ctx budget) budget head operands)
    let (procedure, args) ← pairParts call
    match ← foreignParts procedure with
    | (_, .builtin b) =>
      let _ ← acquire call
      return (b, args)
    | _ => halt .unfinished

lemma ok_of_reporting {α : Type} {x : EvalM α} {a : α} {h k : Heap}
    (hx : reporting x h = .ok a k) : x h = .ok a k := by
  cases ho : x h with
  | ok b l =>
    simp only [reporting, ho] at hx
    obtain ⟨rfl, rfl⟩ := Outcome.ok.inj hx
    rfl
  | error e l =>
    simp only [reporting, ho] at hx
    obtain ⟨f, m, -, hf⟩ := bind_eq_ok.mp hx
    simp [HeapM.fail] at hf
  | halt c => simp [reporting, ho] at hx

lemma eq_of_acquire {ε : Type} {v : Handle} {root : Root} {h k : Heap}
    (ha : (acquire v : HeapM ε Root) h = .ok root k) :
    h.roots.size < h.rootSlots ∧ root = ⟨h.roots.size⟩ ∧
    k = { h with roots := h.roots.push v } := by
  rw [acquire] at ha
  split at ha
  · next hlt =>
    obtain ⟨rfl, rfl⟩ := Outcome.ok.inj ha
    exact ⟨hlt, rfl, rfl⟩
  · simp at ha

/-- The activation that a text begins with. -/
lemma executes_of_commence {expr : Handle} {k : Heap} (hc : commence text h = .ok expr k)
    (budget : Nat) : ∃ slot, Executes ctx text h ⟨budget, slot, .expr, k⟩ ∧
      k.roots[slot.slot]? = some expr := by
  obtain ⟨last, h₁, hacq, hc⟩ := bind_eq_ok.mp hc
  obtain ⟨o, l, hread, hc⟩ := bind_eq_ok.mp hc
  cases o with
  | none => simp [halt] at hc
  | some reading =>
    obtain ⟨env, l', henv, hc⟩ := bind_eq_ok.mp hc
    obtain ⟨rfl, rfl⟩ := Outcome.ok.inj henv
    obtain ⟨_, l₁, h1, hc⟩ := bind_eq_ok.mp hc
    obtain ⟨_, l₂, h2, hc⟩ := bind_eq_ok.mp hc
    obtain ⟨rfl, rfl⟩ := Outcome.ok.inj hc
    obtain ⟨-, rfl, rfl⟩ := eq_of_acquire h1
    obtain ⟨hroom, rfl, rfl⟩ := eq_of_acquire h2
    rw [Array.size_push] at hroom
    refine ⟨⟨l.roots.size + 1⟩, ⟨budget, last, h₁, _, _, reading, h₁, l, hacq, .refl _ _ _,
      mapError_eq_ok.mp hread, hroom, .refl _⟩, ?_⟩
    have hsize : l.roots.size + 1 = (l.roots.push l.currentEnv).size := (Array.size_push _).symm
    exact hsize ▸ Array.getElem?_push_size

lemma eq_of_expect {ε α : Type} {wanted : DatumType} {part : Datum → Option α} {v : Handle} {x : α}
    {h k : Heap} (hx : (expect wanted part v : HeapM ε α) h = .ok x k) :
    k = h ∧ ∃ d, h.read v = .ok d ∧ part d = some x := by
  simp only [expect, datum, bind_apply, inspect] at hx
  cases hd : h.read v with
  | error c => simp [hd] at hx
  | ok d =>
    simp only [hd] at hx
    cases hp : part d with
    | none => simp [hp, halt] at hx
    | some y =>
      rw [hp] at hx
      obtain ⟨rfl, rfl⟩ := Outcome.ok.inj hx
      exact ⟨rfl, d, rfl, hp⟩

lemma object?_of_pairParts {ε : Type} {v a b : Handle} {h k : Heap}
    (hp : (pairParts v : HeapM ε (Handle × Handle)) h = .ok (a, b) k) :
    k = h ∧ h.object? v = some (.pair a b) := by
  obtain ⟨rfl, d, hd, hp⟩ := eq_of_expect hp
  cases d with
  | pair x y =>
    obtain ⟨rfl, rfl⟩ := Prod.mk.inj (Option.some.inj hp)
    exact ⟨rfl, object?_eq_some.mpr ⟨cells_of_read hd, rfl⟩⟩
  | _ => simp [Datum.pair?] at hp

lemma object?_of_foreignParts {ε : Type} {v : Handle} {name : String} {code : Native} {h k : Heap}
    (hp : (foreignParts v : HeapM ε (String × Native)) h = .ok (name, code) k) :
    k = h ∧ h.object? v = some (.foreign name code) := by
  obtain ⟨rfl, d, hd, hp⟩ := eq_of_expect hp
  cases d with
  | foreign n c =>
    obtain ⟨rfl, rfl⟩ := Prod.mk.inj (Option.some.inj hp)
    exact ⟨rfl, object?_eq_some.mpr ⟨cells_of_read hd, rfl⟩⟩
  | _ => simp [Datum.foreign?] at hp

/-- An activation that approaches a call calls. -/
lemma calls_of_approach {a : Activation} {expr args : Handle} {b : Builtin} {k : Heap}
    (hf : a.focus = .expr) (he : a.heap.roots[a.slot.slot]? = some expr)
    (hc : approach ctx a.budget expr a.heap = .ok (b, args) k) : a.Calls ctx b args k := by
  obtain ⟨⟨head, operands⟩, k₁, hparts, h1⟩ := bind_eq_ok.mp hc
  obtain ⟨rfl, hpair⟩ := object?_of_pairParts hparts
  by_cases hm : head ∈ ctx.keywords.heads
  · simp [hm, halt] at h1
  simp only [if_neg hm] at h1
  obtain ⟨call, k₂, hcall, h2⟩ := bind_eq_ok.mp h1
  obtain ⟨⟨procedure, args'⟩, k₃, hparts, h3⟩ := bind_eq_ok.mp h2
  obtain ⟨rfl, hp⟩ := object?_of_pairParts hparts
  obtain ⟨⟨name, code⟩, k₄, hforeign, h4⟩ := bind_eq_ok.mp h3
  obtain ⟨rfl, hcode⟩ := object?_of_foreignParts hforeign
  cases code with
  | host slot => simp [halt] at h4
  | builtin b' =>
    obtain ⟨_, k₅, hacq, h5⟩ := bind_eq_ok.mp h4
    obtain ⟨hb, rfl⟩ := Outcome.ok.inj h5
    obtain ⟨rfl, rfl⟩ := Prod.mk.inj hb
    obtain ⟨-, -, rfl⟩ := eq_of_acquire hacq
    refine .combination ⟨hf, ⟨expr, he, hpair⟩, fun nested budget => ?_⟩
      (ok_of_reporting hcall) hp hcode
    simp only [Keywords.heads, List.mem_cons, List.not_mem_nil, or_false, not_or] at hm
    simp [Step.ofPair, hm]

/-- A list of parameters `p`, and the frame of a call of a procedure with these parameters. -/
def sharing : String :=
  "(define p (list 'x)) ((eval (list 'lambda p '(the-environment)) #f) 1)"

/-- Set up a machine, run `sharing`, and replace the parameter.  The result tells what the frame
binds it to before that and after that, which procedure has been called, and whether there has been
a collection. -/
def rebinding : HeapM Failure (Option Datum × Option Handle × Builtin × Nat × Nat) := do
  let ctx ← install #[]
  let e ← run ctx 20 sharing
  let x ← run ctx 20 "'x"
  let expr ← commence "(set-car! p 'y)"
  let collections ← observe (·.collections)
  let (b, args) ← approach ctx 20 expr
  let before ← observe fun k => (k.bound? e x).bind k.object?
  let _ ← reporting (b.call args)
  return (before, ← observe (·.bound? e x), b, collections, ← observe (·.collections))

lemma rebinding_eq : (rebinding { Heap.ofSizing ⟨110, 16⟩ with audited := false }).value? =
    some (some (.int 1), none, .setCar, 0, 0) := by
  decide +kernel

/-- What happens when the parameter is replaced. -/
lemma exists_rebinding : ∃ ctx h₀ h₁ h e x z args k v l,
    install #[] { Heap.ofSizing ⟨110, 16⟩ with audited := false } = .ok ctx h₀ ∧
    run ctx 20 sharing h₀ = .ok e h₁ ∧ run ctx 20 "'x" h₁ = .ok x h ∧
    Executes ctx "(set-car! p 'y)" h z ∧ z.heap.Unswept ∧ z.Calls ctx .setCar args k ∧
    Builtin.setCar.call args k = .ok v l ∧ l.Unswept ∧
    (k.bound? e x).bind k.object? = some (.int 1) ∧ l.bound? e x = none := by
  obtain ⟨m, hm⟩ := Outcome.value?_eq_some.mp rebinding_eq
  obtain ⟨ctx, h₀, hi, hm⟩ := bind_eq_ok.mp hm
  obtain ⟨e, h₁, hr, hm⟩ := bind_eq_ok.mp hm
  obtain ⟨x, h, hx, hm⟩ := bind_eq_ok.mp hm
  obtain ⟨expr, h₂, hc, hm⟩ := bind_eq_ok.mp hm
  obtain ⟨slot, hz, hslot⟩ := executes_of_commence hc 20
  rw [observe_bind] at hm
  obtain ⟨⟨b, args⟩, k, ha, hm⟩ := bind_eq_ok.mp hm
  dsimp only at hm
  rw [observe_bind] at hm
  obtain ⟨v, l, hv, hm⟩ := bind_eq_ok.mp hm
  rw [observe_bind, observe_bind] at hm
  have hm := (Outcome.ok.inj hm).1
  simp only [Prod.mk.injEq] at hm
  obtain ⟨hbefore, hafter, rfl, hcol, hcol'⟩ := hm
  exact ⟨ctx, h₀, h₁, h, e, x, _, args, k, v, l, hi, hr, hx, hz, hcol,
    calls_of_approach rfl hslot ha, ok_of_reporting hv, hcol', hbefore, hafter⟩

/-- The theorem for the run in which the parameter is replaced: bindings are secluded when that is
about to be evaluated, and replacing it leaves the values of all frames alone. -/
theorem bindings_secluded_sharing : ∃ ctx h z args k v l, Machine ctx h ∧
    Executes ctx "(set-car! p 'y)" h z ∧ z.heap.Unswept ∧ z.heap.Secluded ∧
    z.Calls ctx .setCar args k ∧ Builtin.setCar.call args k = .ok v l ∧ l.Unswept ∧
    ∀ f, k.IsFrame f → k.SameValues l f := by
  obtain ⟨ctx, h₀, h₁, h, e, x, z, args, k, v, l, hi, hr, hx, hz, hu, hc, hv, hl, -⟩ :=
    exists_rebinding
  have hm : Machine ctx h := .returned (.returned (.new hi) hr) hx
  obtain ⟨hsecluded, -, hcalls, -⟩ := bindings_secluded hm hz
  refine ⟨ctx, h, z, args, k, v, l, hm, hz, hu, hsecluded hu, hc, hv, hl, ?_⟩
  rintro f ⟨p, names, values, hf⟩
  exact (hcalls .setCar args k v l hc (.inl rfl) (.inl hv) hl f p names values hf).1

/-- `set-car!` can change what a variable is bound to: the frame of the call binds `x` to 1 before
the parameter is replaced, and does not bind it after that. -/
theorem parameter_rebound : ∃ ctx h₀ h₁ h e x z args k v l,
    install #[] { Heap.ofSizing ⟨110, 16⟩ with audited := false } = .ok ctx h₀ ∧
    run ctx 20 "(define p (list 'x)) ((eval (list 'lambda p '(the-environment)) #f) 1)" h₀ =
      .ok e h₁ ∧
    run ctx 20 "'x" h₁ = .ok x h ∧ Executes ctx "(set-car! p 'y)" h z ∧
    z.Calls ctx .setCar args k ∧ Builtin.setCar.call args k = .ok v l ∧ l.Unswept ∧
    (k.bound? e x).bind k.object? = some (.int 1) ∧ l.bound? e x = none := by
  obtain ⟨ctx, h₀, h₁, h, e, x, z, args, k, v, l, hi, hr, hx, hz, -, hc, hv, hl, hbefore, hafter⟩ :=
    exists_rebinding
  exact ⟨ctx, h₀, h₁, h, e, x, z, args, k, v, l, hi, hr, hx, hz, hc, hv, hl, hbefore, hafter⟩

end ArenaScheme
