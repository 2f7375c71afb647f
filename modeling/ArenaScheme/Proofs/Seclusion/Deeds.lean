/-
# What turns do to variables and to pairs

A turn on a combination of a built-in procedure comes to calling the procedure, a turn on a
definition to binding a name in the current frame, and a turn on an assignment to replacing what a
name is bound to.  Here is on which heaps and with which objects the turns of a program do so.  The
invariant holds there, so it tells what `set-car!`, `set-cdr!`, definitions and assignments may
change: no bindings but those that are meant.
-/
import ArenaScheme.Proofs.Seclusion.Activations
import ArenaScheme.Proofs.Seclusion.Locality

namespace ArenaScheme

open Heap HeapM

/-- An evaluation comes to an object, which is its value or its error. -/
def Outcome.Gives (o : Outcome Handle Handle) (v : Handle) (k : Heap) : Prop :=
  o = .ok v k ∨ o = .error v k

namespace Activation

/-- The turn is on a pair, which it deals with in the way of `form`. -/
structure Takes (ctx : Context) (a : Activation) (head operands : Handle)
    (form : Nested → Nat → EvalM Step) : Prop where
  focus : a.focus = .expr
  expr : ∃ v, a.heap.roots[a.slot.slot]? = some v ∧ a.heap.object? v = some (.pair head operands)
  form : ∀ nested budget, Step.ofPair ctx nested budget head operands = form nested budget

/-- The turn is on a combination and comes to calling a built-in procedure. -/
inductive Calls (ctx : Context) (a : Activation) : Builtin → Handle → Heap → Prop
  | combination {head operands call procedure args : Handle} {name : String}
      {b : Builtin} {k : Heap}
      (ht : a.Takes ctx head operands fun nested budget =>
        Application.ofCombination ctx.host nested budget head operands)
      (hc : Application.evalCombination (a.evaluator ctx) a.budget head operands
        a.heap = .ok call k)
      (hp : k.object? call = some (.pair procedure args))
      (hb : k.object? procedure = some (.foreign name (.builtin b))) :
      Calls ctx a b args { k with roots := k.roots.push call }

/-- The turn is on a definition and comes to binding a name to an object in a frame. -/
inductive Defines (ctx : Context) (a : Activation) : Handle → Handle → Handle → Heap → Prop
  | variable {head operands name rest expr v : Handle} {n : String} {k : Heap}
      (ht : a.Takes ctx head operands fun nested _ => Form.definition nested operands)
      (ho : a.heap.object? operands = some (.pair name rest))
      (hn : a.heap.object? name = some (.symbol n))
      (hr : (items? rest : EvalM (Option (List Handle))) a.heap = .ok (some [expr]) a.heap)
      (he : a.evaluator ctx expr a.heap = .ok v k) : Defines ctx a k.currentEnv name v k
  | procedure {head operands target name params body v : Handle} {n : String} {k : Heap}
      (ht : a.Takes ctx head operands fun nested _ => Form.definition nested operands)
      (ho : a.heap.object? operands = some (.pair target body))
      (htarget : a.heap.object? target = some (.pair name params))
      (hn : a.heap.object? name = some (.symbol n))
      (hc : Form.closeOver params body a.heap = .ok v k) : Defines ctx a k.currentEnv name v k

/-- The turn is on an assignment and comes to replacing what an environment binds a name to. -/
inductive Assigns (ctx : Context) (a : Activation) : Handle → Handle → Handle → Heap → Prop
  | assignment {head operands name expr v : Handle} {n : String} {k : Heap}
      (ht : a.Takes ctx head operands fun nested _ => Form.assignment nested operands)
      (ho : (items? operands : EvalM (Option (List Handle))) a.heap = .ok
        (some [name, expr]) a.heap)
      (hn : a.heap.object? name = some (.symbol n))
      (he : a.evaluator ctx expr a.heap = .ok v k) : Assigns ctx a k.currentEnv name v k

variable {ctx : Context} {a : Activation} {b : Builtin} {V : Veil}
  {args env name v head operands : Handle} {form : Nested → Nat → EvalM Step} {k l : Heap}

/-! ## The invariant -/

/-- The parts of the expression are open. -/
lemma Takes.shown (ht : a.Takes ctx head operands form) (hr : V.Ready ctx.keywords a.heap)
    (hs : V.Bares a.heap a.slot) : V.Shows a.heap head ∧ V.Shows a.heap operands := by
  obtain ⟨u, hu, hp⟩ := ht.expr
  refine ⟨fun hw => (hr.seals hw).open_part hp (by simp [Datum.parts]), fun hw => ?_⟩
  exact (hr.seals hw).open_tail ((hr.seals hw).slots _ u hu (hs hw)) hp

/-- The elements of a list are open. -/
lemma shown_of_items {h k : Heap} {vs : List Handle} (hs : V.Seals h)
    (hi : (items? v : EvalM (Option (List Handle))) h = .ok (some vs) k) :
    ∀ u ∈ vs, V.Shows k u := by
  have hsafe : ((items? v >>= Pure.pure : EvalM (Option (List Handle))) h).Safe True V h :=
    ends_items hs fun vs hvs => Safe.pure hs hvs
  rw [bind_pure] at hsafe
  exact (Outcome.Safe.of_ok hsafe hi).2 vs rfl

lemma Calls.seals (hh : ctx.host = #[]) (ha : a.Sheltered ctx) (hc : a.Calls ctx b args k) :
    ∃ V : Veil, V.Seals k := by
  obtain ⟨V, hr, hs⟩ := ha
  cases hc with
  | combination ht hc _ _ =>
    obtain ⟨hhead, ho⟩ := ht.shown hr hs
    have hdraft := Safe.evalCombination (R := True)
      (Safe.nestedEval hh a.budget) a.budget hr hhead ho
    rw [evaluator] at hc
    rw [hc] at hdraft
    obtain ⟨l, hk, -⟩ := hdraft
    exact ⟨_, (Advance.push_hidden hk.seals _).seals⟩

/-- What is evaluated for the sake of the turn keeps the invariant. -/
lemma Sheltered.evaluates {expr : Handle} (hh : ctx.host = #[]) (hr : V.Ready ctx.keywords a.heap)
    (hv : V.Shows a.heap expr) (he : a.evaluator ctx expr a.heap = .ok v k) : V.Seals k :=
  (Outcome.Safe.of_ok (Safe.nestedEval (R := True) hh a.budget V a.heap expr hr hv) he).1.seals

lemma Defines.seals (hh : ctx.host = #[]) (ha : a.Sheltered ctx) (hd : a.Defines ctx env name v k) :
    ∃ V : Veil, V.Seals k := by
  obtain ⟨V, hr, hs⟩ := ha
  cases hd with
  | «variable» ht _ _ hi he =>
    exact ⟨V, Sheltered.evaluates hh hr (shown_of_items hr.seals hi _ (by simp)) he⟩
  | procedure ht ho htarget _ hc =>
    obtain ⟨-, hoperands⟩ := ht.shown hr hs
    have hparams : V.Shows a.heap _ := fun hu =>
      (hr.seals hu).open_tail ((hr.seals hu).open_part ho (by simp [Datum.parts])) htarget
    have hbody : V.Shows a.heap _ := fun hu => (hr.seals hu).open_tail (hoperands hu) ho
    exact ⟨V, (Outcome.Safe.of_ok (Safe.closeOver (R := True) hr.seals hparams hbody) hc).1.seals⟩

lemma Assigns.seals (hh : ctx.host = #[]) (ha : a.Sheltered ctx) (hd : a.Assigns ctx env name v k) :
    ∃ V : Veil, V.Seals k := by
  obtain ⟨V, hr, hs⟩ := ha
  cases hd with
  | assignment ht ho _ he =>
    exact ⟨V, Sheltered.evaluates hh hr (shown_of_items hr.seals ho _ (by simp)) he⟩

lemma Defines.env_eq (hd : a.Defines ctx env name v k) : k.currentEnv = env := by
  cases hd <;> rfl

lemma Assigns.env_eq (hd : a.Assigns ctx env name v k) : k.currentEnv = env := by
  cases hd
  rfl

end Activation

/-! ## What is changed -/

namespace Heap

variable {h k l : Heap} {V : Veil} {D : Set Handle}
  {f g u symbol names values env name args v : Handle} {b : Builtin} {p : Option Handle}

/-- How an action that changes nothing but objects in `D` ends. -/
lemma Sparing.of_gives {o : Outcome Handle Handle} (ho : o.Local D h) (hg : o.Gives v k) :
    h.Sparing D k := by
  rcases hg with rfl | rfl
  · exact ho
  · exact ho

lemma Finds.binds (hs : h.Sealed V) {slot : Handle} (hf : h.Finds symbol env (some (f, slot))) :
    h.Binds f slot := by
  generalize he : some (f, slot) = found at hf
  induction hf with
  | @here g names values slot' p hg hfind =>
    obtain ⟨rfl, rfl⟩ := Prod.mk.inj (Option.some.inj he)
    exact hs.binds_of_localSlot (hfind.localSlot_eq hg)
  | outward _ _ _ ih => exact ih he
  | nowhere => simp at he

namespace Sealed

lemma not_binds_frame (hs : h.Sealed V) (hf : h.IsFrame f) : ¬ h.Binds g f := fun hb =>
  (hs.open_frame hf).not_hidden (.binding hb)

/-- Changing a pair that is no binding leaves the values of all frames alone. -/
lemma sameValues_of_call (hs : h.Sealed V) (hb : b = .setCar ∨ b = .setCdr)
    (hg : (b.call args h).Gives v k) (hu : k.Unswept)
    (hf : h.object? f = some (.frame p names values)) :
    h.SameValues k f ∧
      ((∀ pair x, Builtin.arguments args h = .ok [pair, x] h → ¬ h.Along names pair) →
        h.SameBindings k f) := by
  have hk : h.Sparing {u | (∃ x, Builtin.arguments args h = .ok [u, x] h) ∧
      ∃ x y, h.object? u = some (.pair x y)} k :=
    .of_gives (Local.call hb fun pair x a b hargs hp => ⟨⟨x, hargs⟩, a, b, hp⟩) hg
  have hframe : f ∉ {u | (∃ x, Builtin.arguments args h = .ok [u, x] h) ∧
      ∃ x y, h.object? u = some (.pair x y)} := by
    rintro ⟨-, x, y, hp⟩
    rw [hf] at hp
    simp at hp
  have hbinds : ∀ c, h.Binds f c → c ∉ {u | (∃ x, Builtin.arguments args h = .ok [u, x] h) ∧
      ∃ x y, h.object? u = some (.pair x y)} := by
    rintro c hc ⟨⟨x, hargs⟩, -⟩
    have hopen := (Outcome.Safe.of_ok (R := True)
      (Safe.arguments (V := V) (fun _ => hs) args) hargs).2 c (by simp)
    exact (hopen (hk.unswept hu)).not_hidden (.binding hc)
  refine ⟨hk.sameValues hs hu ⟨_, _, _, hf⟩ hframe hbinds, fun hn => ?_⟩
  refine hk.sameBindings hs hu hf hframe hbinds (fun c hc hm => ?_) ?_
  · obtain ⟨⟨x, hargs⟩, -⟩ := hm
    exact absurd hc (hn c x hargs)
  · rintro ⟨-, x, y, hp⟩
    rw [hs.emptyList] at hp
    simp at hp

/-- A definition leaves the bindings of other frames alone. -/
lemma sameBindings_of_define (hs : h.Sealed V) (henv : h.IsFrame env)
    (hg : (define env name v h).Gives u k) (hu : k.Unswept) (hf : h.IsFrame f) (hne : f ≠ env) :
    h.SameBindings k f := by
  have hk : h.Sparing {c | c = env ∨ h.Binds env c} k :=
    .of_gives (Local.define env name v (fun slot hslot => .inr (hs.binds_of_localSlot hslot))
      (.inl rfl)) hg
  obtain ⟨p, names, values, hobj⟩ := hf
  refine hk.sameBindings hs hu hobj ?_ (fun c hc => ?_) (fun c hc hm => ?_) ?_
  · rintro (he | hb)
    · exact hne he
    · exact hs.not_binds_frame ⟨_, _, _, hobj⟩ hb
  · rintro (rfl | hb)
    · exact hs.not_binds_frame henv hc
    · exact hne (hs.apart f env c hc hb)
  · rcases hm with rfl | hb
    · exact henv
    · exact absurd hb (hc.not_binds (hs.open_part hobj (by simp [Datum.parts])).not_hidden)
  · rintro (he | hb)
    · obtain ⟨q, n, w, he'⟩ := henv
      rw [← he, hs.emptyList] at he'
      simp at he'
    · exact (hs.open_sentinel (by decide)).not_hidden (.binding hb)

/-- An assignment leaves the bindings of all frames alone but for the one in which the name is
found. -/
lemma sameBindings_of_assign (hs : h.Sealed V) (henv : h.IsFrame env)
    (hg : (assign env name v h).Gives u k) (hu : k.Unswept) (hf : h.IsFrame f)
    (hne : ∀ slot, ¬ h.Finds name env (some (f, slot))) : h.SameBindings k f := by
  have hk : h.Sparing {c | ∃ g, h.Finds name env (some (g, c))} k := by
    refine .of_gives (Local.assign env name v fun slot hslot => ?_) hg
    obtain ⟨found, hfind, heq⟩ := hs.exists_finds name henv
    rw [hslot] at heq
    cases found with
    | none => simp at heq
    | some found =>
      obtain ⟨g, slot'⟩ := found
      obtain rfl : slot = slot' := Option.some.inj (Except.ok.inj heq)
      exact ⟨g, hfind⟩
  obtain ⟨p, names, values, hobj⟩ := hf
  refine hk.sameBindings hs hu hobj ?_ (fun c hc => ?_) (fun c hc hm => ?_) ?_
  · rintro ⟨g, hfind⟩
    exact hs.not_binds_frame ⟨_, _, _, hobj⟩ (hfind.binds hs)
  · rintro ⟨g, hfind⟩
    obtain rfl := hs.apart f g c hc (hfind.binds hs)
    exact hne c hfind
  · obtain ⟨g, hfind⟩ := hm
    exact absurd (hfind.binds hs)
      (hc.not_binds (hs.open_part hobj (by simp [Datum.parts])).not_hidden)
  · rintro ⟨g, hfind⟩
    exact (hs.open_sentinel (by decide)).not_hidden (.binding (hfind.binds hs))

end Sealed

end Heap

end ArenaScheme
