/-
# The evaluator is blind to garbage

An action is blind to garbage if it comes to the same on heaps that differ in garbage only.  They
differ in the same garbage afterwards, and the action has not come to know of it, unless there has
been a collection.  Then they are equal, and handles of what was garbage may have been given to new
objects.

The elementary actions are blind, and so are all that are put together from them.  The procedures of
the host have to be blind as well, as they are if all they do is done by means of their arguments.
-/
import ArenaScheme.Proofs.Garbage.Sweeping
import ArenaScheme.Proofs.Heeding.Evaluator

namespace ArenaScheme

variable {W : Waste} {ε ε' α β : Type} {h k : Heap} {v w : Handle} {d : Datum}

/-- An action has come to the same on two heaps, and these are equal now, or they still differ in
garbage only and there is none of it in the result; or it has stopped on both of them. -/
inductive Outcome.Same [Sparing ε] [Sparing α] (W : Waste) : Outcome ε α → Outcome ε α → Prop
  | equal {o : Outcome ε α} : Same W o o
  | ok {a : α} {h k : Heap} (hw : W.Alike h k) (ha : spared W.Spares a) : Same W (.ok a h) (.ok a k)
  | error {e : ε} {h k : Heap} (hw : W.Alike h k) (he : spared W.Spares e) :
      Same W (.error e h) (.error e k)
  | halt {c c' : Halt} : Same W (.halt c) (.halt c')

/-- An action that comes to the same whatever the garbage is. -/
def Blind [Sparing ε] [Sparing α] (W : Waste) (x : HeapM ε α) : Prop :=
  ∀ h k, W.Alike h k → (x h).Same W (x k)

namespace Blind

open HeapM

variable [Sparing ε] [Sparing ε'] [Sparing α] [Sparing β] {x : HeapM ε α} {root : Root}

/-! ## Putting actions together -/

lemma pure {a : α} (ha : spared W.Spares a) : Blind W (pure a : HeapM ε α) :=
  fun _ _ hw => .ok hw ha

lemma fail {e : ε} (he : spared W.Spares e) : Blind W (fail e : HeapM ε α) :=
  fun _ _ hw => .error hw he

lemma halt {c : Halt} : Blind W (halt c : HeapM ε α) := fun _ _ _ => .halt

lemma bind {f : α → HeapM ε β} (hx : Blind W x) (hf : ∀ a, spared W.Spares a → Blind W (f a)) :
    Blind W (x >>= f) := by
  intro h k hw
  have hs := hx h k hw
  rw [bind_apply, bind_apply]
  generalize x h = o, x k = p at hs
  cases hs with
  | equal => exact .equal
  | ok hw ha => exact hf _ ha _ _ hw
  | error hw he => exact .error hw he
  | halt => exact .halt

/-- A failure that counts as a value. -/
lemma recover {f : ε → α} (hx : Blind W x) (hf : ∀ e, spared W.Spares e → spared W.Spares (f e)) :
    Blind W (recover x f : HeapM ε' α) := by
  intro h k hw
  have hs := hx h k hw
  rw [HeapM.recover, HeapM.recover]
  generalize x h = o, x k = p at hs
  cases hs with
  | equal => exact .equal
  | ok hw ha => exact .ok hw ha
  | error hw he => exact .ok hw (hf _ he)
  | halt => exact .halt

lemma ensuring {y : HeapM ε Unit} (hx : Blind W x) (hy : Blind W y) : Blind W (ensuring x y) := by
  intro h k hw
  have hs := hx h k hw
  rw [HeapM.ensuring, HeapM.ensuring]
  generalize x h = o, x k = p at hs
  cases hs with
  | equal => exact .equal
  | @ok a h k hw ha =>
    have hs := hy h k hw
    dsimp only
    generalize y h = o, y k = p at hs
    cases hs with
    | equal => exact .equal
    | ok hw _ => exact .ok hw ha
    | error hw he => exact .error hw he
    | halt => exact .halt
  | @error e h k hw he =>
    have hs := hy h k hw
    dsimp only
    generalize y h = o, y k = p at hs
    cases hs with
    | equal => exact .equal
    | ok hw _ => exact .error hw he
    | error hw he => exact .error hw he
    | halt => exact .halt
  | halt => exact .halt

/-- A value read off the heap. -/
lemma inspect {g : Heap → Except Halt α} (hg : ∀ h k, W.Alike h k → g k = g h)
    (hs : ∀ h k a, W.Alike h k → g h = .ok a → spared W.Spares a) :
    Blind W (inspect g : HeapM ε α) := by
  intro h k hw
  rw [HeapM.inspect, HeapM.inspect, hg h k hw]
  cases hgh : g h with
  | ok a => exact .ok hw (hs h k a hw hgh)
  | error c => exact .halt

/-! ## Slots and the current frame -/

instance : Sparing Root := ⟨fun _ _ => True⟩

lemma acquire (hv : W.Spares v) : Blind W (acquire v : HeapM ε Root) := by
  intro h k hw
  have hroots : k.roots = h.roots := by rw [hw.same]
  have hslots : k.rootSlots = h.rootSlots := by rw [hw.same]
  rw [HeapM.acquire, HeapM.acquire]
  by_cases hlt : h.roots.size < h.rootSlots
  · rw [if_pos hlt, if_pos (hroots ▸ hslots ▸ hlt), hroots]
    exact .ok (hw.push hv) trivial
  · rw [if_neg hlt, if_neg (hroots ▸ hslots ▸ hlt)]
    exact .halt

lemma release (root : Root) : Blind W (release root : HeapM ε Handle) := by
  intro h k hw
  have hroots : k.roots = h.roots := by rw [hw.same]
  rw [HeapM.release, HeapM.release, hroots]
  cases hv : h.roots.back? with
  | none => exact .halt
  | some v =>
    dsimp only
    split
    · rw [Array.back?] at hv
      exact .ok hw.pop (hw.roots _ v hv)
    · exact .halt

lemma contents : Blind W (contents root : HeapM ε Handle) := by
  intro h k hw
  have hroots : k.roots = h.roots := by rw [hw.same]
  rw [HeapM.contents, HeapM.contents, hroots]
  cases hv : h.roots[root.slot]? with
  | some v => exact .ok hw (hw.roots _ v hv)
  | none => exact .halt

lemma store (hv : W.Spares v) : Blind W (store root v : HeapM ε Unit) := by
  intro h k hw
  have hroots : k.roots = h.roots := by rw [hw.same]
  rw [HeapM.store, HeapM.store, hroots]
  split
  · exact .ok (hw.put hv) trivial
  · exact .halt

lemma rooted {body : Root → HeapM ε α} (hv : W.Spares v) (hb : ∀ root, Blind W (body root)) :
    Blind W (rooted v body) :=
  bind (acquire hv) fun root _ => ensuring (hb root) (bind (release root) fun _ _ => pure trivial)

lemma currentEnv : Blind W (currentEnv : HeapM ε Handle) := by
  intro h k hw
  have henv : k.currentEnv = h.currentEnv := by rw [hw.same]
  change Outcome.Same W (.ok h.currentEnv h) (.ok k.currentEnv k)
  rw [henv]
  exact .ok hw hw.currentEnv

lemma switchEnv (hv : W.Spares v) : Blind W (switchEnv v : HeapM ε Unit) := fun _ _ hw =>
  .ok (hw.switchEnv hv) trivial

lemma audited : Blind W (observe (·.audited) : HeapM ε Bool) := by
  intro h k hw
  have haudited : k.audited = h.audited := by rw [hw.same]
  change Outcome.Same W (.ok h.audited h) (.ok k.audited k)
  rw [haudited]
  exact .ok hw trivial

/-! ## Objects -/

lemma alloc (hf : d.isFree = false) (hd : spared W.Spares d) : Blind W (alloc d) := by
  intro h k hw
  rw [HeapM.alloc, HeapM.alloc]
  rcases hw.prepare_cases hd with heq | ⟨hh, hk⟩
  · -- a collection has made the heaps equal
    rw [heq]
    exact .equal
  · have hfree : k.free = h.free := by rw [hw.same]
    rw [hh, hk]
    dsimp only
    rw [hfree]
    cases h.free with
    | none => exact .error hw (W.apart _ (by decide))
    | some i =>
      dsimp only
      rcases hw.claim i d with ⟨h', k', hh', hk', hdiff, hi⟩ | ⟨c, c', hh', hk'⟩
      · rw [hh', hk']
        exact .ok (hw.rewritten (Heap.Rewritten.claim hh' hf).2 hdiff hd
          (Heap.SameFrame.claim hh').regionEnd) hi
      · rw [hh', hk']
        exact .halt

lemma datum (hv : W.Spares v) : Blind W (datum v : HeapM ε Datum) :=
  inspect (fun _ _ hw => hw.read v hv) fun _ _ _ hw hr => hw.encloses _ _ hv hr

lemma walkSpine (hv : W.Spares v) : Blind W (walkSpine v : HeapM ε Walk) := by
  refine inspect (fun h k hw => ?_) fun _ _ _ hw hr => hw.encloses.of_walkSpine hv hr
  rw [Heap.walkSpine, Heap.walkSpine, hw.size]
  exact hw.encloses.walkFrom_congr hw.read hv hv

/-- Changing an object after a look at it. -/
lemma expect_overwrite {γ : Type} {wanted : DatumType} {part : Datum → Option γ} {f : γ → Datum}
    (hv : W.Spares v) (hn : ∀ a, (f a).isFree = false)
    (hp : ∀ d a, part d = some a → d.isFree = false ∧ (spared W.Spares d → spared W.Spares (f a))) :
    Blind W (do overwrite v (f (← HeapM.expect wanted part v)) : HeapM ε Unit) := by
  intro h k hw
  rw [HeapM.expect, bind_assoc, bind_apply, bind_apply, HeapM.datum, HeapM.inspect, HeapM.inspect,
    hw.read v hv]
  cases hr : h.read v with
  | error c => exact .halt
  | ok d =>
    dsimp only
    cases ha : part d with
    | none => exact .halt
    | some a =>
      obtain ⟨hf, hs⟩ := hp d a ha
      have hd : h.object? v = some d := Heap.object?_eq_some.mpr ⟨Heap.cells_of_read hr, hf⟩
      exact .ok (hw.rewritten (.setCell hd (hn a)) (hw.setCell_of_spares hv _)
        (hs (hw.parts v d hv hd)) rfl) trivial

lemma collect : Blind W (collect : HeapM ε Collection) := by
  intro h k hw
  rw [HeapM.collect, attempt, attempt, Heap.collect, Heap.collect, hw.collectKeeping_eq (by simp)]
  exact .equal

end Blind

/-! ## The evaluator -/

/-- Garbage is a concern of every action. -/
instance : Concern Waste where
  Spares := Waste.Spares
  Bars _ _ := False
  Heeds W := Blind W
  spares_sentinel W _ := W.apart _
  pure := Blind.pure
  fail := Blind.fail
  halt := Blind.halt
  bind := Blind.bind
  recover := Blind.recover
  ensuring := Blind.ensuring
  contents _ := Blind.contents
  store _ := Blind.store
  rooted hv hb := Blind.rooted hv fun root => hb root id
  currentEnv := Blind.currentEnv
  switchEnv := Blind.switchEnv
  audited := Blind.audited
  alloc := Blind.alloc
  datum := Blind.datum
  walkSpine := Blind.walkSpine
  nearestSlot _ he := by
    refine Blind.inspect (fun h k hw => ?_) fun _ _ _ hw hs => hw.encloses.of_slotFrom he hs
    rw [Heap.nearestSlot, Heap.nearestSlot, hw.size]
    exact hw.encloses.slotFrom_congr hw.read hw.size he
  localSlot _ he := by
    refine Blind.inspect (fun h k hw => ?_) fun _ _ _ hw hs => hw.encloses.of_localSlot he hs
    exact hw.encloses.localSlot_congr hw.read hw.size he
  expect_overwrite := Blind.expect_overwrite
  collect := Blind.collect

/-- To no procedure of the host does it make a difference what the garbage is. -/
def HostBlind (host : Array HostProcedure) : Prop :=
  ∀ W : Waste, ∀ p ∈ host, ∀ args, W.Spares args → Blind W (p args)

/-- A nested evaluation comes to the same whatever the garbage is. -/
lemma Blind.nestedEval {ctx : Context} (hb : HostBlind ctx.host)
    (hk : Concern.SparesWords W ctx.keywords) (budget : Nat) {expr : Handle} (he : W.Spares expr) :
    Blind W (Evaluator.nestedEval ctx budget expr) :=
  have hh : Concern.HostHeeds W ctx.host := hb W
  Concern.nestedEval hh hk budget expr he

end ArenaScheme
