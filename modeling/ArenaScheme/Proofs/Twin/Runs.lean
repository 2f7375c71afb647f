/-
# Actions in step

Two actions run in step from a twin if they come to corresponding ends: both return or both fail,
and the heaps they leave make up a twin again; or both halt at the same bound of the machine.  If
the runs are different ones, then the comparison is over as soon as one of them reaches such a bound
or fails for want of memory, since that may be due to the sizes of its heap.  There is no other
halt.

How far the twin may have moved meanwhile is a parameter.  The rules below follow the combinators
that actions are put together with.
-/
import ArenaScheme.Proofs.Discipline.Rules
import ArenaScheme.Proofs.Twin.Motion

namespace ArenaScheme

open HeapM

/-! ## Corresponding ends -/

/-- A bound of the machine has been reached: its root stack is full, or the budget is used up. -/
def Halt.Limit : Halt → Prop
  | .rootOverflow _ | .unfinished => True
  | _ => False

/-- What is known of errors of a type. -/
class Fault (ε : Type) where
  /-- Corresponding errors. -/
  matched : Twin → ε → ε → Prop
  /-- The error says that there was no memory left. -/
  starved : ε → Prop
  matched_congr : ∀ {σ τ : Twin} {e f : ε}, τ.rel = σ.rel → τ.left.cells = σ.left.cells →
    matched σ e f → matched τ e f

instance : Fault Handle where
  matched τ e f := τ.rel .shown e f ∧ ∃ kind message, τ.left.object? e = some (.error kind message)
  starved e := e = .outOfMemory
  matched_congr hr hc h := by
    rw [Heap.object?, hc, hr]
    exact h

section

variable {ε α α' : Type} [Fault ε]

/-- An action has ended for a reason of its own heap, and if it leaves a heap, then one as
stated. -/
inductive Outcome.Over (P : Heap → Prop) : Outcome ε α → Prop
  | halt {c : Halt} (hc : c.Limit) : Over P (.halt c)
  | starved {e : ε} {h : Heap} (he : Fault.starved e) (hh : P h) : Over P (.error e h)

/-- Two actions come to corresponding ends, as far as they are to be compared. -/
inductive Outcome.Agree (W : Regime) (returned : α → Heap → α' → Heap → Prop)
    (failed : ε → Heap → ε → Heap → Prop) (left right : Heap → Prop) :
    Outcome ε α → Outcome ε α' → Prop
  | ok {a : α} {b : α'} {h k : Heap} (hr : returned a h b k) :
      Agree W returned failed left right (.ok a h) (.ok b k)
  | error {e f : ε} {h k : Heap} (hf : failed e h f k) :
      Agree W returned failed left right (.error e h) (.error f k)
  | halt {c : Halt} (hc : c.Limit) : Agree W returned failed left right (.halt c) (.halt c)
  | left {o : Outcome ε α} {o' : Outcome ε α'} (hs : ¬ W.same) (ho : o.Over left) :
      Agree W returned failed left right o o'
  | right {o : Outcome ε α} {o' : Outcome ε α'} (hs : ¬ W.same) (ho : o'.Over right) :
      Agree W returned failed left right o o'

lemma Outcome.Over.mono {P P' : Heap → Prop} {o : Outcome ε α} (ho : o.Over P)
    (hP : ∀ h, P h → P' h) : o.Over P' := by
  cases ho with
  | halt hc => exact .halt hc
  | starved he hh => exact .starved he (hP _ hh)

end

namespace Twin

variable {ε ε' α α' β β' : Type} [Fault ε] [Fault ε'] {W : Regime} {σ τ : Twin} {m : Nat}
  {A : Nat → Prop}

/-- Two actions run in step from a twin, moving it as stated.  If only one of them ends for a reason
of its own heap, then that heap is part of such a twin. -/
def Runs (W : Regime) (R : Twin → Twin → Prop) (x : HeapM ε α) (y : HeapM ε α') (σ : Twin)
    (Q : α → α' → Twin → Prop) : Prop :=
  Outcome.Agree W
    (fun a h b k => ∃ τ : Twin, τ.left = h ∧ τ.right = k ∧ τ.Valid W ∧ R σ τ ∧ Q a b τ)
    (fun e h f k => ∃ τ : Twin, τ.left = h ∧ τ.right = k ∧ τ.Valid W ∧ R σ τ ∧
      Fault.matched τ e f)
    (fun h => ∃ τ : Twin, τ.left = h ∧ τ.Valid W ∧ R σ τ)
    (fun k => ∃ τ : Twin, τ.right = k ∧ τ.Valid W ∧ R σ τ) (x σ.left) (y σ.right)

variable {R S U : Twin → Twin → Prop} {x : HeapM ε α} {y : HeapM ε α'}
  {Q Q₁ : α → α' → Twin → Prop} {P : β → β' → Twin → Prop}

/-! ## Single ends -/

lemma Runs.ok {a : α} {b : α'} (hx : x σ.left = .ok a τ.left) (hy : y σ.right = .ok b τ.right)
    (hv : τ.Valid W) (hR : R σ τ) (hQ : Q a b τ) : Runs W R x y σ Q := by
  rw [Runs, hx, hy]
  exact .ok ⟨τ, rfl, rfl, hv, hR, hQ⟩

lemma Runs.error {e f : ε} (hx : x σ.left = .error e τ.left) (hy : y σ.right = .error f τ.right)
    (hv : τ.Valid W) (hR : R σ τ) (hf : Fault.matched τ e f) : Runs W R x y σ Q := by
  rw [Runs, hx, hy]
  exact .error ⟨τ, rfl, rfl, hv, hR, hf⟩

lemma Runs.pure [Motion R] (hv : σ.Valid W) {a : α} {b : α'} (hQ : Q a b σ) :
    Runs W R (pure a : HeapM ε α) (pure b) σ Q := .ok rfl rfl hv (Motion.refl R σ) hQ

lemma Runs.fail [Motion R] (hv : σ.Valid W) {e f : ε} (hf : Fault.matched σ e f) :
    Runs W R (fail e : HeapM ε α) (fail f : HeapM ε α') σ Q :=
  .error rfl rfl hv (Motion.refl R σ) hf

lemma Runs.halt {c : Halt} (hc : c.Limit) (hx : x σ.left = .halt c) (hy : y σ.right = .halt c) :
    Runs W R x y σ Q := by
  rw [Runs, hx, hy]
  exact .halt hc

/-- A halt of the left run, which the right run shares if it is the same. -/
lemma Runs.halt_left {c : Halt} (hc : c.Limit) (hx : x σ.left = .halt c)
    (hy : W.same → y σ.right = .halt c) : Runs W R x y σ Q := by
  by_cases hs : W.same
  · exact .halt hc hx (hy hs)
  · rw [Runs, hx]
    exact .left hs (.halt hc)

lemma Runs.halt_right {c : Halt} (hs : ¬ W.same) (hc : c.Limit) (hy : y σ.right = .halt c) :
    Runs W R x y σ Q := by
  rw [Runs, hy]
  exact .right hs (.halt hc)

/-- Only the left run finds no memory. -/
lemma Runs.starve_left {e : ε} (hs : ¬ W.same) (hx : x σ.left = .error e τ.left)
    (he : Fault.starved e) (hv : τ.Valid W) (hR : R σ τ) : Runs W R x y σ Q := by
  rw [Runs, hx]
  exact .left hs (.starved he ⟨τ, rfl, hv, hR⟩)

/-- Only the right run finds no memory. -/
lemma Runs.starve_right {e : ε} (hs : ¬ W.same) (hy : y σ.right = .error e τ.right)
    (he : Fault.starved e) (hv : τ.Valid W) (hR : R σ τ) : Runs W R x y σ Q := by
  rw [Runs, hy]
  exact .right hs (.starved he ⟨τ, rfl, hv, hR⟩)

/-! ## Sequences -/

lemma Runs.mono (hx : Runs W S x y σ Q₁) (hR : ∀ τ, τ.Valid W → S σ τ → R σ τ)
    (hQ : ∀ a b τ, τ.Valid W → S σ τ → Q₁ a b τ → Q a b τ) : Runs W R x y σ Q := by
  unfold Runs at hx ⊢
  revert hx
  generalize x σ.left = o
  generalize y σ.right = o'
  intro hx
  cases hx with
  | ok hr =>
    obtain ⟨τ, h1, h2, hv, hr, hq⟩ := hr
    exact .ok ⟨τ, h1, h2, hv, hR τ hv hr, hQ _ _ τ hv hr hq⟩
  | error hf =>
    obtain ⟨τ, h1, h2, hv, hr, hf⟩ := hf
    exact .error ⟨τ, h1, h2, hv, hR τ hv hr, hf⟩
  | halt hc => exact .halt hc
  | left hs ho => exact .left hs (ho.mono fun _ ⟨τ, h1, hv, hr⟩ => ⟨τ, h1, hv, hR τ hv hr⟩)
  | right hs ho => exact .right hs (ho.mono fun _ ⟨τ, h1, hv, hr⟩ => ⟨τ, h1, hv, hR τ hv hr⟩)

lemma Runs.motion (hx : Runs W S x y σ Q) (hR : ∀ τ, S σ τ → R σ τ) : Runs W R x y σ Q :=
  hx.mono (fun τ _ => hR τ) fun _ _ _ _ _ hq => hq

lemma Runs.keeps [Motion R] (hx : Runs W Keeps x y σ Q) : Runs W R x y σ Q :=
  hx.motion fun _ => Motion.keeps

lemma Runs.post (hx : Runs W R x y σ Q₁) (hQ : ∀ a b τ, τ.Valid W → R σ τ → Q₁ a b τ → Q a b τ) :
    Runs W R x y σ Q := hx.mono (fun _ _ h => h) hQ

/-- The ends that actions come to from a twin further on. -/
lemma Runs.from_later (hx : Runs W S x y τ Q) (hR : ∀ υ, S τ υ → R σ υ) :
    Outcome.Agree W
      (fun a h b k => ∃ υ : Twin, υ.left = h ∧ υ.right = k ∧ υ.Valid W ∧ R σ υ ∧ Q a b υ)
      (fun e h f k => ∃ υ : Twin, υ.left = h ∧ υ.right = k ∧ υ.Valid W ∧ R σ υ ∧
        Fault.matched υ e f)
      (fun h => ∃ υ : Twin, υ.left = h ∧ υ.Valid W ∧ R σ υ)
      (fun k => ∃ υ : Twin, υ.right = k ∧ υ.Valid W ∧ R σ υ) (x τ.left) (y τ.right) := by
  unfold Runs at hx
  revert hx
  generalize x τ.left = o
  generalize y τ.right = o'
  intro hx
  cases hx with
  | ok hr =>
    obtain ⟨υ, h1, h2, hv, hr, hq⟩ := hr
    exact .ok ⟨υ, h1, h2, hv, hR υ hr, hq⟩
  | error hf =>
    obtain ⟨υ, h1, h2, hv, hr, hf⟩ := hf
    exact .error ⟨υ, h1, h2, hv, hR υ hr, hf⟩
  | halt hc => exact .halt hc
  | left hs ho => exact .left hs (ho.mono fun _ ⟨υ, h1, hv, hr⟩ => ⟨υ, h1, hv, hR υ hr⟩)
  | right hs ho => exact .right hs (ho.mono fun _ ⟨υ, h1, hv, hr⟩ => ⟨υ, h1, hv, hR υ hr⟩)

/-- Actions that end as others do from a twin further on. -/
lemma Runs.rebase {x₁ : HeapM ε α} {y₁ : HeapM ε α'} (h : Runs W S x₁ y₁ τ Q)
    (hx : x σ.left = x₁ τ.left) (hy : y σ.right = y₁ τ.right) (hR : ∀ υ, S τ υ → R σ υ) :
    Runs W R x y σ Q := by
  rw [Runs, hx, hy]
  exact h.from_later hR

lemma Over.bind {L : Heap → Prop} {o : Outcome ε α} (f : α → HeapM ε β) (ho : o.Over L) :
    Outcome.Over L (match o with
      | .ok a h => f a h
      | .error e h => .error e h
      | .halt c => .halt c) := by
  cases ho with
  | halt hc => exact .halt hc
  | starved he hh => exact .starved he hh

/-- One action after the other, each with a motion of its own. -/
lemma Runs.chain {f : α → HeapM ε β} {g : α' → HeapM ε β'} (hx : Runs W S x y σ Q)
    (hR : ∀ τ, S σ τ → R σ τ)
    (hf : ∀ a b τ, τ.Valid W → S σ τ → Q a b τ → Runs W U (f a) (g b) τ P)
    (ht : ∀ τ υ, S σ τ → U τ υ → R σ υ) : Runs W R (x >>= f) (y >>= g) σ P := by
  unfold Runs at hx
  rw [Runs, bind_apply, bind_apply]
  revert hx
  generalize x σ.left = o
  generalize y σ.right = o'
  intro hx
  cases hx with
  | ok hr =>
    obtain ⟨τ, rfl, rfl, hv, hr, hq⟩ := hr
    exact (hf _ _ τ hv hr hq).from_later fun υ hu => ht τ υ hr hu
  | error he =>
    obtain ⟨τ, h1, h2, hv, hr, hm⟩ := he
    exact .error ⟨τ, h1, h2, hv, hR τ hr, hm⟩
  | halt hc => exact .halt hc
  | left hs ho =>
    exact .left hs (Over.bind f (ho.mono fun _ ⟨τ, h1, hv, hr⟩ => ⟨τ, h1, hv, hR τ hr⟩))
  | right hs ho =>
    exact .right hs (Over.bind g (ho.mono fun _ ⟨τ, h1, hv, hr⟩ => ⟨τ, h1, hv, hR τ hr⟩))

lemma Runs.bind [Motion R] {f : α → HeapM ε β} {g : α' → HeapM ε β'} (hx : Runs W R x y σ Q)
    (hf : ∀ a b τ, τ.Valid W → R σ τ → Q a b τ → Runs W R (f a) (g b) τ P) :
    Runs W R (x >>= f) (y >>= g) σ P :=
  hx.chain (fun _ h => h) hf fun _ _ => Motion.trans

/-- An action that keeps everything comes first. -/
lemma Runs.bind_keeps [Motion R] {f : α → HeapM ε β} {g : α' → HeapM ε β'}
    (hx : Runs W Keeps x y σ Q)
    (hf : ∀ a b τ, τ.Valid W → Keeps σ τ → Q a b τ → Runs W R (f a) (g b) τ P) :
    Runs W R (x >>= f) (y >>= g) σ P :=
  hx.chain (fun _ => Motion.keeps) hf fun _ _ hk => Motion.trans (Motion.keeps hk)

/-- An action that leaves more slots alone comes first. -/
lemma Runs.bind_evolves {n : Nat} {B : Nat → Prop} {f : α → HeapM ε β} {g : α' → HeapM ε β'}
    (hx : Runs W (Evolves n B) x y σ Q) (hm : m ≤ n) (hB : ∀ i, A i → B i)
    (hf : ∀ a b τ, τ.Valid W → Evolves n B σ τ → Q a b τ →
      Runs W (Evolves m A) (f a) (g b) τ P) : Runs W (Evolves m A) (x >>= f) (y >>= g) σ P :=
  hx.chain (fun _ he => he.mono hm hB) hf fun _ _ he => Motion.trans (he.mono hm hB)

/-- Changing the heaps first. -/
lemma Runs.step [Motion R] {f : α → HeapM ε β} {g : α' → HeapM ε β'} {a : α} {b : α'}
    (hx : x σ.left = .ok a τ.left) (hy : y σ.right = .ok b τ.right) (hR : R σ τ)
    (hf : Runs W R (f a) (g b) τ P) : Runs W R (x >>= f) (y >>= g) σ P :=
  hf.rebase (bind_of_ok hx) (bind_of_ok hy) fun _ hu => Motion.trans hR hu

/-- Looking at the heaps first. -/
lemma Runs.look {f : α → HeapM ε β} {g : α' → HeapM ε β'} {a : α} {b : α'}
    (hx : x σ.left = .ok a σ.left) (hy : y σ.right = .ok b σ.right)
    (hf : Runs W R (f a) (g b) σ P) : Runs W R (x >>= f) (y >>= g) σ P :=
  hf.rebase (bind_of_ok hx) (bind_of_ok hy) fun _ hu => hu

/-- Going on from another twin with the same heaps. -/
lemma Runs.regard [Motion R] (hl : τ.left = σ.left) (hr : τ.right = σ.right) (hR : R σ τ)
    (hx : Runs W R x y τ Q) : Runs W R x y σ Q :=
  hx.rebase (by rw [hl]) (by rw [hr]) fun _ hu => Motion.trans hR hu

lemma Runs.ite {p p' : Prop} [Decidable p] [Decidable p'] (hp : p ↔ p') {x' : HeapM ε α}
    {y' : HeapM ε α'} (hx : p → Runs W R x y σ Q) (hx' : ¬ p → Runs W R x' y' σ Q) :
    Runs W R (if p then x else x') (if p' then y else y') σ Q := by
  by_cases h : p
  · rw [if_pos h, if_pos (hp.mp h)]
    exact hx h
  · rw [if_neg h, if_neg (mt hp.mpr h)]
    exact hx' h

/-! ## Failures as values -/

/-- Going on after a failure as after a value. -/
lemma Runs.recover {x y : EvalM Handle} {f : Handle → HeapM ε β} {g : Handle → HeapM ε β'}
    {Q : Handle → Handle → Twin → Prop} (hx : Runs W S x y σ Q)
    (hf : ∀ v v' τ, τ.Valid W → S σ τ → Q v v' τ ∨ Fault.matched τ v v' →
      Runs W U (f v) (g v') τ P)
    (ht : ∀ τ υ, S σ τ → U τ υ → R σ υ)
    (hl : ∀ τ : Twin, τ.Valid W → S σ τ →
      (f .outOfMemory τ.left).Over fun h => ∃ υ : Twin, υ.left = h ∧ υ.Valid W ∧ R σ υ)
    (hr : ∀ τ : Twin, τ.Valid W → S σ τ →
      (g .outOfMemory τ.right).Over fun k => ∃ υ : Twin, υ.right = k ∧ υ.Valid W ∧ R σ υ) :
    Runs W R (recover x id >>= f) (recover y id >>= g) σ P := by
  unfold Runs at hx
  rw [Runs, bind_apply, bind_apply, HeapM.recover, HeapM.recover]
  revert hx
  generalize x σ.left = o
  generalize y σ.right = o'
  intro hx
  cases hx with
  | ok hq =>
    obtain ⟨τ, rfl, rfl, hv, hr, hq⟩ := hq
    exact (hf _ _ τ hv hr (.inl hq)).from_later fun υ hu => ht τ υ hr hu
  | error he =>
    obtain ⟨τ, rfl, rfl, hv, hr, hm⟩ := he
    exact (hf _ _ τ hv hr (.inr hm)).from_later fun υ hu => ht τ υ hr hu
  | halt hc => exact .halt hc
  | left hs ho =>
    refine .left hs ?_
    cases ho with
    | halt hc => exact .halt hc
    | starved he hh =>
      obtain rfl := he
      obtain ⟨τ, rfl, hv, hS⟩ := hh
      exact hl τ hv hS
  | right hs ho =>
    refine .right hs ?_
    cases ho with
    | halt hc => exact .halt hc
    | starved he hh =>
      obtain rfl := he
      obtain ⟨τ, rfl, hv, hS⟩ := hh
      exact hr τ hv hS

/-! ## Cleaning up -/

/-- Cleaning up after actions in step, whether they return or fail. -/
lemma Runs.ensuring {c c' : HeapM ε Unit} (hx : Runs W S x y σ Q₁)
    (hclean : ∀ τ : Twin, τ.Valid W → S σ τ → ∃ υ : Twin, c τ.left = .ok () υ.left ∧
      c' τ.right = .ok () υ.right ∧ υ.rel = τ.rel ∧ υ.left.cells = τ.left.cells ∧ υ.Valid W ∧
      R σ υ ∧ ∀ a b, Q₁ a b τ → Q a b υ) :
    Runs W R (ensuring x c) (ensuring y c') σ Q := by
  unfold Runs at hx ⊢
  revert hx
  unfold HeapM.ensuring
  generalize x σ.left = o
  generalize y σ.right = o'
  intro hx
  cases hx with
  | ok hq =>
    obtain ⟨τ, rfl, rfl, hv, hR, hq⟩ := hq
    obtain ⟨υ, h1, h2, -, -, hvu, hRu, hQ⟩ := hclean τ hv hR
    simp only [h1, h2]
    exact .ok ⟨υ, rfl, rfl, hvu, hRu, hQ _ _ hq⟩
  | error he =>
    obtain ⟨τ, rfl, rfl, hv, hR, hm⟩ := he
    obtain ⟨υ, h1, h2, h3, h4, hvu, hRu, -⟩ := hclean τ hv hR
    simp only [h1, h2]
    exact .error ⟨υ, rfl, rfl, hvu, hRu, Fault.matched_congr h3 h4 hm⟩
  | halt hc => exact .halt hc
  | left hs ho =>
    refine .left hs ?_
    cases ho with
    | halt hc => exact .halt hc
    | starved he hh =>
      obtain ⟨τ, rfl, hv, hR⟩ := hh
      obtain ⟨υ, h1, -, -, -, hvu, hRu, -⟩ := hclean τ hv hR
      simp only [h1]
      exact .starved he ⟨υ, rfl, hvu, hRu⟩
  | right hs ho =>
    refine .right hs ?_
    cases ho with
    | halt hc => exact .halt hc
    | starved he hh =>
      obtain ⟨τ, rfl, hv, hR⟩ := hh
      obtain ⟨υ, -, h2, -, -, hvu, hRu, -⟩ := hclean τ hv hR
      simp only [h2]
      exact .starved he ⟨υ, rfl, hvu, hRu⟩

/-! ## Slots -/

lemma Runs.acquire (hv : σ.Valid W) (v v' : Handle) {f : Root → HeapM ε α} {g : Root → HeapM ε α'}
    (hf : Runs W U (f ⟨σ.left.roots.size⟩) (g ⟨σ.left.roots.size⟩) (σ.push v v') Q)
    (ht : ∀ υ, U (σ.push v v') υ → R σ υ) :
    Runs W R (acquire v >>= f) (acquire v' >>= g) σ Q := by
  by_cases hl : σ.left.roots.size < σ.left.rootSlots
  · by_cases hr : σ.right.roots.size < σ.right.rootSlots
    · refine hf.rebase (bind_of_ok (if_pos hl)) ?_ ht
      rw [← hv.depth]
      exact bind_of_ok (if_pos hr)
    · have hs : ¬ W.same := fun hs => hr ((hv.same hs).1 ▸ hl)
      exact .halt_right (c := .rootOverflow σ.right.rootSlots) hs trivial (bind_of_halt (if_neg hr))
  · refine .halt_left (c := .rootOverflow σ.left.rootSlots) trivial (bind_of_halt (if_neg hl)) ?_
    intro hs
    rw [← (hv.same hs).1]
    exact bind_of_halt (if_neg hl)

/-- Holding an object in a slot of its own. -/
lemma Runs.rooted {v v' : Handle} {body : Root → HeapM ε α} {body' : Root → HeapM ε α'}
    (hv : σ.Valid W)
    (hbody : Runs W S (body ⟨σ.left.roots.size⟩) (body' ⟨σ.left.roots.size⟩) (σ.push v v')
      fun a b τ => Q a b τ.pop)
    (hR : ∀ τ, τ.Valid W → S (σ.push v v') τ → τ.left.roots.size = σ.left.roots.size + 1 ∧
      R σ τ.pop) :
    Runs W R (rooted v body) (rooted v' body') σ Q := by
  refine .acquire (U := fun _ => R σ) hv v v' (.ensuring hbody
    fun τ hvt h1 => ?_) fun _ h => h
  obtain ⟨hs, hr⟩ := hR τ hvt h1
  obtain ⟨w, -, hw⟩ := release_apply (ε := ε) hs
  obtain ⟨w', -, hw'⟩ := release_apply (ε := ε) (hvt.depth.trans hs)
  exact ⟨τ.pop, bind_of_ok hw, bind_of_ok hw', rfl, rfl, hvt.pop, hr, fun _ _ h => h⟩

lemma Runs.rooted_keeps {v v' : Handle} {body : Root → HeapM ε α} {body' : Root → HeapM ε α'}
    (hv : σ.Valid W)
    (hbody : Runs W Keeps (body ⟨σ.left.roots.size⟩) (body' ⟨σ.left.roots.size⟩) (σ.push v v')
      fun a b τ => Q a b τ.pop) :
    Runs W Keeps (HeapM.rooted v body) (HeapM.rooted v' body') σ Q :=
  .rooted hv hbody fun _ _ hk => ⟨by rw [hk.roots]; exact Array.size_push _, hk.of_push⟩

lemma Runs.rooted_evolves {v v' : Handle} {body : Root → HeapM ε α} {body' : Root → HeapM ε α'}
    (hv : σ.Valid W) (hm : m ≤ σ.left.roots.size) (hA : ∀ i, A i → i < σ.left.roots.size)
    (hbody : Runs W (Evolves m A) (body ⟨σ.left.roots.size⟩) (body' ⟨σ.left.roots.size⟩)
      (σ.push v v') fun a b τ => Q a b τ.pop) :
    Runs W (Evolves m A) (HeapM.rooted v body) (HeapM.rooted v' body') σ Q :=
  .rooted hv hbody fun _ hvt he => ⟨he.depth.trans (Array.size_push _), he.of_push hv hvt hm hA⟩

/-- Reading a slot. -/
lemma Runs.contents {n : Nat} {v v' : Handle} {f : Handle → HeapM ε β} {g : Handle → HeapM ε β'}
    (hl : σ.left.roots[n]? = some v) (hr : σ.right.roots[n]? = some v')
    (hf : Runs W R (f v) (g v') σ P) :
    Runs W R (contents ⟨n⟩ >>= f) (contents ⟨n⟩ >>= g) σ P :=
  .look (contents_apply hl) (contents_apply hr) hf

/-- Writing a slot. -/
lemma Runs.store (hv : σ.Valid W) {n : Nat} (hn : n < σ.left.roots.size) {r : Role} {v v' : Handle}
    (hr : σ.rel r v v') (hj : ∀ j, r = .draft j → j ≤ n) (hR : R σ (σ.put n v v'))
    {Q : Unit → Unit → Twin → Prop} (hQ : Q () () (σ.put n v v')) :
    Runs W R (store ⟨n⟩ v : HeapM ε Unit) (store ⟨n⟩ v') σ Q :=
  .ok (store_apply hn v) (store_apply (hv.depth ▸ hn) v') (hv.put hr hj) hR hQ

end Twin

end ArenaScheme
