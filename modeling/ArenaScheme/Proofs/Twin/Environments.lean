/-
# Environments in step

Corresponding symbols are bound in corresponding slots of corresponding environments, and what they
are bound to has the role of the symbol.  The bounds on a search never cut it short: a search along
the lists of a frame ends with the list of values at the latest, and a search along frames ends with
the base frame.
-/
import ArenaScheme.Eval.Step
import ArenaScheme.Proofs.Calls.Frames
import ArenaScheme.Proofs.Twin.Lists

namespace ArenaScheme

namespace Heap

variable {h : Heap} {l vs cells cells' : List Handle} {env names values symbol : Handle}
  {p : Option Handle}

/-- What is not found in two parallel lists is not among the names. -/
lemma Row.not_mem_of_slotIn {n : Nat} (hn : h.Row .emptyList l cells names)
    (hv : h.Row .emptyList vs cells' values) (hlen : vs.length = l.length) (hlt : l.length < n)
    (hs : h.slotIn symbol n names values = .ok none) : symbol ∉ l := by
  induction hn generalizing vs cells' values n with
  | nil => simp
  | cons hd _ ih =>
    cases hv with
    | nil => simp at hlen
    | cons hd' hv =>
      obtain ⟨n, rfl⟩ : ∃ n₀, n = n₀ + 1 := ⟨n - 1, by omega⟩
      rw [slotIn_go (pairAt_eq_some.mpr hd) (pairAt_eq_some.mpr hd')] at hs
      split at hs
      · simp at hs
      · next hne =>
        rw [List.mem_cons, not_or]
        exact ⟨Ne.symm hne, ih hv (by simpa using hlen) (by simpa using hlt) hs⟩

lemma not_mem_of_localSlot (hd : h.object? env = some (.frame p names values))
    (hn : h.Row .emptyList l cells names) (hv : h.Row .emptyList vs cells' values)
    (hlen : vs.length = l.length) (hle : l.length ≤ h.cells.size)
    (hs : h.localSlot env symbol = .ok none) : symbol ∉ l := by
  rw [localSlot, frameAt_of_object? hd] at hs
  exact hn.not_mem_of_slotIn hv hlen (Nat.lt_succ_of_le hle) hs

end Heap

namespace Twin

open Heap HeapM

variable {ε α α' β β' : Type} [Fault ε] {W : Regime} {σ τ : Twin} {R : Twin → Twin → Prop}
  {r : Role} {a b a' b' v v' env env' symbol symbol' names names' values values' : Handle}
  {d d' : Datum} {k m n n' : Nat} {l : List Handle} {A : Nat → Prop}

/-! ## Searching one frame -/

/-- Corresponding slots, which hold corresponding objects of a role. -/
def SlotOf (σ : Twin) (r : Role) (u u' : Handle) : Prop :=
  σ.rel .binding u u' ∧ ∃ x c x' c', σ.left.pairAt u = some (x, c) ∧
    σ.right.pairAt u' = some (x', c') ∧ σ.rel r x x' ∧ σ.Known c c'

lemma pairAt_emptyList (hv : σ.Valid W) : σ.left.pairAt .emptyList = none ∧
    σ.right.pairAt .emptyList = none := by
  obtain ⟨-, h1, h2⟩ := hv.sentinel (v := .emptyList) (by decide)
  rw [Heap.pairAt, Heap.pairAt, h1, h2]
  exact ⟨rfl, rfl⟩

lemma Spine.slotIn (hv : σ.Valid W) (hsym : σ.rel r symbol symbol')
    (hs : σ.Spine .binding k values values') (hn : σ.rel .shown names names') (hk : k < n)
    (hk' : k < n') :
    ∃ o o', σ.left.slotIn symbol n names values = .ok o ∧
      σ.right.slotIn symbol' n' names' values' = .ok o' ∧ Option.Rel (σ.SlotOf r) o o' := by
  obtain ⟨n, rfl⟩ : ∃ n₀, n = n₀ + 1 := ⟨n - 1, by omega⟩
  obtain ⟨n', rfl⟩ : ∃ n₀, n' = n₀ + 1 := ⟨n' - 1, by omega⟩
  obtain ⟨s, hval⟩ := hs.known hv
  induction k generalizing names names' values values' n n' s with
  | zero =>
    obtain ⟨rfl, rfl⟩ := hs
    have hnil := pairAt_emptyList hv
    exact ⟨_, _, slotIn_stop (hv.isLive_left hn) (hv.isLive_left hval) (.inr hnil.1),
      slotIn_stop (hv.isLive_right hn) (hv.isLive_right hval) (.inr hnil.2), .none⟩
  | succ k ih =>
    obtain ⟨hb, x, c, x', c', hl, hl', hx, hs⟩ := hs
    cases hp : σ.left.pairAt names with
    | none =>
      exact ⟨_, _, slotIn_stop (hv.isLive_left hn) (hv.isLive_left hval) (.inl hp),
        slotIn_stop (hv.isLive_right hn) (hv.isLive_right hval) (.inl (hv.pairAt_right_none hn hp)),
        .none⟩
    | some np =>
      obtain ⟨nm, ns⟩ := np
      obtain ⟨nm', ns', hp', -⟩ := hv.pairAt_right hn hp
      obtain ⟨hnm, hns⟩ := hv.shown_pair hn hp hp'
      rw [slotIn_go hp hl, slotIn_go hp' hl']
      by_cases he : nm = symbol
      · rw [if_pos he, if_pos ((hv.eq_iff hnm hsym).mp he)]
        obtain rfl := (hv.functional hsym (he ▸ hnm)).1
        exact ⟨_, _, rfl, rfl, .some ⟨hb, x, c, x', c', hl, hl', hx, hs.known hv⟩⟩
      · rw [if_neg he, if_neg (mt (hv.eq_iff hnm hsym).mpr he)]
        obtain ⟨n, rfl⟩ : ∃ n₀, n = n₀ + 1 := ⟨n - 1, by omega⟩
        obtain ⟨n', rfl⟩ : ∃ n₀, n' = n₀ + 1 := ⟨n' - 1, by omega⟩
        obtain ⟨s, hc⟩ := hs.known hv
        exact ih hs hns n (by omega) n' (by omega) s hc

lemma Bindings.slotIn (hv : σ.Valid W) (hsym : σ.rel r symbol symbol')
    (hb : σ.Bindings W l names names' values values') (hk : l.length < n) (hk' : l.length < n') :
    ∃ o o', σ.left.slotIn symbol n names values = .ok o ∧
      σ.right.slotIn symbol' n' names' values' = .ok o' ∧ Option.Rel (σ.SlotOf r) o o' := by
  induction hb generalizing n n' with
  | made hn _ hs => exact hs.slotIn hv hsym hn hk hk'
  | @added _ _ _ _ _ _ _ s _ _ _ _ _ _ _ _ hl hr hval hl' hr' _ hs hx _ _ hb ih =>
    simp only [List.length_cons] at hk hk'
    obtain ⟨n, rfl⟩ : ∃ n₀, n = n₀ + 1 := ⟨n - 1, by omega⟩
    obtain ⟨n', rfl⟩ : ∃ n₀, n' = n₀ + 1 := ⟨n' - 1, by omega⟩
    rw [slotIn_go hl hl', slotIn_go hr hr']
    by_cases he : s = symbol
    · rw [if_pos he, if_pos ((hv.eq_iff hs hsym).mp he)]
      obtain rfl := (hv.functional hsym (he ▸ hs)).1
      exact ⟨_, _, rfl, rfl, .some ⟨hval, _, _, _, _, hl', hr', hx, (hb.known hv).2⟩⟩
    · rw [if_neg he, if_neg (mt (hv.eq_iff hs hsym).mpr he)]
      exact ih (by omega) (by omega)

/-- The list of the values of a frame ends. -/
lemma Spine.ends (hv : σ.Valid W) (hs : σ.Spine r k v v') :
    Ends (fun u => (σ.left.pairAt u).map Prod.snd) k v ∧
      Ends (fun u => (σ.right.pairAt u).map Prod.snd) k v' := by
  induction k generalizing v v' with
  | zero =>
    obtain ⟨rfl, rfl⟩ := hs
    have hnil := pairAt_emptyList hv
    exact ⟨by simp [Ends, hnil.1], by simp [Ends, hnil.2]⟩
  | succ k ih =>
    obtain ⟨-, x, c, x', c', hl, hl', -, hs⟩ := hs
    have h := ih hs
    exact ⟨⟨c, by simp [hl], h.1⟩, ⟨c', by simp [hl'], h.2⟩⟩

lemma Bindings.ends (hv : σ.Valid W) (hb : σ.Bindings W l names names' values values') :
    Ends (fun u => (σ.left.pairAt u).map Prod.snd) l.length values ∧
      Ends (fun u => (σ.right.pairAt u).map Prod.snd) l.length values' := by
  induction hb with
  | made _ _ hs => exact hs.ends hv
  | added _ _ _ _ hl hr _ _ _ _ _ _ ih => exact ⟨⟨_, by simp [hl], ih.1⟩, ⟨_, by simp [hr], ih.2⟩⟩

/-- The lists of a frame are no drafts. -/
lemma Bindings.role (hv : σ.Valid W) (hb : σ.Bindings W l names names' values values') :
    (∃ s, σ.rel s names names' ∧ ∀ j, s ≠ .draft j) ∧ ∃ s, σ.rel s values values' ∧
      ∀ j, s ≠ .draft j := by
  cases hb with
  | made hn _ hs =>
    refine ⟨⟨_, hn, by simp⟩, ?_⟩
    rcases hs.role hv with h | h
    · exact ⟨_, h, by simp⟩
    · exact ⟨_, h, by simp⟩
  | added hn _ _ hval => exact ⟨⟨_, hn, by simp⟩, _, hval, by simp⟩

/-- The list of values of a frame is proper. -/
lemma Bindings.row_values (hb : σ.Bindings W l names names' values values') :
    ∃ vs cells, vs.length = l.length ∧ σ.left.Row .emptyList vs cells values := by
  induction hb with
  | made _ _ hs => exact hs.row
  | added _ _ _ _ hl _ _ _ _ _ _ _ ih =>
    obtain ⟨vs, cells, hlen, hrow⟩ := ih
    exact ⟨_, _, congrArg (· + 1) hlen, .cons (pairAt_eq_some.mp hl) hrow⟩

/-- If the program cannot change pairs then the list of names is proper too. -/
lemma Bindings.row_names (hb : σ.Bindings W l names names' values values') (hw : ¬ W.rewriting) :
    ∃ cells, σ.left.Row .emptyList l cells names := by
  induction hb with
  | made _ hl _ => exact (hl hw).row
  | added _ hl _ _ _ _ _ _ _ _ _ _ ih =>
    obtain ⟨cells, hrow⟩ := ih
    exact ⟨_, .cons (pairAt_eq_some.mp hl) hrow⟩

lemma Bindings.le (hv : σ.Valid W) (hb : σ.Bindings W l names names' values values') :
    l.length ≤ σ.left.cells.size ∧ l.length ≤ σ.right.cells.size := by
  have hlt : ∀ {h : Heap} (u w : Handle), (h.pairAt u).map Prod.snd = some w →
      u.index < h.cells.size := fun u w hw => by
    obtain ⟨p, hp, -⟩ := Option.map_eq_some_iff.mp hw
    exact lt_size_of_pairAt (by rw [hp]; rfl)
  have h := hb.ends hv
  exact ⟨h.1.le hlt, h.2.le hlt⟩

/-- The contents of corresponding frames. -/
lemma Valid.frame (hv : σ.Valid W) (he : σ.rel .shown env env') {p : Option Handle}
    {ns vs : Handle} (hd : σ.left.object? env = some (.frame p ns vs)) :
    ∃ p' ns' vs' l, σ.right.object? env' = some (.frame p' ns' vs') ∧
      Option.Rel (σ.rel .shown) p p' ∧ (∀ q, p = some q → σ.left.Scope q) ∧
      σ.Bindings W l ns ns' vs vs' := by
  obtain ⟨d', hd', hf⟩ := hv.data_of_left he hd
  cases hf with
  | atom _ hc => cases p <;> simp [Datum.children] at hc
  | frame hp hs hb => exact ⟨_, _, _, _, hd', hp, hs, hb⟩

/-- The slots of corresponding symbols in corresponding frames. -/
lemma Valid.localSlot (hv : σ.Valid W) (he : σ.rel .shown env env') (hs : σ.left.Scope env)
    (hsym : σ.rel r symbol symbol') :
    ∃ o o', σ.left.localSlot env symbol = .ok o ∧ σ.right.localSlot env' symbol' = .ok o' ∧
      Option.Rel (σ.SlotOf r) o o' := by
  obtain ⟨p, ns, vs, hd⟩ := hs.frame
  obtain ⟨p', ns', vs', k, hd', -, -, hb⟩ := hv.frame he hd
  obtain ⟨h1, h2⟩ := hb.le hv
  obtain ⟨o, o', ho, ho', hr⟩ := hb.slotIn hv hsym (Nat.lt_succ_of_le h1) (Nat.lt_succ_of_le h2)
  refine ⟨o, o', ?_, ?_, hr⟩
  · rw [Heap.localSlot, frameAt_of_object? hd]
    exact ho
  · rw [Heap.localSlot, frameAt_of_object? hd']
    exact ho'

/-! ## Searching all frames -/

lemma Valid.scope_ends (hv : σ.Valid W) (he : σ.rel .shown env env') (hs : σ.left.Scope env) :
    ∃ k, Ends (parentAt σ.left) k env ∧ Ends (parentAt σ.right) k env' := by
  induction hs generalizing env' with
  | base hd =>
    obtain ⟨p', ns', vs', k, hd', hp, -, -⟩ := hv.frame he hd
    cases hp
    exact ⟨0, parentAt_of_object? hd, parentAt_of_object? hd'⟩
  | child hd _ ih =>
    obtain ⟨p', ns', vs', k, hd', hp, -, -⟩ := hv.frame he hd
    obtain ⟨hp⟩ := hp
    obtain ⟨k, h1, h2⟩ := ih hp
    exact ⟨k + 1, ⟨_, parentAt_of_object? hd, h1⟩, ⟨_, parentAt_of_object? hd', h2⟩⟩

lemma Valid.slotFrom (hv : σ.Valid W) (he : σ.rel .shown env env') (hs : σ.left.Scope env)
    (hsym : σ.rel r symbol symbol') (hk : Ends (parentAt σ.left) k env) (hn : k < n)
    (hn' : k < n') :
    ∃ o o', σ.left.slotFrom symbol n env = .ok o ∧ σ.right.slotFrom symbol' n' env' = .ok o' ∧
      Option.Rel (σ.SlotOf r) o o' := by
  induction k generalizing env env' n n' with
  | zero | succ k ih =>
    obtain ⟨n, rfl⟩ : ∃ n₀, n = n₀ + 1 := ⟨n - 1, by omega⟩
    obtain ⟨n', rfl⟩ : ∃ n₀, n' = n₀ + 1 := ⟨n' - 1, by omega⟩
    obtain ⟨p, ns, vs, hd⟩ := hs.frame
    obtain ⟨p', ns', vs', -, hd', hp, hsc, -⟩ := hv.frame he hd
    obtain ⟨o, o', ho, ho', hr⟩ := hv.localSlot he hs hsym
    rw [slotFrom_succ hd ho, slotFrom_succ hd' ho']
    cases hr with
    | some hr => exact ⟨_, _, rfl, rfl, .some hr⟩
    | none =>
      cases hp with
      | none => exact ⟨_, _, rfl, rfl, .none⟩
      | @some q q' hq =>
        first
        | -- the base frame has no parent
          exact absurd (hk.symm.trans (parentAt_of_object? hd)) (by simp)
        | obtain ⟨w, hw, hk⟩ := hk
          obtain rfl : q = w := Option.some.inj ((parentAt_of_object? hd).symm.trans hw)
          exact ih hq (hsc q rfl) hk (by omega) (by omega)

/-- The slots of corresponding symbols in corresponding environments. -/
lemma Valid.nearestSlot (hv : σ.Valid W) (he : σ.rel .shown env env') (hs : σ.left.Scope env)
    (hsym : σ.rel r symbol symbol') :
    ∃ o o', σ.left.nearestSlot env symbol = .ok o ∧ σ.right.nearestSlot env' symbol' = .ok o' ∧
      Option.Rel (σ.SlotOf r) o o' := by
  obtain ⟨k, h1, h2⟩ := hv.scope_ends he hs
  exact hv.slotFrom he hs hsym h1 (Nat.lt_succ_of_le (h1.le lt_size_of_parentAt))
    (Nat.lt_succ_of_le (h2.le lt_size_of_parentAt))

/-! ## Variables -/

variable {P : β → β' → Twin → Prop}

/-- Failing because a symbol is not bound. -/
lemma Runs.unbound [Motion R] (hv : σ.Valid W) (hsym : σ.rel r symbol symbol')
    (ht : σ.left.typeAt symbol = some .symbol) {Q : α → α' → Twin → Prop} :
    Runs W R (unbound symbol) (unbound symbol') σ Q := by
  obtain ⟨d, d', hd, hd', hf⟩ := hv.data hsym
  obtain ⟨s, rfl⟩ : ∃ s, d = .symbol s := by
    rw [typeAt, hd] at ht
    cases d <;> simp_all [Datum.type]
  cases hf with
  | atom | secret =>
    exact .look (expect_apply hd .symbol rfl) (expect_apply hd' .symbol rfl) (.raise hv _ _)

/-- Looking up corresponding symbols. -/
lemma Runs.lookup (hv : σ.Valid W) (he : σ.rel .shown env env') (hs : σ.left.Scope env)
    (hsym : σ.rel r symbol symbol') (ht : σ.left.typeAt symbol = some .symbol) :
    Runs W Keeps (lookup env symbol) (lookup env' symbol') σ fun v v' τ => τ.rel r v v' := by
  obtain ⟨o, o', ho, ho', hr⟩ := hv.nearestSlot he hs hsym
  unfold HeapM.lookup find?
  rw [bind_assoc, bind_assoc]
  refine .look (by rw [inspect, ho]) (by rw [inspect, ho']) ?_
  cases hr with
  | none => exact .unbound hv hsym ht
  | some hr =>
    obtain ⟨-, x, c, x', c', hl, hl', hx, -⟩ := hr
    dsimp only
    rw [bind_assoc, bind_assoc]
    refine .look (car_apply hl) (car_apply hl') ?_
    exact .pure hv hx

/-- Overwriting what corresponding slots hold. -/
lemma Runs.assignSlot (hv : σ.Valid W) (hA : σ.Active A) (hs : σ.SlotOf r v v')
    {x x' : Handle} (hx : σ.rel r x x') :
    Runs W (Evolves m A) (HeapM.setCar v x : HeapM ε Unit) (HeapM.setCar v' x') σ
      fun _ _ τ => τ.rel = σ.rel := by
  obtain ⟨hb, y, c, y', c', hl, hl', hy, hc⟩ := hs
  have hf : Fits W σ .binding (.pair x c) (.pair x' c') := .binding ⟨_, hx⟩ hc
  have hrep : Replaces W σ .binding (.pair y c) (.pair y' c') (.pair x c) (.pair x' c') :=
    .value hy hx
  refine .ok (τ := σ.write v v' (.pair x c) (.pair x' c')) (setCar_apply hl x) (setCar_apply hl' x')
    (hv.write hb (pairAt_eq_some.mp hl) (pairAt_eq_some.mp hl') hf hrep) ?_ rfl
  exact evolves_write (pairAt_eq_some.mp hl) hb rfl hrep hv
    (fun hp => absurd hp (hA.not_part hv hb (by simp))) (by simp)

/-- Assigning to corresponding symbols. -/
lemma Runs.assign (hv : σ.Valid W) (hA : σ.Active A) (he : σ.rel .shown env env')
    (hs : σ.left.Scope env) (hsym : σ.rel r symbol symbol')
    (ht : σ.left.typeAt symbol = some .symbol) (hx : σ.rel r v v') :
    Runs W (Evolves m A) (assign env symbol v) (assign env' symbol' v') σ
      fun u u' τ => τ.rel r u u' := by
  obtain ⟨o, o', ho, ho', hr⟩ := hv.nearestSlot he hs hsym
  unfold HeapM.assign
  refine .look (by rw [inspect, ho]) (by rw [inspect, ho']) ?_
  cases hr with
  | none => exact .unbound hv hsym ht
  | some hr => exact (Runs.assignSlot hv hA hr hx).bind fun _ _ τ hvt _ hq => .pure hvt (hq ▸ hx)

/-- Replacing the lists of corresponding frames. -/
lemma Runs.setBindings (hv : σ.Valid W) (he : σ.rel .shown env env') (hs : σ.left.Scope env)
    (hb : σ.Bindings W l names names' values values') :
    Runs W (Evolves m A) (HeapM.setBindings env names values : HeapM ε Unit)
      (HeapM.setBindings env' names' values') σ fun _ _ τ => τ.rel = σ.rel := by
  obtain ⟨p, ns, vs, hd⟩ := hs.frame
  obtain ⟨p', ns', vs', -, hd', hp, hsc, -⟩ := hv.frame he hd
  have hf : Fits W σ .shown (.frame p names values) (.frame p' names' values') := .frame hp hsc hb
  have hrep : Replaces W σ .shown (.frame p ns vs) (.frame p' ns' vs') (.frame p names values)
    (.frame p' names' values') := .frame
  refine .ok (τ := σ.write env env' (.frame p names values) (.frame p' names' values'))
    (setBindings_apply hd names values) (setBindings_apply hd' names' values')
    (hv.write he hd hd' hf hrep) (evolves_write hd he rfl hrep hv (fun _ => rfl) (by simp)) rfl

lemma Bindings.keep {extra : List Handle} (hvt : τ.Valid W)
    (hrel : ∀ {s a b}, σ.left.Reachable extra a → σ.rel s a b → τ.rel s a b)
    (hobj : ∀ {a}, σ.left.Reachable extra a → τ.left.object? a = σ.left.object? a)
    (hn : σ.left.Reachable extra names) (hval : σ.left.Reachable extra values)
    (hb : σ.Bindings W l names names' values values') :
    τ.Bindings W l names names' values values' := by
  have hpair : ∀ {u x c}, σ.left.Reachable extra u → σ.left.pairAt u = some (x, c) →
      τ.left.pairAt u = some (x, c) := fun hu hp => by
    rw [Heap.pairAt, hobj hu, ← Heap.pairAt, hp]
  induction hb with
  | made hn' hl hs =>
    exact .made (hrel hn hn') (fun hw => (hl hw).keep hn fun _ => hobj) (hs.keep hvt hrel hobj hval)
  | added hn' hl hr hval' hl' hr' hd hs hx hname hnew _ ih =>
    have hb := ih (hn.cdr hl) (hval.cdr hl')
    have h1 := hpair hn hl
    have h2 := hpair hval hl'
    have hs' := hrel (hn.car hl) hs
    have hname' := (hobj (hn.car hl)).trans hname
    have hx' := hrel (hval.car hl') hx
    exact .added (hrel hn hn') h1
      (hvt.pairAt_right_of_known (hrel hn hn') h1 ⟨_, hs'⟩ (hb.known hvt).1) (hrel hval hval') h2
      (hvt.pairAt_right_of_known (hrel hval hval') h2 ⟨_, hx'⟩ (hb.known hvt).2) hd hs' hx'
      hname' hnew hb

/-- Extending the lists of corresponding frames that can be reached by corresponding bindings. -/
lemma Runs.extend (hv : σ.Valid W) (hm : m ≤ σ.left.roots.size)
    (hA : ∀ i, A i → i < σ.left.roots.size) (he : σ.Holds .shown env env') (hs : σ.left.Scope env)
    (hsym : σ.rel r symbol symbol') {name : String}
    (hname : σ.left.object? symbol = some (.symbol name))
    (hnew : ∀ {l p ns ns' vs vs'}, σ.left.object? env = some (.frame p ns vs) →
      σ.Bindings W l ns ns' vs vs' → ¬ W.rewriting → symbol ∉ l)
        (hx : σ.Holds r v v') (hr : ∀ k, r ≠ .draft k) :
    Runs W (Evolves m A)
      (do
        let (_, names, values) ← frameParts env
        let names ← HeapM.cons symbol names
        HeapM.rooted names fun _ => do
          let values ← HeapM.cons v values
          HeapM.setBindings env names values
          return v)
      (do
        let (_, names, values) ← frameParts env'
        let names ← HeapM.cons symbol' names
        HeapM.rooted names fun _ => do
          let values ← HeapM.cons v' values
          HeapM.setBindings env' names values
          return v') σ fun u u' τ => τ.rel r u u' := by
  obtain ⟨p, ns, vs, hd⟩ := hs.frame
  obtain ⟨p', ns', vs', k, hd', -, -, hb⟩ := hv.frame he.1 hd
  have hns : σ.left.Reachable [] ns := .child he.2 hd (by simp [Datum.children])
  have hvs : σ.left.Reachable [] vs := .child he.2 hd (by simp [Datum.children])
  obtain ⟨hkn, hkv⟩ := hb.known hv
  refine .look (frameParts_apply hd) (frameParts_apply hd') ?_
  -- the new pair of the list of names
  refine .bind_keeps (.alloc hv (.naming ⟨_, hsym⟩ hkn)) fun nm nm' τ hvt h1 hnm => ?_
  have hτ : τ.left.roots.size = σ.left.roots.size := by rw [h1.roots]
  have hvp := hvt.push hnm.rel (by simp)
  refine .rooted_evolves hvt (hτ ▸ hm) (hτ ▸ hA) ?_
  have hpush : ∀ {a}, τ.left.Reachable [] a → (τ.push nm nm').left.Reachable [] a :=
    fun ha => reachable_push ha nm nm'
  have hsym1 := hnm.held (.of_extra (by simp [Datum.children])) hsym
  have hname1 := (hnm.kept (.of_extra (by simp [Datum.children]))).trans hname
  have hb1 := hb.keep hvt h1.rel h1.object hns hvs
  have hslot := reachable_of_push (σ := τ) nm nm'
  -- the new pair of the list of values
  refine .bind_keeps (.alloc hvp (.binding ⟨_, (h1.holds hx).1⟩ (hb1.known hvt).2))
    fun vl vl' υ hvu h2 hvl => ?_
  have hnmυ := (h2.pairAt hslot).trans hnm.pairAt
  have hsymυ := h2.rel (hslot.car hnm.pairAt) hsym1
  have hnameυ := (h2.object (hslot.car hnm.pairAt)).trans hname1
  have hxυ := h2.rel (hpush (h1.holds hx).2) (h1.holds hx).1
  have hbυ := Bindings.keep (σ := τ) hvu (fun ha => h2.rel (hpush ha))
    (fun ha => h2.object (hpush ha)) (h1.reachable hns) (h1.reachable hvs) hb1
  have heυ := h2.rel (hpush (h1.holds he).2) (h1.holds he).1
  have hsυ := hvu.scope_of_frame heυ
    ((h2.object (hpush (h1.holds he).2)).trans ((h1.object he.2).trans hd))
  have hrel := h2.rel hslot hnm.rel
  refine (Runs.setBindings hvu heυ hsυ (.added hrel hnmυ (hvu.pairAt_right_of_known hrel hnmυ
    ⟨_, hsymυ⟩ (hbυ.known hvu).1) hvl.rel hvl.pairAt (hvu.pairAt_right_of_known hvl.rel hvl.pairAt
    ⟨_, hxυ⟩ (hbυ.known hvu).2) hr hsymυ hxυ hnameυ (hnew hd hb) hbυ)).bind fun _ _ ω hvw _ hq =>
      .pure hvw ?_
  change ω.rel r v v'
  rw [hq]
  exact hxυ

/-- Binding corresponding symbols to corresponding objects of their role. -/
lemma Runs.define (hv : σ.Valid W) (hm : m ≤ σ.left.roots.size) (hA : σ.Active A)
    (he : σ.rel .shown env env') (hs : σ.left.Scope env) (hsym : σ.rel r symbol symbol')
    (ht : σ.left.typeAt symbol = some .symbol) (hx : σ.rel r v v') (hr : ∀ k, r ≠ .draft k) :
    Runs W (Evolves m A) (HeapM.define env symbol v) (HeapM.define env' symbol' v') σ
      fun u u' τ => τ.rel r u u' := by
  obtain ⟨o, o', ho, ho', hso⟩ := hv.localSlot he hs hsym
  refine .look (by rw [inspect, ho]) (by rw [inspect, ho']) ?_
  cases hso with
  | some hso => exact (Runs.assignSlot hv hA hso hx).bind fun _ _ τ hvt _ hq => .pure hvt (hq ▸ hx)
  | none =>
    have hv1 := hv.push he (by simp)
    have hs1 : (σ.push env env').left.roots.size = σ.left.roots.size + 1 := Array.size_push _
    have hv2 := hv1.push hx fun j hj => absurd hj (hr j)
    have hs2 : ((σ.push env env').push v v').left.roots.size = σ.left.roots.size + 1 + 1 :=
      (Array.size_push _).trans (congrArg (· + 1) hs1)
    have hlt : ∀ i, A i → i < σ.left.roots.size := fun i hi => hA.lt hi
    obtain ⟨p, ns, vs, hd⟩ := hs.frame
    obtain ⟨name, hname⟩ := type_eq_symbol.mp ht
    refine .rooted_evolves hv hm hlt (.rooted_evolves hv1 (by omega)
      (fun i hi => by have := hlt i hi; omega) ?_)
    refine (Runs.extend hv2 (by omega) (fun i hi => by have := hlt i hi; omega)
      ⟨he, reachable_push (reachable_of_push env env') v v'⟩ (hv2.scope_of_frame he hd) hsym
      hname (fun hd hb hw => ?_) ⟨hx, reachable_of_push v v'⟩ hr).post fun _ _ _ _ _ h => h
    -- the names of the frame are those that have been searched
    obtain ⟨_, hnames⟩ := hb.row_names hw
    obtain ⟨_, _, hlen, hvalues⟩ := hb.row_values
    exact not_mem_of_localSlot (h := σ.left) hd (hnames.congr fun _ _ => rfl)
      (hvalues.congr fun _ _ => rfl) hlen (hb.le hv2).1 ho

/-! ## Current frames -/

lemma frame_of_typeAt {h : Heap} (ht : h.typeAt v = some .environment) :
    ∃ p ns vs, h.object? v = some (.frame p ns vs) := by
  unfold typeAt at ht
  obtain ⟨d, hd, ht⟩ := Option.map_eq_some_iff.mp ht
  cases d <;> simp [Datum.type] at ht
  exact ⟨_, _, _, hd⟩

/-- Switching to corresponding frames. -/
lemma Runs.setCurrentEnv (hv : σ.Valid W) (he : σ.rel .shown env env') (hs : σ.left.Scope env) :
    Runs W (Evolves m A) (HeapM.setCurrentEnv env : HeapM ε Unit) (HeapM.setCurrentEnv env') σ
      fun _ _ τ => τ = σ.switch env env' := by
  obtain ⟨p, ns, vs, hd⟩ := hs.frame
  obtain ⟨p', ns', vs', -, hd', -⟩ := hv.frame he hd
  exact .ok (τ := σ.switch env env') (setCurrentEnv_frame hd) (setCurrentEnv_frame hd')
    (hv.switch he hs) (evolves_switch env env') rfl

/-- Making corresponding children of the current frames and switching to them. -/
lemma Runs.pushFrame (hv : σ.Valid W) (hb : σ.Bindings W l names names' values values') :
    Runs W (Evolves m A) (HeapM.pushFrame names values) (HeapM.pushFrame names' values') σ
      fun _ _ τ => ∀ {r a b}, σ.Holds r a b → τ.rel r a b := by
  refine .look (a := σ.left.currentEnv) (b := σ.right.currentEnv) rfl rfl ?_
  refine .bind_keeps (.alloc hv (.frame (.some hv.current) ?_ hb)) fun f f' τ hvt hk hn => ?_
  · rintro _ ⟨⟩
    exact hv.currentScope
  · exact .ok (a := f) (b := f') (τ := τ.switch f f') rfl rfl
      (hvt.switch hn.rel (hvt.scope_of_frame hn.rel hn.object)) (evolves_switch f f')
      fun h => (hk.holds h).1

/-- Returning to the current frames after actions that leave older slots alone. -/
lemma Runs.keepingEnv (hv : σ.Valid W) (hA : ∀ i, A i → i < σ.left.roots.size) {x : EvalM α}
    {y : EvalM α'} {Q : α → α' → Twin → Prop}
    (hx : Runs W (Evolves (σ.left.roots.size + 1) A) x y
      (σ.push σ.left.currentEnv σ.right.currentEnv) Q)
    (hQ : ∀ a b τ e e', Q a b τ → Q a b (τ.switch e e').pop) :
    Runs W (Evolves σ.left.roots.size A) (HeapM.keepingEnv x) (HeapM.keepingEnv y) σ Q := by
  refine .look (a := σ.left.currentEnv) (b := σ.right.currentEnv) rfl rfl ?_
  refine .rooted (S := Evolves σ.left.roots.size A) hv ?_ fun τ hvt he =>
    ⟨he.depth.trans (Array.size_push _), he.of_push hv hvt le_rfl hA⟩
  refine .ensuring hx fun τ hvt he => ?_
  -- the slot still holds the old frame, which still is a frame
  have hslot : (σ.push σ.left.currentEnv σ.right.currentEnv).Pinned (σ.left.roots.size + 1) A
      σ.left.currentEnv := .slot (Nat.lt_succ_self _) Array.getElem?_push_size
  have hrel := he.rel hslot (by simp) hv.current
  obtain ⟨p, ns, vs, hd⟩ := hv.currentScope.frame
  have ht : τ.left.typeAt σ.left.currentEnv = some .environment := by
    rw [he.type hslot]
    change σ.left.typeAt _ = _
    rw [typeAt, hd]
    rfl
  obtain ⟨p, ns, vs, hd⟩ := frame_of_typeAt ht
  have hs := hvt.scope_of_frame hrel hd
  obtain ⟨p', ns', vs', -, hd', -⟩ := hvt.frame hrel hd
  exact ⟨τ.switch _ _, setCurrentEnv_frame hd, setCurrentEnv_frame hd', rfl, rfl,
    hvt.switch hrel hs, Motion.trans (he.mono (Nat.le_succ _) fun _ h => h) (evolves_switch _ _),
    fun a b hq => hQ a b τ _ _ hq⟩

end Twin

end ArenaScheme
