/-
# Built-in procedures in step

A built-in procedure gets its arguments as a list under construction, looks at them, and makes an
object or changes one.  It never tells the program how large a handle is, nor when a collection has
happened; the one procedure that reports on a collection is for runs that are the same.

The two procedures that change pairs may change expressions under evaluation.  Then the twin has not
evolved, but it has *changed*.
-/
import ArenaScheme.Procedures
import ArenaScheme.Proofs.Twin.Environments

namespace ArenaScheme

namespace Twin

open Heap HeapM Builtin

variable {ε α α' β β' : Type} [Fault ε] {W : Regime} {σ τ : Twin} {R : Twin → Twin → Prop}
  {r : Role} {a b a' b' v v' args args' : Handle} {vs vs' : List Handle} {d d' : Datum} {m n : Nat}
  {A : Nat → Prop} {p : Builtin}

/-! ## Checking arguments -/

/-- The elements of corresponding argument lists. -/
lemma Runs.arguments (hv : σ.Valid W) (hs : σ.Spine r n args args') :
    Runs W Keeps (Builtin.arguments args) (Builtin.arguments args') σ fun vs vs' τ =>
      τ = σ ∧ List.Forall₂ (σ.rel .shown) vs vs' := by
  refine .items hv (follows_spine hv r (T := fun _ => True) fun _ _ => ⟨trivial, trivial⟩)
    ⟨⟨n, hs⟩, trivial⟩ (fun vs vs' hvs => .pure hv ⟨rfl, hvs.imp fun _ _ h => h.1⟩)
    (.pure hv ⟨rfl, .nil⟩)

lemma Runs.wrongArgument [Motion R] (hv : σ.Valid W) (p : Builtin) (wanted : String)
    (hab : σ.rel r a b) {Q : α → α' → Twin → Prop} :
    Runs W R (p.wrongArgument wanted a) (p.wrongArgument wanted b) σ Q :=
  .typeOf hv hab fun _ _ => .raise hv _ _

/-- Corresponding error objects are corresponding failures. -/
lemma matched_of_typeAt (hv : σ.Valid W) (hab : σ.rel .shown a b)
    (ht : σ.left.typeAt a = some .error) : Fault.matched σ a b := by
  obtain ⟨d, hd⟩ := isLive_iff.mp (hv.isLive_left hab)
  rw [typeAt, hd] at ht
  cases d <;> simp [Datum.type] at ht
  exact ⟨hab, _, _, hd⟩

lemma Runs.passErrors (hv : σ.Valid W) (hvs : List.Forall₂ (σ.rel .shown) vs vs') :
    Runs W Keeps (Builtin.passErrors vs) (Builtin.passErrors vs') σ fun _ _ τ => τ = σ := by
  unfold Builtin.passErrors
  rw [List.forM_eq_forM]
  induction hvs with
  | nil => exact .pure hv rfl
  | @cons x x' vs vs' hx _ ih =>
    rw [List.forM_cons, List.forM_cons]
    refine .bind (Q := fun _ _ τ => τ = σ) (.hasType hv hx .error (fun ht => ?_) fun _ => ?_) ?_
    · exact .fail hv (matched_of_typeAt hv hx ht)
    · exact .pure hv rfl
    · rintro _ _ _ _ _ rfl
      exact ih

lemma Runs.anyArgument (hv : σ.Valid W) (p : Builtin) (hs : σ.Spine r n args args') :
    Runs W Keeps (p.anyArgument args) (p.anyArgument args') σ fun v v' τ =>
      τ = σ ∧ σ.rel .shown v v' := by
  refine (Runs.arguments hv hs).bind ?_
  rintro vs vs' _ _ - ⟨rfl, hvs⟩
  rcases hvs with _ | ⟨h1, _ | ⟨h2, h3⟩⟩
  · exact .raise hv _ _
  · exact .pure hv ⟨rfl, h1⟩
  · dsimp only
    rw [List.length_cons, List.length_cons, List.length_cons, List.length_cons, h3.length_eq]
    exact .raise hv _ _

lemma Runs.oneArgument (hv : σ.Valid W) (p : Builtin) (hs : σ.Spine r n args args') :
    Runs W Keeps (p.oneArgument args) (p.oneArgument args') σ fun v v' τ =>
      τ = σ ∧ σ.rel .shown v v' := by
  refine (Runs.anyArgument hv p hs).bind ?_
  rintro v v' _ _ - ⟨rfl, h⟩
  refine (Runs.passErrors hv (.cons h .nil)).bind ?_
  rintro _ _ _ _ - rfl
  exact .pure hv ⟨rfl, h⟩

lemma Runs.twoArguments (hv : σ.Valid W) (p : Builtin) (hs : σ.Spine r n args args') :
    Runs W Keeps (p.twoArguments args) (p.twoArguments args') σ fun v v' τ =>
      τ = σ ∧ σ.rel .shown v.1 v'.1 ∧ σ.rel .shown v.2 v'.2 := by
  refine (Runs.arguments hv hs).bind ?_
  rintro vs vs' _ _ - ⟨rfl, hvs⟩
  rcases hvs with _ | ⟨h1, _ | ⟨h2, _ | ⟨h3, h4⟩⟩⟩
  · exact .raise hv _ _
  · exact .raise hv _ _
  · refine (Runs.passErrors hv (.cons h1 (.cons h2 .nil))).bind ?_
    rintro _ _ _ _ - rfl
    exact .pure hv ⟨rfl, h1, h2⟩
  · dsimp only
    simp only [List.length_cons, h4.length_eq]
    exact .raise hv _ _

lemma Runs.noArgument (hv : σ.Valid W) (p : Builtin) (hs : σ.Spine r n args args') :
    Runs W Keeps (p.noArgument args) (p.noArgument args') σ fun _ _ τ => τ = σ := by
  refine (Runs.arguments hv hs).bind ?_
  rintro vs vs' _ _ - ⟨rfl, hvs⟩
  rcases hvs with _ | ⟨h1, h2⟩
  · exact .pure hv rfl
  · dsimp only
    simp only [List.length_cons, h2.length_eq]
    exact .raise hv _ _

lemma Runs.manyArguments (hv : σ.Valid W) (p : Builtin) (least : Nat)
    (hs : σ.Spine r n args args') :
    Runs W Keeps (p.manyArguments least args) (p.manyArguments least args') σ fun vs vs' τ =>
      τ = σ ∧ least ≤ vs.length ∧ List.Forall₂ (σ.rel .shown) vs vs' := by
  refine (Runs.arguments hv hs).bind ?_
  rintro vs vs' _ _ - ⟨rfl, hvs⟩
  rw [← hvs.length_eq]
  refine .ite Iff.rfl (fun _ => .raise hv _ _) fun hle => (Runs.passErrors hv hvs).bind ?_
  rintro _ _ _ _ - rfl
  exact .pure hv ⟨rfl, Nat.not_lt.mp hle, hvs⟩

/-! ## Numbers and tests -/

lemma Runs.numberArgument (hv : σ.Valid W) (p : Builtin) (hab : σ.rel .shown a b) :
    Runs W Keeps (p.numberArgument a) (p.numberArgument b) σ fun x y τ => τ = σ ∧ x = y := by
  refine .datum hv hab fun d d' hd hd' hf => ?_
  cases hf with
  | atom =>
    cases d with
    | int | real => exact .pure hv ⟨rfl, rfl⟩
    | _ => exact .wrongArgument hv p _ hab
  | _ => exact .wrongArgument hv p _ hab

lemma Runs.numbers (hv : σ.Valid W) (p : Builtin) (least : Nat) (hs : σ.Spine r n args args') :
    Runs W Keeps (p.numbers least args) (p.numbers least args') σ fun xs ys τ =>
      τ = σ ∧ least ≤ xs.length ∧ xs = ys := by
  refine (Runs.manyArguments hv p least hs).bind ?_
  rintro vs vs' _ _ - ⟨rfl, hle, hvs⟩
  refine (Runs.mapM hv hvs fun v v' => Runs.numberArgument hv p).post ?_
  rintro xs ys _ - - ⟨rfl, hlen, h⟩
  exact ⟨rfl, hlen ▸ hle, by rwa [List.forall₂_eq_eq_eq] at h⟩

lemma Runs.makeNumber (hv : σ.Valid W) (p : Builtin) (x : Except ArithmeticFault Num) :
    Runs W Keeps (p.makeNumber x) (p.makeNumber x) σ fun v v' τ => τ.rel .shown v v' := by
  rcases x with (_ | _) | (n | x)
  · exact .raise hv _ _
  · exact .raise hv _ _
  · exact .makeInt hv n
  · exact .makeReal hv x

/-- There is a first number to calculate with. -/
lemma Runs.calculate (hv : σ.Valid W) (p : Builtin)
    (rule : Num → List Num → Except ArithmeticFault Num) (hs : σ.Spine r n args args') :
    Runs W Keeps (p.calculate rule args) (p.calculate rule args') σ fun v v' τ =>
      τ.rel .shown v v' := by
  refine (Runs.numbers hv p 1 hs).bind ?_
  rintro xs _ _ _ - ⟨rfl, hle, rfl⟩
  cases xs with
  | nil => exact absurd hle (Nat.not_succ_le_zero 0)
  | cons => exact .makeNumber hv _ _

lemma rel_ofBool (hv : σ.Valid W) (t : Bool) : σ.rel .shown (.ofBool t) (.ofBool t) := by
  cases t
  · exact (hv.sentinel (v := .falseObject) (by decide)).1
  · exact (hv.sentinel (v := .trueObject) (by decide)).1

lemma Runs.testType (hv : σ.Valid W) (hab : σ.rel r a b) (t : DatumType) :
    Runs W Keeps (HeapM.hasType t a : EvalM Bool) (HeapM.hasType t b) σ fun x y τ =>
      τ = σ ∧ x = y ∧ (x = true ↔ σ.left.typeAt a = some t) := by
  have h := Runs.hasType (R := Keeps) (f := Pure.pure) (g := Pure.pure) (ε := Handle)
    (P := fun x y τ => τ = σ ∧ x = y ∧ (x = true ↔ σ.left.typeAt a = some t)) hv hab t
    (fun ht => .pure hv ⟨rfl, rfl, by simp [ht]⟩) fun ht => .pure hv ⟨rfl, rfl, by simp [ht]⟩
  rwa [bind_pure, bind_pure] at h

lemma Runs.holdsOf (hv : σ.Valid W) (q : Property) (hab : σ.rel .shown a b) :
    Runs W Keeps (Builtin.holdsOf q a) (Builtin.holdsOf q b) σ fun x y τ => τ = σ ∧ x = y := by
  cases q with
  | null =>
    refine .pure hv ⟨rfl, ?_⟩
    rw [Bool.eq_iff_iff, beq_iff_eq, beq_iff_eq]
    exact hv.eq_sentinel_iff hab (by decide)
  | number => exact .typeOf hv hab fun t _ => .pure hv ⟨rfl, rfl⟩
  | procedure => exact .typeOf hv hab fun t _ => .pure hv ⟨rfl, rfl⟩
  | _ => exact (Runs.testType hv hab _).post fun _ _ _ _ _ h => ⟨h.1, h.2.1⟩

/-! ## Changing expressions under evaluation -/

/-- A part of an expression under evaluation is no longer the same pair. -/
def Changed (A : Nat → Prop) (σ τ : Twin) : Prop :=
  ∃ a, σ.left.Part A a ∧ τ.left.pairAt a ≠ σ.left.pairAt a

/-- The twin evolves, or it has changed, and then there is only so much to be said. -/
def Moves (W : Regime) (m : Nat) (A : Nat → Prop) (σ τ : Twin) : Prop :=
  Evolves m A σ τ ∨ W.rewriting ∧ Changed A σ τ ∧ τ.left.roots.size = σ.left.roots.size

lemma Evolves.moves {υ : Twin} (he : Evolves m A σ τ) (hm : Moves W m A τ υ) : Moves W m A σ υ := by
  rcases hm with hm | ⟨hw, ⟨a, ha, hne⟩, hd⟩
  · exact .inl (Motion.trans he hm)
  · have ha' := he.part_iff.mp ha
    exact .inr ⟨hw, ⟨a, ha', he.part ha' ▸ hne⟩, hd.trans he.depth⟩

lemma Moves.of_push {v v' : Handle} (hv : σ.Valid W) (hvt : τ.Valid W) (hm : m ≤ σ.left.roots.size)
    (hA : ∀ i, A i → i < σ.left.roots.size) (h : Moves W m A (σ.push v v') τ) :
    τ.left.roots.size = σ.left.roots.size + 1 ∧ Moves W m A σ τ.pop := by
  have hs : (σ.push v v').left.roots.size = σ.left.roots.size + 1 := Array.size_push _
  rcases h with he | ⟨hw, ⟨a, ha, hne⟩, hd⟩
  · exact ⟨he.depth.trans hs, .inl (he.of_push hv hvt hm hA)⟩
  · have hl := lasts_push (m := m) (A := A) hv.depth hm hA v v'
    refine ⟨hd.trans hs, .inr ⟨hw, ⟨a, hl.part_iff.mp ha, hne⟩, ?_⟩⟩
    change τ.left.roots.pop.size = _
    rw [Array.size_pop, hd, hs, Nat.add_sub_cancel]

/-- Overwriting a pair that the program holds. -/
lemma moves_write (hv : σ.Valid W) (hw : W.rewriting) (hab : σ.rel .shown a b)
    {x c y t y' t' : Handle} (hl : σ.left.pairAt a = some (x, c)) :
    Moves W m A σ (σ.write a b (.pair y t) (.pair y' t')) := by
  have hrep : Replaces W σ .shown (.pair x c) (.pair x c) (.pair y t) (.pair y' t') := .rewrite hw
  by_cases hc : σ.left.Part A a ∧ (y, t) ≠ (x, c)
  · refine .inr ⟨hw, ⟨a, hc.1, ?_⟩, rfl⟩
    rw [Heap.pairAt, object?_write_left (pairAt_eq_some.mp hl) rfl, if_pos rfl, hl]
    exact fun h => hc.2 (Option.some.inj h)
  · refine .inl (evolves_write (pairAt_eq_some.mp hl) hab rfl hrep hv (fun hp => ?_) (by simp))
    by_contra hne
    exact hc ⟨hp, fun h => hne (congrArg some h)⟩

lemma pairAt_of_typeAt {h : Heap} (ht : h.typeAt v = some .pair) :
    ∃ x c, h.pairAt v = some (x, c) := by
  unfold typeAt at ht
  obtain ⟨d, hd, ht⟩ := Option.map_eq_some_iff.mp ht
  cases d <;> simp [Datum.type] at ht
  exact ⟨_, _, pairAt_eq_some.mpr hd⟩

/-- What a procedure that changes pairs does once its arguments have been taken. -/
lemma Runs.call_rewriting (hv : σ.Valid W) (p : Builtin) (hs : σ.Spine r n args args')
    {change : Handle → Handle → EvalM Unit}
    (hc : ∀ a b v v', σ.rel .shown a b → σ.rel .shown v v' → σ.left.typeAt a = some .pair →
      Runs W (Moves W m A) (change a v) (change b v') σ fun _ _ _ => True) :
    Runs W (Moves W m A)
      (do
        let (pair, v) ← p.twoArguments args
        if ← HeapM.hasType .pair pair then
          change pair v
          return .emptyList
        else p.wrongArgument "a pair" pair)
      (do
        let (pair, v) ← p.twoArguments args'
        if ← HeapM.hasType .pair pair then
          change pair v
          return .emptyList
        else p.wrongArgument "a pair" pair) σ fun v v' τ => τ.rel .shown v v' := by
  have hk : ∀ {σ τ : Twin}, Keeps σ τ → Moves W m A σ τ := fun h => .inl (Motion.keeps h)
  refine (Runs.twoArguments hv p hs).chain (fun _ => hk) ?_ fun _ _ h1 h2 =>
    (Motion.keeps (R := Evolves m A) h1).moves h2
  rintro ⟨a, v⟩ ⟨b, v'⟩ _ _ - ⟨rfl, hab, hvv⟩
  refine .hasType hv hab .pair (fun ht => ?_) fun _ =>
    (Runs.wrongArgument (R := Keeps) hv p _ hab).motion fun _ => hk
  refine (hc a b v v' hab hvv ht).chain (U := (· = ·)) (fun _ h => h) (fun _ _ τ hvt _ _ => ?_) ?_
  · exact .ok (τ := τ) rfl rfl hvt rfl (hvt.sentinel (by decide)).1
  · rintro τ _ h rfl
    exact h

/-- A collection requested by the program frees the same cells in runs that are the same. -/
lemma Runs.collect (hv : σ.Valid W) (hw : W.same) :
    Runs W Keeps (HeapM.collect : EvalM Collection) HeapM.collect σ fun c c' _ => c = c' := by
  obtain ⟨c, h, hrun, hcoll⟩ := collectKeeping_spec hv.left.toClosed [] (by simp)
  have hl : (HeapM.collect : EvalM Collection) σ.left = .ok c h := by
    simp only [HeapM.collect, attempt, Heap.collect, hrun]
  have hkept := hcoll.toKept hv.left (by simp)
  have hwf := hcoll.wellFormed hv.left (by simp)
  have hkept' : σ.right.Kept [] h := (hv.same hw).1 ▸ hkept
  exact .ok (τ := σ.shrink h h) hl ((hv.same hw).1 ▸ hl)
    (hv.shrink hwf hwf hkept hkept' fun _ => rfl)
    (keeps_shrink hv hkept hkept' .nil) rfl

/-- Procedures that leave all pairs alone. -/
lemma Runs.call_quiet (hv : σ.Valid W) (hb : W.natives (.builtin p)) (hm : m ≤ σ.left.roots.size)
    (hA : ∀ i, A i → i < σ.left.roots.size) (hs : σ.Spine r n args args')
    (hj : ∀ j, r = .draft j → j ≤ σ.left.roots.size) (hcar : p ≠ .setCar) (hcdr : p ≠ .setCdr) :
    Runs W (Evolves m A) (p.call args) (p.call args') σ fun v v' τ => τ.rel .shown v v' := by
  cases p with
  | setCar => exact absurd rfl hcar
  | setCdr => exact absurd rfl hcdr
  | add | multiply =>
    refine Runs.keeps ((Runs.numbers hv _ _ hs).bind ?_)
    rintro xs _ _ _ - ⟨rfl, -, rfl⟩
    exact .makeNumber hv _ _
  | subtract | divide => exact Runs.keeps (.calculate hv _ _ hs)
  | compare relation =>
    refine Runs.keeps ((Runs.numbers hv _ _ hs).bind ?_)
    rintro xs _ _ _ - ⟨rfl, -, rfl⟩
    exact .pure hv (rel_ofBool hv _)
  | car =>
    refine Runs.keeps ((Runs.oneArgument hv _ hs).bind ?_)
    rintro x x' _ _ - ⟨rfl, hx⟩
    refine .asPair hv hx (fun a c a' c' hp hp' => .pure hv (hv.shown_pair hx hp hp').1) fun _ => ?_
    exact .wrongArgument hv _ _ hx
  | cdr =>
    refine Runs.keeps ((Runs.oneArgument hv _ hs).bind ?_)
    rintro x x' _ _ - ⟨rfl, hx⟩
    refine .asPair hv hx (fun a c a' c' hp hp' => .pure hv (hv.shown_pair hx hp hp').2) fun _ => ?_
    exact .wrongArgument hv _ _ hx
  | cons =>
    refine Runs.keeps ((Runs.twoArguments hv _ hs).bind ?_)
    rintro ⟨x, y⟩ ⟨x', y'⟩ _ _ - ⟨rfl, hx, hy⟩
    exact .cons hv hx hy
  | list =>
    refine .bind_keeps (Runs.manyArguments hv _ 0 hs) ?_
    rintro vs vs' _ _ - ⟨rfl, -, -⟩
    exact .append hv hm hA hs hj
  | length =>
    refine Runs.keeps ((Runs.oneArgument hv _ hs).bind ?_)
    rintro x x' _ _ - ⟨rfl, hx⟩
    refine .length hv (follows_shown hv (T := fun _ => True) fun _ _ => ⟨trivial, trivial⟩)
      ⟨hx, trivial⟩ fun w _ => ?_
    cases w.items? with
    | none => exact .wrongArgument hv _ _ hx
    | some l => exact .makeInt hv _
  | test property =>
    refine Runs.keeps ((Runs.oneArgument hv _ hs).bind ?_)
    rintro x x' _ _ - ⟨rfl, hx⟩
    refine (Runs.holdsOf hv property hx).bind ?_
    rintro t _ _ _ - ⟨rfl, rfl⟩
    exact .pure hv (rel_ofBool hv t)
  | isError =>
    refine Runs.keeps ((Runs.anyArgument hv _ hs).bind ?_)
    rintro x x' _ _ - ⟨rfl, hx⟩
    exact .hasType hv hx .error (fun _ => .pure hv (rel_ofBool hv _)) fun _ =>
      .pure hv (rel_ofBool hv _)
  | same =>
    refine Runs.keeps ((Runs.twoArguments hv _ hs).bind ?_)
    rintro ⟨x, y⟩ ⟨x', y'⟩ _ _ - ⟨rfl, hx, hy⟩
    refine .pure hv ?_
    rw [show (x' == y') = (x == y) by
      rw [Bool.eq_iff_iff, beq_iff_eq, beq_iff_eq]
      exact (hv.eq_iff hx hy).symm]
    exact rel_ofBool hv _
  | negate =>
    refine Runs.keeps ((Runs.oneArgument hv _ hs).bind ?_)
    rintro x x' _ _ - ⟨rfl, hx⟩
    refine .pure hv ?_
    rw [hv.isTruthy_eq hx]
    exact rel_ofBool hv _
  | raiseError =>
    refine Runs.keeps ((Runs.oneArgument hv _ hs).bind ?_)
    rintro x x' _ _ - ⟨rfl, hx⟩
    refine .datum hv hx fun d d' hd hd' hf => ?_
    cases hf with
    | atom =>
      cases d with
      | str => exact .raise hv _ _
      | _ => exact .wrongArgument hv _ _ hx
    | _ => exact .wrongArgument hv _ _ hx
  | collectGarbage =>
    refine Runs.keeps ((Runs.noArgument hv _ hs).bind ?_)
    rintro _ _ _ _ - rfl
    refine (Runs.collect hv (W.collects hb)).bind ?_
    rintro c _ τ hvt - rfl
    exact .makeInt hvt _

/-- Calling a built-in procedure that may be called. -/
lemma Runs.call (hv : σ.Valid W) (hb : W.natives (.builtin p)) (hm : m ≤ σ.left.roots.size)
    (hA : ∀ i, A i → i < σ.left.roots.size) (hs : σ.Spine r n args args')
    (hj : ∀ j, r = .draft j → j ≤ σ.left.roots.size) :
    Runs W (Moves W m A) (p.call args) (p.call args') σ fun v v' τ => τ.rel .shown v v' := by
  by_cases hcar : p = .setCar
  · subst hcar
    refine Runs.call_rewriting hv .setCar hs fun a b v v' hab hvv ht => ?_
    obtain ⟨x, c, hl⟩ := pairAt_of_typeAt ht
    obtain ⟨x', c', hr, -⟩ := hv.pairAt_right hab hl
    have hf : Fits W σ .shown (.pair v c) (.pair v' c') := .pair hvv (hv.shown_pair hab hl hr).2
    exact .ok (τ := σ.write a b (.pair v c) (.pair v' c')) (setCar_apply hl v) (setCar_apply hr v')
      (hv.write hab (pairAt_eq_some.mp hl) (pairAt_eq_some.mp hr) hf
        (.rewrite (W.rewrites (.inl hb))))
      (moves_write hv (W.rewrites (.inl hb)) hab hl) trivial
  by_cases hcdr : p = .setCdr
  · subst hcdr
    refine Runs.call_rewriting hv .setCdr hs fun a b v v' hab hvv ht => ?_
    obtain ⟨x, c, hl⟩ := pairAt_of_typeAt ht
    obtain ⟨x', c', hr, -⟩ := hv.pairAt_right hab hl
    have hf : Fits W σ .shown (.pair x v) (.pair x' v') := .pair (hv.shown_pair hab hl hr).1 hvv
    exact .ok (τ := σ.write a b (.pair x v) (.pair x' v')) (setCdr_apply hl v) (setCdr_apply hr v')
      (hv.write hab (pairAt_eq_some.mp hl) (pairAt_eq_some.mp hr) hf
        (.rewrite (W.rewrites (.inr hb))))
      (moves_write hv (W.rewrites (.inr hb)) hab hl) trivial
  · exact (Runs.call_quiet hv hb hm hA hs hj hcar hcdr).motion fun _ => .inl

end Twin

end ArenaScheme
