/-
# Starting in step

Two new heaps make up a twin whatever their sizes are: their sentinels correspond, and so do their
base frames.  Setting up a machine on either interns the same keywords and binds the same
procedures.  A procedure that the program cannot name is bound to a hidden symbol, and so it stays
hidden itself.
-/
import ArenaScheme.Interpreter
import ArenaScheme.Proofs.Twin.Evaluator
import ArenaScheme.Proofs.Twin.Reading

namespace ArenaScheme

instance : Fault Failure where
  matched _ e f := e = f
  starved e := e = .outOfMemory
  matched_congr _ _ h := h

namespace Twin

open Heap HeapM Interpreter

variable {ε α α' β β' : Type} [Fault ε] {W : Regime} {σ τ : Twin} {R : Twin → Twin → Prop}
  {r : Role} {a b v v' : Handle} {m n : Nat} {A : Nat → Prop}

/-! ## New heaps -/

/-- Two new heaps. -/
def fresh (s s' : Sizing) (audited : Bool) : Twin where
  left := { ofSizing s with audited }
  right := { ofSizing s' with audited }
  rel r a b := r = .shown ∧ ((a.index < regionStart ∧ b = a) ∨
    a = (ofSizing s).baseEnv ∧ b = (ofSizing s').baseEnv)

/-- A sentinel fits itself. -/
lemma fits_sentinel {i : Nat} {d : Datum} (hd : sentinels[i]? = some d) : Fits W σ .shown d d := by
  match i, hd with
  | 0, hd | 1, hd | 2, hd | 3, hd =>
    obtain rfl := Option.some.inj hd
    exact .atom rfl rfl (by simp) (by simp)

lemma exists_sentinel {i : Nat} (hi : i < regionStart) : ∃ d, sentinels[i]? = some d :=
  ⟨_, List.getElem?_eq_getElem hi⟩

lemma valid_fresh {s s' : Sizing} {audited : Bool} (hs : W.same → s = s') :
    (fresh s s' audited).Valid W := by
  have hbase : ∀ t : Sizing, ¬ (ofSizing t).baseEnv.index < regionStart := fun t =>
    Nat.not_lt.mpr (Nat.le_add_right ..)
  have hnil : (fresh s s' audited).rel .shown .emptyList .emptyList :=
    ⟨rfl, .inl ⟨by decide, rfl⟩⟩
  refine {
    left := (wellFormed_ofSizing s).audit audited
    right := (wellFormed_ofSizing s').audit audited
    functional := ?_
    injective := ?_
    data := ?_
    depth := rfl
    roots := fun hi => by simp [fresh, ofSizing] at hi
    base := ⟨rfl, .inr ⟨rfl, rfl⟩⟩
    baseScope := .base (object?_ofSizing_base s)
    current := ⟨rfl, .inr ⟨rfl, rfl⟩⟩
    currentScope := .base (object?_ofSizing_base s)
    sentinel := fun {v} hv => ⟨⟨rfl, .inl ⟨hv, rfl⟩⟩, object?_ofSizing_sentinel s hv,
      object?_ofSizing_sentinel s' hv⟩
    permanents := ?_
    permanent := fun k hk => ?_
    symbols := fun name => ?_
    audited := rfl
    same := fun hw => ?_ }
  · rintro r r' a b b' ⟨rfl, ⟨h1, rfl⟩ | ⟨rfl, rfl⟩⟩ ⟨rfl, ⟨h2, rfl⟩ | ⟨h2, rfl⟩⟩
    · exact ⟨rfl, rfl⟩
    · exact absurd (h2 ▸ h1) (hbase s)
    · exact absurd h2 (hbase s)
    · exact ⟨rfl, rfl⟩
  · rintro r r' a a' b ⟨rfl, ⟨h1, rfl⟩ | ⟨rfl, rfl⟩⟩ ⟨rfl, ⟨h2, rfl⟩ | ⟨rfl, h2⟩⟩
    · exact ⟨rfl, rfl⟩
    · exact absurd (h2 ▸ h1) (hbase s')
    · exact absurd h2 (hbase s')
    · exact ⟨rfl, rfl⟩
  · rintro r a b ⟨rfl, ⟨h1, rfl⟩ | ⟨rfl, rfl⟩⟩
    · obtain ⟨d, hd⟩ := exists_sentinel h1
      exact ⟨d, d, (object?_ofSizing_sentinel s h1).trans hd,
        (object?_ofSizing_sentinel s' h1).trans hd, fits_sentinel hd⟩
    · exact ⟨_, _, object?_ofSizing_base s, object?_ofSizing_base s',
        .frame .none (by simp) (.made hnil (fun _ => ⟨⟨[], .nil⟩, by simp, .inl rfl⟩) ⟨rfl, rfl⟩)⟩
  · change (ofSizing s).cells.size + (regionStart + s'.arenaCells) =
      (ofSizing s').cells.size + (regionStart + s.arenaCells)
    rw [cells_ofSizing, cells_ofSizing]
    omega
  · obtain rfl : k = 0 := by
      change regionStart + s.arenaCells + k < (ofSizing s).cells.size at hk
      rw [cells_ofSizing] at hk
      omega
    exact ⟨.shown, rfl, .inr ⟨rfl, rfl⟩⟩
  · have hnone : ∀ t : Sizing, (ofSizing t).symbols[name]? = none := fun t => by simp [ofSizing]
    change Option.Rel _ (ofSizing s).symbols[name]? (ofSizing s').symbols[name]?
    rw [hnone, hnone]
    exact .none
  · obtain rfl := hs hw
    refine ⟨rfl, ?_⟩
    rintro r a b ⟨-, ⟨-, rfl⟩ | ⟨rfl, rfl⟩⟩
    · rfl
    · rfl

/-! ## Keywords -/

/-- The symbols of names, interned one by one, with those interned before. -/
lemma Runs.words (hv : σ.Valid W) {name : String} (hn : W.names name) {us us' : List Handle}
    (hus : List.Forall₂ σ.Lasting us us') {f : Handle → HeapM ε β} {g : Handle → HeapM ε β'}
    {P : β → β' → Twin → Prop}
    (hf : ∀ v v' τ, τ.Valid W → Keeps σ τ → List.Forall₂ τ.Lasting (v :: us) (v' :: us') →
      Runs W Keeps (f v) (g v') τ P) :
    Runs W Keeps (HeapM.intern name >>= f) (HeapM.intern name >>= g) σ P :=
  .bind_keeps (.word hv hn) fun _ _ _ hvt hk hq =>
    hf _ _ _ hvt hk (.cons hq (hus.imp fun _ _ => (hk.lasts 0 noSlot).lasting))

lemma Runs.keywords (hv : σ.Valid W) :
    Runs W Keeps (Keywords.intern : HeapM ε Keywords) Keywords.intern σ fun kw kw' τ =>
      kw.Agree τ.Lasting kw' := by
  have hus : List.Forall₂ σ.Lasting [] [] := .nil
  iterate 17
    refine .words hv ?_ hus fun _ _ _ hv _ hus => ?_
    · exact W.vocabulary _ (by decide) (by decide) (by decide)
  simp only [List.forall₂_cons, List.Forall₂.nil, and_true] at hus
  obtain ⟨h17, h16, h15, h14, h13, h12, h11, h10, h9, h8, h7, h6, h5, h4, h3, h2, h1⟩ := hus
  exact .pure hv ⟨h1, h2, h3, h4, h5, h6, h7, h8, h9, h10, h11, h12, h13, h14, h15, h16, h17⟩

/-! ## Reports -/

omit [Fault ε] in
lemma failureOf_apply {h : Heap} {kind : ErrorKind} {message : String}
    (hd : h.object? v = some (.error kind message)) :
    (failureOf v : HeapM ε Failure) h = .ok (.ofError kind message) h := by
  have hp : (errorParts v : HeapM ε (ErrorKind × String)) h = .ok (kind, message) h :=
    expect_apply hd .error rfl
  rw [failureOf, bind_of_ok hp]
  rfl

omit [Fault ε] in
/-- The failures that corresponding errors describe are the same. -/
lemma failureOf_matched (hv : σ.Valid W) {e f : Handle} (hm : Fault.matched σ e f) :
    ∃ failure, (failureOf e : HeapM ε Failure) σ.left = .ok failure σ.left ∧
      (failureOf f : HeapM ε Failure) σ.right = .ok failure σ.right := by
  obtain ⟨hr, kind, message, hd⟩ := hm
  obtain ⟨d', hd', hf⟩ := hv.data_of_left hr hd
  cases hf with
  | atom => exact ⟨_, failureOf_apply hd, failureOf_apply hd'⟩

omit [Fault ε] in
/-- The failure that the sentinel for exhausted memory describes. -/
lemma failureOf_outOfMemory {h : Heap} (hd : h.object? .outOfMemory = some .exhausted) :
    (failureOf .outOfMemory : HeapM ε Failure) h = .ok .outOfMemory h :=
  failureOf_apply hd

/-- Reporting what actions in step fail with. -/
lemma Runs.reporting {x : EvalM α} {y : EvalM α'} {Q : α → α' → Twin → Prop}
    (hx : Runs W R x y σ Q) : Runs W R (reporting x) (reporting y) σ Q := by
  unfold Runs at hx ⊢
  unfold HeapM.reporting
  revert hx
  generalize x σ.left = o
  generalize y σ.right = o'
  intro hx
  cases hx with
  | ok hq => exact .ok hq
  | error hm =>
    obtain ⟨τ, rfl, rfl, hvt, hR, hm⟩ := hm
    obtain ⟨failure, h1, h2⟩ := failureOf_matched (ε := Failure) hvt hm
    simp only [bind_of_ok h1, bind_of_ok h2]
    exact .error ⟨τ, rfl, rfl, hvt, hR, rfl⟩
  | halt hc => exact .halt hc
  | left hw ho =>
    refine .left hw ?_
    cases ho with
    | halt hc => exact .halt hc
    | starved hs hh =>
      obtain rfl := hs
      obtain ⟨τ, rfl, hvt, hR⟩ := hh
      simp only [bind_of_ok
        (failureOf_outOfMemory (hvt.sentinel (v := .outOfMemory) (by decide)).2.1)]
      exact .starved rfl ⟨τ, rfl, hvt, hR⟩
  | right hw ho =>
    refine .right hw ?_
    cases ho with
    | halt hc => exact .halt hc
    | starved hs hh =>
      obtain rfl := hs
      obtain ⟨τ, rfl, hvt, hR⟩ := hh
      simp only [bind_of_ok
        (failureOf_outOfMemory (hvt.sentinel (v := .outOfMemory) (by decide)).2.2)]
      exact .starved rfl ⟨τ, rfl, hvt, hR⟩

/-! ## Built-in procedures -/

/-- Binding the name of a foreign procedure, which stays hidden unless its name may be used. -/
lemma Runs.bindForeign (hv : σ.Valid W) (hm : m ≤ σ.left.roots.size) (name : String) (code : Native)
    (hc : W.names name → W.natives code) :
    Runs W (Evolves m noSlot) (bindForeign name code) (bindForeign name code) σ
      fun _ _ _ => True := by
  have hrole : W.roleOf name = .hidden ∨ W.roleOf name = .shown ∧ W.natives code := by
    unfold Regime.roleOf
    split
    · next hn => exact .inr ⟨rfl, hc hn⟩
    · exact .inl rfl
  refine .bind_keeps (.intern hv name) fun s s' τ hvt hk hq => ?_
  refine .bind_keeps (.makeForeign hvt name code hrole) fun p p' υ hvu hk' hp => ?_
  refine .look (a := υ.left.baseEnv) (b := υ.right.baseEnv) rfl rfl ?_
  -- the symbol is permanent
  obtain ⟨hs, htable⟩ := hq
  obtain ⟨hcol, hd⟩ := hvt.left.table name s htable
  have hsu : υ.rel (W.roleOf name) s s' :=
    hk'.rel (.of_not_collectible (lt_size_of_object? hd) hcol) hs
  have hdu := (hk'.object (.of_not_collectible (lt_size_of_object? hd) hcol)).trans hd
  have hmu : m ≤ υ.left.roots.size := by
    rw [hk'.roots, hk.roots]
    exact hm
  refine (Runs.define hvu hmu (active_noSlot υ) hvu.base hvu.baseScope hsu
    (type_eq_symbol.mpr ⟨_, hdu⟩) hp ?_).bind
    fun _ _ _ hvw _ _ => .pure hvw trivial
  rintro k hr
  rcases hrole with h | ⟨h, -⟩ <;> simp [h] at hr

lemma Runs.bindBuiltins (hv : σ.Valid W) (hm : m ≤ σ.left.roots.size) (bs : List Builtin) :
    Runs W (Evolves m noSlot) (bs.forM fun b => Interpreter.bindForeign b.name (.builtin b))
      (bs.forM fun b => Interpreter.bindForeign b.name (.builtin b)) σ fun _ _ _ => True := by
  induction bs generalizing σ with
  | nil => exact .pure hv trivial
  | cons b bs ih =>
    rw [List.forM_eq_forM, List.forM_cons, ← List.forM_eq_forM]
    refine (Runs.bindForeign hv hm b.name (.builtin b) (W.builtin b).mpr).bind
      fun _ _ τ hvt he _ => ih hvt (he.depth ▸ hm)

/-- Setting up two machines. -/
lemma Runs.install (hv : σ.Valid W) (hm : m ≤ σ.left.roots.size)
    (host host' : Array HostProcedure) :
    Runs W (Evolves m noSlot) (install host) (install host') σ fun ctx ctx' τ =>
      ctx.keywords.Agree τ.Lasting ctx'.keywords := by
  refine .bind_keeps (.keywords hv) fun kw kw' τ hvt hk hkw => ?_
  have hmt : m ≤ τ.left.roots.size := hk.roots.symm ▸ hm
  refine (Runs.reporting (.bindBuiltins hvt hmt _)).bind fun _ _ υ hvu he _ => ?_
  exact .pure hvu (hkw.mono he.1.lasting)

end Twin

end ArenaScheme
