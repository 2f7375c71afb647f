/-
# Running texts in step

A text is run datum by datum.  While a datum is read or evaluated, the latest value is held in a
slot below everything that is going on, and when its evaluation fails, the failure that is reported
is the same in both runs.
-/
import ArenaScheme.Proofs.Twin.Startup

namespace ArenaScheme

namespace Twin

open Heap HeapM Interpreter

variable {ε ε' α α' β β' : Type} [Fault ε] [Fault ε'] {W : Regime} {ρ σ τ : Twin}
  {R : Twin → Twin → Prop} {v v' : Handle} {k k' m n : Nat} {ctx ctx' : Context}

/-- Describing errors in other terms. -/
lemma Runs.mapError {x : HeapM ε α} {y : HeapM ε α'} {f : ε → ε'} {Q : α → α' → Twin → Prop}
    (hx : Runs W R x y σ Q) (hm : ∀ τ e e', Fault.matched τ e e' → Fault.matched τ (f e) (f e'))
    (hs : ∀ e, Fault.starved e → Fault.starved (f e)) :
    Runs W R (HeapM.mapError x f) (HeapM.mapError y f) σ Q := by
  unfold Runs at hx ⊢
  unfold HeapM.mapError
  revert hx
  generalize x σ.left = o
  generalize y σ.right = o'
  intro hx
  cases hx with
  | ok hq => exact .ok hq
  | error he =>
    obtain ⟨τ, h1, h2, hvt, hR, he⟩ := he
    exact .error ⟨τ, h1, h2, hvt, hR, hm τ _ _ he⟩
  | halt hc => exact .halt hc
  | left hw ho =>
    cases ho with
    | halt hc => exact .left hw (.halt hc)
    | starved he hh => exact .left hw (.starved (hs _ he) hh)
  | right hw ho =>
    cases ho with
    | halt hc => exact .right hw (.halt hc)
    | starved he hh => exact .right hw (.starved (hs _ he) hh)

/-- Reporting the value of a datum if it is an error object, and going on otherwise. -/
lemma Runs.unlessError (hv : σ.Valid W) (hx : σ.rel .shown v v') {x : HeapM Failure α}
    {y : HeapM Failure α'} {Q : α → α' → Twin → Prop} [Motion R] (hy : Runs W R x y σ Q) :
    Runs W R (do if ← HeapM.hasType .error v then HeapM.fail (← failureOf v) else x)
      (do if ← HeapM.hasType .error v' then HeapM.fail (← failureOf v') else y) σ Q := by
  refine .hasType hv hx .error (fun ht => ?_) fun _ => hy
  obtain ⟨failure, h1, h2⟩ := failureOf_matched (ε := Failure) hv (matched_of_typeAt hv hx ht)
  exact .error (τ := σ) (bind_of_ok h1) (bind_of_ok h2) hv (Motion.refl R σ) rfl

/-- Reporting exhausted memory. -/
lemma report_outOfMemory {h : Heap} (hd : h.object? .outOfMemory = some .exhausted)
    (x : HeapM Failure α) :
    (do if ← hasType .error .outOfMemory then HeapM.fail (← failureOf .outOfMemory) else x :
      HeapM Failure α) h = .error .outOfMemory h := by
  rw [bind_of_ok (hasType_apply hd .error)]
  exact bind_of_ok (failureOf_outOfMemory hd)

/-- Running the data of a scan, with the latest value in a slot. -/
lemma Runs.runData (hw : ¬ W.rewriting) (hb : W.same → k = k')
    (h : Ready W noSlot ctx.keywords ctx'.keywords ρ σ) (ha : σ.At n .shown) (hm : m ≤ n)
    {scan : Scan} (hs : scan.Within W.names) (data : Nat) :
    Runs W (Evolves m noSlot) (runData ctx k ⟨n⟩ data scan) (runData ctx' k' ⟨n⟩ data scan) σ
      fun v v' τ => τ.rel .shown v v' := by
  induction data generalizing σ scan with
  | zero => exact .halt (c := .unfinished) trivial rfl rfl
  | succ data ih =>
    refine .bind_evolves (n := n + 1) (B := noSlot) (.mapError (.read h.valid hs ha.lt) ?_ ?_)
      (by omega) (fun _ h => h) fun o o' τ hvt he hq => ?_
    · rintro _ _ _ rfl
      rfl
    · exact fun _ h => h
    have hlt : n + 1 ≤ τ.left.roots.size := he.depth ▸ ha.lt
    have haτ : τ.At n .shown := ha.lasts he.1 (Nat.lt_succ_self n) (by simp)
    have hready := h.lasts he.1 hvt
    cases hq with
    | none =>
      obtain ⟨u, u', hu, hu', hr⟩ := haτ
      exact .ok (contents_apply hu) (contents_apply hu') hvt (Motion.refl _ τ) hr
    | @some e e' stop rest hx hrest =>
      have hstep : ∀ u u' υ, υ.Valid W → Evolves (n + 1) noSlot τ υ → υ.rel .shown u u' →
          Runs W (Evolves m noSlot)
            (do HeapM.store ⟨n⟩ u; Interpreter.runData ctx k ⟨n⟩ data rest)
            (do HeapM.store ⟨n⟩ u'; Interpreter.runData ctx' k' ⟨n⟩ data rest) υ
            fun v v' τ => τ.rel .shown v v' := fun u u' υ hvu heu hr => by
        have hltυ : n < υ.left.roots.size := heu.depth ▸ hlt
        have hl : Lasts m noSlot υ (υ.put n u u') := (evolves_put hm id u u').1
        refine (Runs.store hvu hltυ hr (by simp) (evolves_put hm id u u')
          (Q := fun _ _ ω => ω = υ.put n u u') rfl).bind ?_
        rintro _ _ ω hvw - rfl
        exact ih ((hready.lasts heu.1 hvu).lasts hl hvw) (at_put hvu hltυ hr) hrest
      have hover : ∀ υ : Twin, υ.Valid W → Evolves (n + 1) noSlot τ υ →
          Evolves m noSlot τ υ ∧ υ.left.object? .outOfMemory = some .exhausted ∧
            υ.right.object? .outOfMemory = some .exhausted := fun υ hvu he =>
        ⟨he.mono (by omega) fun _ h => h, (hvu.sentinel (v := .outOfMemory) (by decide)).2⟩
      dsimp only
      rw [Evaluator.eval, Evaluator.eval, bind_assoc, bind_assoc]
      refine Loops.eval (loops_loop hw hb) hready hx hlt (by omega)
        (fun u u' υ hvu heu hr => .unlessError hvu hr (hstep u u' υ hvu heu hr))
        (fun υ hvu he => ?_) fun υ hvu he => ?_
      · obtain ⟨hm, ho, -⟩ := hover υ hvu he
        rw [report_outOfMemory ho]
        exact .starved rfl ⟨υ, rfl, hvu, hm⟩
      · obtain ⟨hm, -, ho⟩ := hover υ hvu he
        rw [report_outOfMemory ho]
        exact .starved rfl ⟨υ, rfl, hvu, hm⟩

/-- Running a text. -/
lemma Runs.run (hw : ¬ W.rewriting) (hb : W.same → k = k')
    (h : Ready W noSlot ctx.keywords ctx'.keywords ρ σ) {text : String}
    (hs : (Scan.ofString text 0).Within W.names) (hm : m ≤ σ.left.roots.size) :
    Runs W (Evolves m noSlot) (Interpreter.run ctx k text) (Interpreter.run ctx' k' text) σ
      fun v v' τ => τ.rel .shown v v' := by
  have hnil : σ.rel .shown Handle.emptyList .emptyList := (h.valid.sentinel (by decide)).1
  exact .rooted_evolves h.valid hm (fun _ => False.elim)
    (.runData hw hb (h.push hnil (by simp)) (at_push h.valid hnil) hm hs _)

end Twin

end ArenaScheme
