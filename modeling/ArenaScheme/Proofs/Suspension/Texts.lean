/-
# Texts that leave suspended expressions intact

A text leaves suspended expressions intact if every evaluation of one of its data does, from its
first activation on.  Then the invariant holds from one datum to the next, and the run of the text
ends as the evaluations do.
-/
import ArenaScheme.Proofs.Propagation
import ArenaScheme.Proofs.Suspension.Turns
import ArenaScheme.Proofs.Twin.Texts

namespace ArenaScheme

open Heap HeapM Evaluator Interpreter Activation
open Twin (noSlot)

variable {W : Regime} {ρ σ : Twin} {ctx : Context} {h l : Heap} {text : String} {a : Activation}
  {budget n : Nat}

/-! ## Texts -/

/-- The run of a text on a heap begins an evaluation of one of its data with that activation. -/
def Undertakes (ctx : Context) (budget : Nat) (text : String) (h : Heap) (a : Activation) : Prop :=
  ∃ (rest : Nat) (last : Root) (k : Heap) (data : Nat) (scan : Scan) (reading :
    Reading) (k' l : Heap), (acquire .emptyList h : Outcome Failure Root) = .ok last k ∧
    Passes ctx budget last ((Scan.ofString text 0).lexemes.length + 1) (Scan.ofString text 0) k
      (data + 1) scan k' ∧
    HeapM.read scan k' = .ok (some reading) l ∧ l.Roomy ∧ budget = rest + 1 ∧
    a = start rest reading.datum l.currentEnv l

/-- A text whose evaluation changes no expression that is suspended at the time. -/
def LeavesIntact (ctx : Context) (budget : Nat) (text : String) (h : Heap) : Prop :=
  ∀ a, Undertakes ctx budget text h a → a.Intact ctx noSlot

namespace Twin

variable {ε α : Type} [Fault ε] {τ : Twin} {k m : Nat} {A : Nat → Prop} {expr : Handle}

/-- A failure that counts as a value. -/
lemma Ends.recover {ε' : Type} [Fault ε'] {R : Twin → Twin → Prop} {x : EvalM Handle}
    (hx : Ends W R σ (fun v v' τ => τ.rel .shown v v') (x σ.left)) :
    Ends W R σ (fun v v' τ => τ.rel .shown v v')
      ((HeapM.recover x id : HeapM ε' Handle) σ.left) := by
  rw [HeapM.recover]
  revert hx
  generalize x σ.left = o
  intro hx
  cases hx with
  | ok hv hR hQ => exact .ok hv hR hQ
  | error hv hR hm => exact .ok hv hR hm.1
  | halt hc => exact .halt hc

/-- The evaluation of a datum, which leaves all suspended expressions intact. -/
lemma ends_eval (hs : W.same) (h : Ready W noSlot ctx.keywords ctx.keywords ρ σ)
    (he : σ.rel .shown expr expr) (hn : n ≤ σ.left.roots.size)
    (hi : ∀ b, k = b + 1 → σ.left.Roomy →
      (start b expr σ.left.currentEnv σ.left).Intact ctx noSlot) :
    Ends W (Evolves n noSlot) σ (fun v v' τ => τ.rel .shown v v')
      ((Evaluator.eval ctx k expr : HeapM ε Handle) σ.left) := by
  have hcalm := Loops.keepingEnv (n := n) (loops_calm (k := k) hs) h he hn
  rw [h.valid.right_eq hs] at hcalm
  have hends := hcalm.ends h.valid hs
  rw [keepingEnv_calm hi] at hends
  exact .recover hends

/-- A new value for a slot. -/
lemma Ready.put_shown {v : Handle} (h : Ready W noSlot ctx.keywords ctx.keywords ρ σ)
    (hn : n < σ.left.roots.size) (hv : σ.rel .shown v v) :
    Ready W noSlot ctx.keywords ctx.keywords ρ (σ.put n v v) ∧ (σ.put n v v).At n .shown :=
  ⟨h.lasts (evolves_put (Nat.zero_le n) id v v).1 (h.valid.put hv (by simp)), at_put h.valid hn hv⟩

end Twin

/-- Every datum of a text finds the invariant when it is read. -/
lemma Passes.begins {scan scan' : Scan} {data data' : Nat} (hs : W.same)
    (h : Twin.Ready W noSlot ctx.keywords ctx.keywords ρ σ) (ha : σ.At n .shown)
    (hscan : scan.Within W.names) (hp : Passes ctx budget ⟨n⟩ data scan σ.left data' scan' l)
    (hi : ∀ b data₁ scan₁ reading l₁ (τ : Twin), budget = b + 1 →
      Passes ctx budget ⟨n⟩ data scan σ.left (data₁ + 1) scan₁ l₁ →
      HeapM.read scan₁ l₁ = .ok (some reading) τ.left → τ.left.Roomy →
      Twin.Ready W noSlot ctx.keywords ctx.keywords ρ τ →
      τ.rel .shown reading.datum reading.datum →
      (start b reading.datum τ.left.currentEnv τ.left).Intact ctx noSlot) :
    ∃ τ : Twin, τ.left = l ∧ Twin.Ready W noSlot ctx.keywords ctx.keywords ρ τ ∧ τ.At n .shown ∧
      scan'.Within W.names := by
  generalize hl : σ.left = l₀ at hp
  induction hp generalizing σ with
  | refl => exact ⟨σ, hl, h, ha, hscan⟩
  | @next data data' scan scan' reading v l₀ i j k h' hread hv ht hst hp ih =>
    subst hl
    have hends := (Twin.Runs.read (m := n + 1) h.valid hscan ha.lt).ends h.valid hs
    rw [hread] at hends
    obtain @⟨_, τ, hvτ, he, hq⟩ := hends
    cases hq with
    | @some e _ stop rest hx hrest =>
      have hready := h.lasts he.1 hvτ
      have heval := Twin.ends_eval (ε := Failure) (k := budget) (n := n + 1) hs hready hx
        (he.depth ▸ ha.lt) fun b hb hroom =>
          hi b data scan _ _ τ hb (.refl _ _ _) hread hroom hready hx
      rw [hv] at heval
      obtain @⟨_, υ, hvυ, hu, hv'⟩ := heval
      have hlt : n < υ.left.roots.size := hu.depth ▸ he.depth ▸ ha.lt
      obtain rfl : (υ.put n v v).left = k :=
        (Outcome.ok.inj ((store_apply (ε := Failure) hlt v).symm.trans hst)).2
      obtain ⟨hput, hat⟩ := (hready.lasts hu.1 hvυ).put_shown hlt hv'
      refine ih hput hat hrest (fun b data₁ scan₁ reading l₁ ω hb hp => ?_) rfl
      exact hi b data₁ scan₁ reading l₁ ω hb (.next hread hv ht hst hp)

namespace Twin

/-- The invariant holds at the beginning of every evaluation of a datum, if each of them leaves
suspended expressions intact when it does. -/
lemma begins_of_undertakes (hs : W.same) (h : Ready W noSlot ctx.keywords ctx.keywords ρ σ)
    (hscan : (Scan.ofString text 0).Within W.names)
    (hi : ∀ a (τ : Twin), Undertakes ctx budget text σ.left a → τ.Begins W ctx noSlot a →
      a.Intact ctx noSlot)
    (ha : Undertakes ctx budget text σ.left a) : ∃ τ : Twin, τ.Begins W ctx noSlot a := by
  obtain ⟨rest, last, k, data, scan, reading, k', l, hacq, hp, hread, hroom, -, rfl⟩ := ha
  have hnil : σ.rel .shown Handle.emptyList .emptyList := (h.valid.sentinel (by decide)).1
  have hlt : σ.left.roots.size < σ.left.rootSlots := by
    by_contra hge
    rw [acquire, if_neg hge] at hacq
    exact absurd hacq (by simp)
  have hpush : k = (σ.push .emptyList .emptyList).left ∧ last = ⟨σ.left.roots.size⟩ := by
    rw [acquire_apply hlt] at hacq
    exact ⟨(Outcome.ok.inj hacq).2.symm, (Outcome.ok.inj hacq).1.symm⟩
  obtain ⟨rfl, rfl⟩ := hpush
  obtain ⟨τ, rfl, hready, hat, hrest⟩ := Passes.begins hs (h.push hnil (by simp))
    (at_push h.valid hnil) hscan hp fun b data₁ scan₁ reading l₁ τ hb hp hr hroom hready hx =>
      hi _ _ ⟨b, _, _, data₁, scan₁, reading, l₁, _, hacq, hp, hr, hroom, hb, rfl⟩
        (hready.begins hs hx)
  have hends := (Runs.read (m := σ.left.roots.size + 1) hready.valid hrest hat.lt).ends
    hready.valid hs
  rw [hread] at hends
  obtain @⟨_, υ, hv, he, hq⟩ := hends
  cases hq with
  | some hx _ => exact ⟨_, (hready.lasts he.1 hv).begins hs hx⟩

/-- Running the data of a scan, with the latest value in a slot. -/
lemma ends_runData (hs : W.same) (h : Ready W noSlot ctx.keywords ctx.keywords ρ σ)
    (ha : σ.At n .shown) (hm : m ≤ n) {scan : Scan} (hscan : scan.Within W.names) (data : Nat)
    (hi : ∀ b data' scan' reading l l', k = b + 1 →
      Passes ctx k ⟨n⟩ data scan σ.left (data' + 1) scan' l →
      HeapM.read scan' l = .ok (some reading) l' → l'.Roomy →
      (start b reading.datum l'.currentEnv l').Intact ctx noSlot) :
    Ends W (Evolves m noSlot) σ (fun v v' τ => τ.rel .shown v v')
      (runData ctx k ⟨n⟩ data scan σ.left) := by
  induction data generalizing σ scan with
  | zero => exact .halt trivial
  | succ data ih =>
    have hread := (Runs.mapError (f := fun e : ReadFailure => e.failure)
      (Runs.read (m := n + 1) h.valid hscan ha.lt) (by rintro _ _ _ rfl; rfl) fun _ h => h).ends
        h.valid hs
    have hlower : ∀ τ υ, Evolves (n + 1) noSlot τ υ → Evolves m noSlot τ υ := fun _ _ he =>
      he.mono (by omega) fun _ h => h
    refine hread.bind (hlower σ) fun o τ hr hv he hq => ?_
    have hr := mapError_eq_ok.mp hr
    have hready := h.lasts he.1 hv
    have haτ : τ.At n .shown := ha.lasts he.1 (Nat.lt_succ_self n) (by simp)
    cases hq with
    | none =>
      obtain ⟨u, u', hu, hu', hr⟩ := haτ
      rw [hv.right_eq hs] at hu'
      obtain rfl := Option.some.inj (hu.symm.trans hu')
      dsimp only
      rw [contents_apply hu]
      exact .ok hv (hlower σ τ he) hr
    | @some e _ stop rest hx hrest =>
      have hlt : n + 1 ≤ τ.left.roots.size := he.depth ▸ ha.lt
      have heval := ends_eval (ε := Failure) (k := k) (n := n + 1) hs hready hx hlt
        fun b hb hroom => hi b data scan _ _ _ hb (.refl _ _ _) hr hroom
      refine (heval.bind (R := Evolves m noSlot) (hlower τ) fun v υ hev hvu hu hv' => ?_).from_later
        fun _ => Motion.trans (hlower σ τ he)
      have hltυ : n < υ.left.roots.size := hu.depth ▸ hlt
      have hput := evolves_put (σ := υ) (A := noSlot) hm id v v
      obtain ⟨d, -, hd, -, -⟩ := hvu.data hv'
      rw [bind_of_ok (hasType_apply hd .error)]
      by_cases ht : d.type = .error
      · -- the failure is reported
        have htype : υ.left.typeAt v = some .error := by rw [typeAt, hd, ← ht]; rfl
        obtain ⟨failure, hf, -⟩ := failureOf_matched (ε := Failure) hvu
          (matched_of_typeAt hvu hv' htype)
        rw [if_pos (beq_iff_eq.mpr ht), bind_of_ok hf]
        exact .error hvu (hlower τ υ hu) rfl
      · have hstore := store_apply (ε := Failure) hltυ v
        rw [if_neg (by simpa using ht), bind_of_ok hstore]
        refine (ih (σ := υ.put n v v) ?_ (at_put hvu hltυ hv') hrest ?_).from_later fun _ =>
          Motion.trans (Motion.trans (hlower τ υ hu) hput)
        · exact (hready.lasts hu.1 hvu).lasts hput.1 (hvu.put hv' (by simp))
        · refine fun b data' scan' reading l l' hb hp => hi b data' scan' reading l l' hb ?_
          refine .next hr hev ?_ hstore hp
          rw [hasType_apply hd .error, beq_eq_false_iff_ne.mpr ht]

/-- Running a text that leaves all suspended expressions intact. -/
lemma ends_run (hs : W.same) (h : Ready W noSlot ctx.keywords ctx.keywords ρ σ)
    (hscan : (Scan.ofString text 0).Within W.names) (hi : LeavesIntact ctx k text σ.left) :
    Ends W (Evolves 0 noSlot) σ (fun v v' τ => τ.rel .shown v v')
      (Interpreter.run ctx k text σ.left) := by
  have hnil : σ.rel .shown Handle.emptyList .emptyList := (h.valid.sentinel (by decide)).1
  by_cases hlt : σ.left.roots.size < σ.left.rootSlots
  · have hacq := acquire_apply (ε := Failure) hlt .emptyList
    have hready := h.push hnil (by simp)
    refine (Runs.rooted_evolves h.valid (Nat.zero_le _) (fun _ => False.elim)
      (.of_ends ?_ hready.valid hs)).ends h.valid hs
    refine ends_runData hs hready (at_push h.valid hnil) (Nat.zero_le _) hscan _ ?_
    rintro b data' scan' reading l l' rfl hp hr hroom
    exact hi _ ⟨b, _, _, data', scan', reading, l, l', hacq, hp, hr, hroom, rfl, rfl⟩
  · have hacq : (acquire .emptyList : HeapM Failure Root) σ.left =
        .halt (.rootOverflow σ.left.rootSlots) := if_neg hlt
    rw [Interpreter.run, rooted, bind_of_halt hacq]
    exact .halt trivial

/-- Setting up a machine. -/
lemma ready_of_install {s : Sizing} {audited : Bool} (hs : W.same)
    (hi : install #[] { Heap.ofSizing s with audited } = .ok ctx h) :
    ∃ τ : Twin, τ.left = h ∧ Ready W noSlot ctx.keywords ctx.keywords τ τ := by
  have hfresh : (fresh s s audited).Valid W := valid_fresh fun _ => rfl
  have hends := (Runs.install (m := 0) hfresh (Nat.zero_le _) #[] #[]).ends hfresh hs
  change Ends W _ _ _ (install #[] { Heap.ofSizing s with audited }) at hends
  rw [hi] at hends
  obtain @⟨_, τ, hv, -, hwords⟩ := hends
  exact ⟨τ, rfl, hv, active_noSlot τ, Motion.refl _ τ, hwords⟩

end Twin

end ArenaScheme
