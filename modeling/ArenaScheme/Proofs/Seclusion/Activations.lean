/-
# Activations whose bindings are hidden

At the beginning of every turn the invariant holds, under a veil that leaves the slot of the turn
bare.  It holds at the beginning of a run of a text, where there is nothing to veil.  A turn keeps
the invariant under the same veil.  And where a turn asks for an evaluation, the invariant holds
under a veil that covers what the turn keeps to itself meanwhile: if the evaluator stops there on
purpose, then the turn halts for that reason, and a safe turn does so under this condition only.
-/
import ArenaScheme.Proofs.Seclusion.Machines

namespace ArenaScheme

open Heap HeapM Evaluator

variable {ctx : Context} {kw : Keywords} {R : Prop} {V : Veil} {h k : Heap} {a z : Activation}
  {budget : Nat} {expr env : Handle} {nested : Nested} {sites : Set Site} {site : Site}
  {text : String}

/-! ## Evaluators that serve some sites only -/

lemma Sheltering.onlyAt (hn : Sheltering kw R nested) (sites : Set Site) :
    Sheltering kw R (onlyAt nested sites) := by
  intro V h expr hr he
  by_cases hm : (⟨expr, h⟩ : Site) ∈ sites
  · rw [Evaluator.onlyAt, if_pos hm]
    exact hn V h expr hr he
  · rw [Evaluator.onlyAt, if_neg hm]
    exact fun hc => absurd hc (by simp)

/-- What is known where the evaluator stops on purpose. -/
lemma Sheltering.stopAt (hn : Sheltering kw R nested)
    (hR : ∀ V : Veil, V.Ready kw site.heap → V.Shows site.heap site.expr → R) :
    Sheltering kw R (stopAt nested site .baseFrame) := by
  intro V h expr hr he
  by_cases hs : (⟨expr, h⟩ : Site) = site
  · rw [Evaluator.stopAt, if_pos hs]
    subst hs
    exact fun _ => hR V hr he
  · rw [Evaluator.stopAt, if_neg hs]
    exact hn V h expr hr he

namespace Activation

/-- The invariant at the beginning of a turn. -/
def Sheltered (ctx : Context) (a : Activation) : Prop :=
  ∃ V : Veil, V.Ready ctx.keywords a.heap ∧ V.Bares a.heap a.slot

lemma sheltered_start (budget : Nat) (hr : V.Ready ctx.keywords h) (he : V.Shows h expr)
    (henv : h.Unswept → h.IsFrame env) : (start budget expr env h).Sheltered ctx := by
  have hframe : V.Shows h h.currentEnv := fun hu => (hr.seals hu).open_frame (hr.seals hu).current
  have h1 : V.Keeps h { h with roots := h.roots.push h.currentEnv } := .push hr.seals hframe
  have h2 : V.Keeps h { h with roots := (h.roots.push h.currentEnv).push expr } :=
    h1.trans (.push h1.seals (h1.shows he))
  have h3 : V.Keeps h (start budget expr env h).heap :=
    h2.trans (.switchEnv h2.seals fun hu => h2.frames hu _ (henv (h2.unswept hu)))
  refine ⟨V, hr.keeps h3, fun hu hm => ?_⟩
  have hlt := (hr.seals (h3.unswept hu)).held _ hm
  exact absurd hlt (by simp [start])

lemma Sheltered.turn (hh : ctx.host = #[]) (ha : a.Sheltered ctx) {focus : Focus}
    (ht : a.turn ctx (a.evaluator ctx) = .ok (.again focus) h) :
    Sheltered ctx ⟨budget, a.slot, focus, h⟩ := by
  obtain ⟨V, hr, hs⟩ := ha
  obtain ⟨hk, -⟩ := Outcome.Safe.of_ok (R := True)
    (Safe.turn hh (Safe.nestedEval hh _) _ _ hr hs) ht
  exact ⟨V, hr.keeps hk, hk.bares hs⟩

/-- What holds where a turn asks for an evaluation. -/
lemma Sheltered.asks (hh : ctx.host = #[]) (ha : a.Sheltered ctx) (hq : a.Asks ctx sites site) :
    ∃ V : Veil, V.Ready ctx.keywords site.heap ∧ V.Shows site.heap site.expr := by
  obtain ⟨V, hr, hs⟩ := ha
  have hn := ((Safe.nestedEval (R := ∃ V : Veil, V.Ready ctx.keywords site.heap ∧
    V.Shows site.heap site.expr) hh a.budget).onlyAt sites).stopAt fun V hr he => ⟨V, hr, he⟩
  have hturn := Safe.turn hh hn a.budget a.focus hr hs
  have hstop := hq .baseFrame
  rw [Activation.turn, evaluator] at hstop
  rw [hstop] at hturn
  exact hturn rfl

lemma Follows.sheltered (hh : ctx.host = #[]) (hz : Follows ctx a z) (ha : a.Sheltered ctx) :
    z.Sheltered ctx := by
  induction hz with
  | refl a => exact ha
  | again _ ht _ ih => exact ih (ha.turn hh ht)
  | inner _ hq _ _ ih =>
    obtain ⟨V, hr, he⟩ := ha.asks hh hq
    exact ih (sheltered_start _ hr he fun hu => (hr.seals hu).current)

end Activation

/-! ## Runs of texts -/

/-- The evaluation of a text on a heap gets to an activation. -/
def Executes (ctx : Context) (text : String) (h : Heap) (z : Activation) : Prop :=
  ∃ (budget : Nat) (last : Root) (k : Heap) (data : Nat) (scan : Scan) (reading : Reading)
    (k' l : Heap), (acquire .emptyList h : Outcome Failure Root) = .ok last k ∧
    Passes ctx (budget + 1) last ((Scan.ofString text 0).lexemes.length + 1)
    (Scan.ofString text 0) k
      (data + 1) scan k' ∧
    HeapM.read scan k' = .ok (some reading) l ∧ l.Roomy ∧
    Activation.Follows ctx (Activation.start budget reading.datum l.currentEnv l) z

/-- Every datum of a text finds the invariant when it is read. -/
lemma Passes.ready (hh : ctx.host = #[]) {last : Root} {data data' : Nat} {scan scan' : Scan}
    (hp : Passes ctx budget last data scan h data' scan' k)
    (hr : Veil.none.Ready ctx.keywords h) : Veil.none.Ready ctx.keywords k := by
  have hbare := Veil.bare_none
  induction hp with
  | refl => exact hr
  | @next data data' scan scan' reading v h i j k h' hread hv _ hs _ ih =>
    obtain ⟨h1, hd⟩ := Outcome.Safe.of_ok (R := True) (Safe.read hbare hr.seals scan) hread
    have hdatum : Veil.none.Shows i reading.datum := hd reading rfl
    obtain ⟨h2, hval⟩ := Outcome.Safe.of_ok (R := True)
      (Safe.eval (ε := Failure) hh budget (hr.keeps h1) hdatum) hv
    obtain ⟨h3, -⟩ := Outcome.Safe.of_ok (R := True)
      (Safe.store (ε := Failure) h2.seals (hbare.bares j last) hval) hs
    exact ih (((hr.keeps h1).keeps h2).keeps h3)

lemma Executes.sheltered (hm : Machine ctx h) (hz : Executes ctx text h z) : z.Sheltered ctx := by
  obtain ⟨hh, hr⟩ := hm.ready
  obtain ⟨budget, last, k, data, scan, reading, k', l, hacq, hp, hread, -, hz⟩ := hz
  obtain ⟨h1, -⟩ := Outcome.Safe.of_ok (R := True)
    (Safe.acquire (ε := Failure) hr.seals fun hu => (hr.seals hu).open_sentinel (by decide)) hacq
  have hr' := hp.ready hh (hr.keeps h1)
  obtain ⟨h2, hd⟩ := Outcome.Safe.of_ok (R := True) (Safe.read Veil.bare_none hr'.seals scan) hread
  refine hz.sheltered hh (Activation.sheltered_start _ (hr'.keeps h2) (hd reading rfl) fun hu => ?_)
  exact (h2.seals hu).current

/-- What a turn and those after it come to is open. -/
lemma Activation.Sheltered.outcome {v : Handle} (hh : ctx.host = #[]) (ha : a.Sheltered ctx)
    (ho : a.outcome ctx = .ok v k ∨ a.outcome ctx = .error v k) :
    ∃ V : Veil, V.Ready ctx.keywords k ∧ V.Shows k v := by
  obtain ⟨V, hr, hs⟩ := ha
  have hsafe := Safe.loop (R := True) hh (a.budget + 1) a.focus hr hs
  rcases ho with ho | ho
  · obtain ⟨hk, hv⟩ := Outcome.Safe.of_ok hsafe ho
    exact ⟨V, hr.keeps hk, hv⟩
  · obtain ⟨hk, hv⟩ := Outcome.Safe.of_error hsafe ho
    exact ⟨V, hr.keeps hk, hv⟩

end ArenaScheme
