/-
# Guarded runs

Whether suspended expressions are left intact can be found out by running the program under guard:
after every turn, what the slots of suspended expressions lead to is compared with what it was
before the turn.  If it has changed, the run halts.

A guarded run that does not halt for this reason is a run like any other, and no activation in it
has changed an expression that was suspended.
-/
import ArenaScheme.Proofs.Suspension.Texts

namespace ArenaScheme

open Heap HeapM Evaluator Interpreter Activation
open Twin (also noSlot)

/-! ## Comparing expressions -/

namespace Heap

variable {h k : Heap} {slots : List Nat} {vs : List Handle} {v : Handle}

/-- Add to some objects what others lead to through pairs, as far as the fuel goes. -/
def partsFrom (h : Heap) : Nat → List Handle → List Handle → List Handle
  | 0, _, seen | _ + 1, [], seen => seen
  | fuel + 1, v :: todo, seen =>
    if seen.contains v then h.partsFrom fuel todo seen
    else match h.pairAt v with
      | some (x, c) => h.partsFrom fuel (x :: c :: todo) (v :: seen)
      | none => h.partsFrom fuel todo (v :: seen)

/-- The objects include what the slots hold, and what pairs among them lead to. -/
def covers (h : Heap) (slots : List Nat) (vs : List Handle) : Bool :=
  slots.all (fun i => (h.roots[i]?).all vs.contains) &&
    vs.all fun v => (h.pairAt v).all fun p => vs.contains p.1 && vs.contains p.2

/-- Whether one heap has the parts of what the slots hold in the other, as they are there. -/
def upheldBy (h : Heap) (slots : List Nat) (k : Heap) : Bool :=
  let vs := h.partsFrom (3 * h.cells.size) (slots.filterMap (h.roots[·]?)) []
  h.covers slots vs && vs.all fun v => k.pairAt v == h.pairAt v

lemma covers_part (hc : h.covers slots vs = true) (hv : h.Part (· ∈ slots) v) : v ∈ vs := by
  simp only [covers, Bool.and_eq_true, List.all_eq_true, Option.all_eq_true, List.contains_iff_mem]
    at hc
  induction hv with
  | slot hi hv => exact hc.1 _ hi _ hv
  | car _ hp ih => exact (hc.2 _ ih _ hp).1
  | cdr _ hp ih => exact (hc.2 _ ih _ hp).2

lemma upholds_of_upheldBy (hu : h.upheldBy slots k = true) : h.Upholds (· ∈ slots) k :=
  fun v hv => by
  rw [upheldBy, Bool.and_eq_true, List.all_eq_true] at hu
  exact beq_iff_eq.mp (hu.2 v (covers_part hu.1 hv))

end Heap

/-! ## Guarded actions -/

namespace Evaluator

/-- The reason for which guarded actions halt. -/
def alarm : Halt := .currentNotFrame

/-- Halt if an action has changed what the slots lead to. -/
def guarding {α : Type} (slots : List Nat) (x : EvalM α) : EvalM α := fun h =>
  match x h with
  | .ok a k => if h.upheldBy slots k then .ok a k else .halt alarm
  | .error e k => if h.upheldBy slots k then .error e k else .halt alarm
  | .halt c => .halt c

/-- Take turns under guard.  The slots hold the expressions that are suspended meanwhile. -/
def guardedLoop (ctx : Context) : Nat → List Nat → Root → Focus → EvalM Handle
  | 0, _, _, _ => halt .unfinished
  | budget + 1, slots, slot, focus => do
    let nested : Nested := fun expr => keepingEnv
      (runWith (guardedLoop ctx budget (slot.slot :: slots)) expr)
    match ← guarding slots (turn ctx nested budget slot focus) with
    | .done v => return v
    | .again focus => guardedLoop ctx budget slots slot focus

/-- Evaluate an expression under guard where names are looked up now. -/
def guardedEval (ctx : Context) (budget : Nat) (expr : Handle) : HeapM Failure Handle :=
  recover (keepingEnv (runWith (guardedLoop ctx budget []) expr)) id

end Evaluator

namespace Interpreter

/-- Run at most the given number of data of a scan under guard. -/
def guardedData (ctx : Context) (budget : Nat) (last : Root) : Nat → Scan → HeapM Failure Handle
  | 0, _ => halt .unfinished
  | data + 1, scan => do
    match ← mapError (HeapM.read scan) (·.failure) with
    | none => contents last
    | some reading =>
      let v ← guardedEval ctx budget reading.datum
      if ← hasType .error v then fail (← failureOf v)
      else
        store last v
        guardedData ctx budget last data reading.rest

/-- Run a text under guard. -/
def guardedRun (ctx : Context) (budget : Nat) (text : String) : HeapM Failure Handle := do
  let scan := Scan.ofString text 0
  rooted .emptyList fun last => guardedData ctx budget last (scan.lexemes.length + 1) scan

end Interpreter

variable {α : Type} {ctx : Context} {h k l : Heap} {slots : List Nat} {slot : Root} {focus : Focus}
  {budget : Nat} {text : String} {expr env : Handle} {a : Activation}
  {L : Root → Focus → EvalM Handle} {c : Halt}

/-! ## What guarded actions are good for -/

lemma guarding_sound {x : EvalM α} (hx : guarding slots x h ≠ .halt alarm) :
    guarding slots x h = x h ∧ (x h).Leaving (h.Upholds (· ∈ slots)) := by
  revert hx
  unfold guarding
  cases x h with
  | ok a k =>
    dsimp only
    split
    · next hu => exact fun _ => ⟨rfl, .ok (upholds_of_upheldBy hu)⟩
    · exact fun hx => absurd rfl hx
  | error e k =>
    dsimp only
    split
    · next hu => exact fun _ => ⟨rfl, .error (upholds_of_upheldBy hu)⟩
    · exact fun hx => absurd rfl hx
  | halt c => exact fun _ => ⟨rfl, .halt⟩

/-- An evaluation halts where its turns do. -/
lemma keepingEnv_halts (hr : h.Roomy)
    (hl : L ⟨h.roots.size + 1⟩ .expr (start 0 expr h.currentEnv h).heap = .halt c) :
    keepingEnv (runWith L expr) h = .halt c := by
  have h1 : h.roots.size < h.rootSlots := Nat.lt_of_succ_lt hr
  have h2 : (h.roots.push h.currentEnv).size < h.rootSlots := by
    rw [Array.size_push]
    exact hr
  have hrun : runWith (fun _ _ => halt c) expr { h with roots := h.roots.push h.currentEnv } =
      .halt c := by
    rw [runWith, rooted, bind_of_ok (acquire_apply h2 expr), ensuring, halt]
  rw [keepingEnv_congr (M := fun _ _ => halt c) fun _ => hl, keepingEnv]
  change rooted h.currentEnv _ h = _
  rw [rooted, bind_of_ok (acquire_apply h1 _), ensuring, ensuring, hrun]

/-- What a guarded evaluation is good for, given that guarded turns are. -/
lemma guardedNested_sound {A : Nat → Prop}
    (hl : ∀ slot focus h, guardedLoop ctx budget slots slot focus h ≠ .halt alarm →
      guardedLoop ctx budget slots slot focus h = loop ctx budget slot focus h ∧
        ∀ n, budget = n + 1 → Intact ctx A ⟨n, slot, focus, h⟩)
    (hx : keepingEnv (runWith (guardedLoop ctx budget slots) expr) h ≠ .halt alarm) :
    keepingEnv (runWith (guardedLoop ctx budget slots) expr) h = nestedEval ctx budget expr h ∧
      ∀ n, budget = n + 1 → h.Roomy → Intact ctx A (startAt n ⟨expr, h⟩) := by
  have hsound := fun hr : h.Roomy => hl _ _ _ fun ha => hx (keepingEnv_halts hr ha)
  exact ⟨keepingEnv_congr fun hr => (hsound hr).1, fun n hb hr => (hsound hr).2 n hb⟩

/-- A guarded turn, given that every evaluation that serves it raises the alarm or else is like any
other and leaves all suspended expressions intact. -/
lemma guardedTurn_sound {nested : Nested} {A : Nat → Prop}
    (hn : ∀ s : Site, nested s.expr s.heap ≠ .halt alarm →
      nested s.expr s.heap = a.evaluator ctx s.expr s.heap ∧
        ∀ n, a.budget = n + 1 → s.heap.Roomy → Intact ctx A (startAt n s))
    (hx : guarding slots (fun _ => a.turn ctx nested) a.heap ≠ .halt alarm) :
    guarding slots (fun _ => a.turn ctx nested) a.heap = a.turn ctx (a.evaluator ctx) ∧
      (a.turn ctx (a.evaluator ctx)).Leaving (a.heap.Upholds (· ∈ slots)) ∧
      ∀ n sites s, a.budget = n + 1 → a.Asks ctx sites s → s.heap.Roomy →
        Intact ctx A (startAt n s) := by
  obtain ⟨heq, hleaving⟩ := guarding_sound hx
  have hturn : a.turn ctx nested ≠ .halt alarm := fun ht => hx (heq.trans ht)
  have hcases : ∀ s : Site, nested s.expr s.heap = a.evaluator ctx s.expr s.heap ∨
      nested s.expr s.heap = .halt alarm := fun s => or_iff_not_imp_right.mpr fun hs => (hn s hs).1
  have hasked : ∀ sites s, a.Asks ctx sites s → nested s.expr s.heap ≠ .halt alarm :=
    fun sites s hq hs => hturn (hq.halts (fun _ t _ _ => hcases t) hs)
  have hsame : a.turn ctx nested = a.turn ctx (a.evaluator ctx) :=
    turn_congr fun sites s hq => (hn s (hasked sites s hq)).1
  exact ⟨heq.trans hsame, hsame ▸ hleaving, fun n sites s hb hq hr =>
    (hn s (hasked sites s hq)).2 n hb hr⟩

/-- Guarded turns that do not raise the alarm are turns like any others, and they leave all
suspended expressions intact. -/
lemma guardedLoop_sound (hx : guardedLoop ctx budget slots slot focus h ≠ .halt alarm) :
    guardedLoop ctx budget slots slot focus h = loop ctx budget slot focus h ∧
      ∀ n, budget = n + 1 → Intact ctx (· ∈ slots) ⟨n, slot, focus, h⟩ := by
  induction budget generalizing slots slot focus h with
  | zero => exact ⟨rfl, fun _ hb => absurd hb (by simp)⟩
  | succ budget ih =>
    set nested : Nested :=
      fun expr => keepingEnv (runWith (guardedLoop ctx budget (slot.slot :: slots)) expr)
        with hnested
    have hslots : (· ∈ slot.slot :: slots) = also (· ∈ slots) slot.slot := by
      funext i
      simp [also, or_comm]
    have hloop : guardedLoop ctx (budget + 1) slots slot focus h =
        (guarding slots (Evaluator.turn ctx nested budget slot focus) >>= fun
          | .done v => pure v
          | .again focus => guardedLoop ctx budget slots slot focus) h := rfl
    rw [hloop] at hx ⊢
    rw [loop_succ]
    set a : Activation := ⟨budget, slot, focus, h⟩ with ha
    have hguard : guarding slots (fun _ => a.turn ctx nested) a.heap ≠ .halt alarm := fun hg =>
      hx (bind_of_halt hg)
    obtain ⟨heq, hleaving, hinner⟩ :=
      guardedTurn_sound (fun s hs => guardedNested_sound (fun _ _ _ hl => hslots ▸ ih hl) hs) hguard
    replace heq : guarding slots (Evaluator.turn ctx nested budget slot focus) h =
        Evaluator.turn ctx (nestedEval ctx budget) budget slot focus h := heq
    have hnext : ∀ focus' k, Evaluator.turn ctx (nestedEval ctx budget) budget slot focus h =
        .ok (.again focus') k → guardedLoop ctx budget slots slot focus' k ≠ .halt alarm :=
          fun focus' k ht hg => hx ((bind_of_ok (heq.trans ht)).trans hg)
    refine ⟨?_, ?_⟩
    · cases ht : Evaluator.turn ctx (nestedEval ctx budget) budget slot focus h with
      | ok t k =>
        rw [bind_of_ok (heq.trans ht), bind_of_ok ht]
        cases t with
        | done v => rfl
        | again focus' => exact (ih (hnext focus' k ht)).1
      | error e k => rw [bind_of_error (heq.trans ht), bind_of_error ht]
      | halt c => rw [bind_of_halt (heq.trans ht), bind_of_halt ht]
    · rintro _ ⟨⟩
      exact intact_of_turn hleaving (fun n focus' k hb ht => (ih (hnext focus' k ht)).2 n hb) hinner

/-- A switch to the frame that is current already changes nothing, if it does not halt. -/
lemma keepingEnv_switch_self (x : EvalM Handle) (h : Heap) :
    keepingEnv (do setCurrentEnv h.currentEnv; x) h = keepingEnv x h ∨
      ∃ c, keepingEnv (do setCurrentEnv h.currentEnv; x) h = .halt c := by
  by_cases hlt : h.roots.size < h.rootSlots
  · rcases setCurrentEnv_cases (ε := Handle) #[] h.currentEnv
      { h with roots := h.roots.push h.currentEnv }
      with hs | ⟨c, hs, -⟩
    · exact .inl (rooted_congr fun _ => by rw [ensuring, ensuring, bind_of_ok hs])
    · refine .inr ⟨c, ?_⟩
      change rooted h.currentEnv _ h = _
      rw [rooted, bind_of_ok (acquire_apply hlt _), ensuring, ensuring, bind_of_halt hs]
  · have hacq :
        (acquire h.currentEnv : EvalM Root) h = .halt (.rootOverflow h.rootSlots) := if_neg hlt
    refine .inr ⟨.rootOverflow h.rootSlots, ?_⟩
    change rooted h.currentEnv _ h = _
    rw [rooted, bind_of_halt hacq]

/-- What the guarded evaluation of a datum is good for. -/
lemma guardedEval_sound (hx : guardedEval ctx budget expr h ≠ .halt alarm) :
    (∀ v k, (Evaluator.eval ctx budget expr h : Outcome Failure Handle) = .ok v k →
      guardedEval ctx budget expr h = .ok v k) ∧
      ∀ n, budget = n + 1 → h.Roomy → Intact ctx noSlot (start n expr h.currentEnv h) := by
  have hguard : keepingEnv (runWith (guardedLoop ctx budget []) expr) h ≠ .halt alarm := fun hg =>
    hx (by rw [guardedEval, recover, hg])
  obtain ⟨heq, hi⟩ := guardedNested_sound (fun _ _ _ hl => guardedLoop_sound hl) hguard
  refine ⟨fun v k hv => ?_, fun n hb hr => (hi n hb hr).mono fun _ => False.elim⟩
  have heval : (Evaluator.eval ctx budget expr : HeapM Failure Handle) h =
      recover (keepingEnv do setCurrentEnv h.currentEnv; runWith (loop ctx budget) expr) id h := rfl
  rw [heval, recover] at hv
  rw [guardedEval, recover, heq]
  rcases keepingEnv_switch_self (runWith (loop ctx budget) expr) h with hs | ⟨c, hs⟩
  · rw [hs] at hv
    exact hv
  · rw [hs] at hv
    exact absurd hv (by simp)

/-- Data that are passed under guard are passed without it. -/
lemma Passes.guarded {last : Root} {data data' : Nat} {scan scan' : Scan}
    (hp : Passes ctx budget last data scan h data' scan' k)
    (hx : guardedData ctx budget last data scan h ≠ .halt alarm) :
    guardedData ctx budget last data' scan' k ≠ .halt alarm := by
  induction hp with
  | refl => exact hx
  | next hread hv ht hs hp ih =>
    rw [guardedData, bind_of_ok (mapError_read_of_ok hread)] at hx
    dsimp only at hx
    have hg := (guardedEval_sound fun hg => hx (bind_of_halt hg)).1 _ _ hv
    rw [bind_of_ok hg, bind_of_ok ht, if_neg (by simp), bind_of_ok hs] at hx
    exact ih hx

/-- A text that raises no alarm when it is run under guard leaves suspended expressions intact. -/
lemma leavesIntact_of_guardedRun (hx : guardedRun ctx budget text h ≠ .halt alarm) :
    LeavesIntact ctx budget text h := by
  rintro _ ⟨rest, last, k, data, scan, reading, k', l, hacq, hp, hread, hroom, hb, rfl⟩
  have hdata : guardedData ctx budget last (data + 1) scan k' ≠ .halt alarm :=
    hp.guarded fun hg => hx (by
    rw [guardedRun, rooted, bind_of_ok hacq, ensuring, hg])
  refine (guardedEval_sound fun hg => hdata ?_).2 rest hb hroom
  rw [guardedData, bind_of_ok (mapError_read_of_ok hread)]
  exact bind_of_halt hg

end ArenaScheme
