/-
# Reading in step

Two runs that read the same text open and close the same lists, so the stacks of what is unfinished
differ in nothing but the handles: corresponding lists are held in slots of the same position, the
latest on top.  Every list under construction is a draft of its slot.  When it is closed, the draft
becomes shown, and so the datum that a reading ends with is shown to the program.

Only one run may find no memory for an object.  It then gives up alone, which takes no more than the
right depth of the root stack.
-/
import ArenaScheme.Proofs.Twin.Drafts
import ArenaScheme.Proofs.Twin.Symbols
import ArenaScheme.Proofs.Discipline.Reading

namespace ArenaScheme

/-- The name of the symbol that a token stands for. -/
def Token.name? : Token → Option String
  | .literal (.symbol name) => some name
  | _ => none

/-- All symbols that a scan has literally are among the given names. -/
def Scan.Within (names : String → Prop) (scan : Scan) : Prop :=
  ∀ name ∈ scan.lexemes.filterMap (·.token.name?), names name

instance (names : String → Prop) [DecidablePred names] (scan : Scan) :
    Decidable (scan.Within names) := inferInstanceAs (Decidable (∀ name ∈ _, names name))

lemma Scan.Within.token {names : String → Prop} {scan : Scan} (hs : scan.Within names)
    {lexeme : Lexeme} (hl : lexeme ∈ scan.lexemes) {name : String}
    (ht : lexeme.token = .literal (.symbol name)) : names name :=
  hs name (List.mem_filterMap.mpr ⟨lexeme, hl, by rw [ht]; rfl⟩)

/-- Readings of the same place with related data, followed by what is within the names. -/
inductive Reading.Agree (names : String → Prop) (R : Handle → Handle → Prop) :
    Option Reading → Option Reading → Prop
  | none : Agree names R none none
  | some {v v' : Handle} {stop : Nat} {rest : Scan} (hv : R v v') (hr : rest.Within names) :
      Agree names R (some ⟨v, stop, rest⟩) (some ⟨v', stop, rest⟩)

instance : Fault ReadFailure where
  matched _ e f := e = f
  starved e := e.failure = .outOfMemory
  matched_congr _ _ h := h

namespace Twin

open Heap HeapM Reader

variable {ε α α' β : Type} [Fault ε] {W : Regime} {σ τ : Twin} {p p' : List Pending} {goal : Goal}
  {v v' : Handle} {b m n : Nat} {A : Nat → Prop}

/-- No slot at all: nothing is evaluated while a text is read. -/
def noSlot : Nat → Prop := fun _ => False

lemma active_noSlot (σ : Twin) : σ.Active noSlot := fun _ => False.elim

/-! ## What is unfinished -/

/-- Corresponding stacks of what is unfinished, which occupy the slots from `b` up to, but without,
`n`. -/
inductive Suspended (σ : Twin) (b : Nat) : Nat → List Pending → List Pending → Prop
  | nil : Suspended σ b b [] []
  | items {n : Nat} {last last' : Option Handle} {p p' : List Pending}
      (hd : σ.Drafting n last last') (hp : Suspended σ b n p p') :
      Suspended σ b (n + 1) (.items ⟨n⟩ last :: p) (.items ⟨n⟩ last' :: p')
  | tail {n : Nat} {last last' : Handle} {p p' : List Pending}
      (hd : σ.Drafting n (some last) (some last')) (hp : Suspended σ b n p p') :
      Suspended σ b (n + 1) (.tail ⟨n⟩ last :: p) (.tail ⟨n⟩ last' :: p')
  | mark {n : Nat} {symbol symbol' : Handle} {p p' : List Pending}
      (hs : σ.Lasting symbol symbol') (hp : Suspended σ b n p p') :
      Suspended σ b n (.mark symbol :: p) (.mark symbol' :: p')

/-- The same, with what has to come next. -/
inductive Awaits (σ : Twin) (b : Nat) : Nat → Goal → List Pending → List Pending → Prop
  | datum {n : Nat} {p p' : List Pending} (hp : σ.Suspended b n p p') : Awaits σ b n .datum p p'
  | closing {n : Nat} {p p' : List Pending} (hc : σ.Complete n) (hp : σ.Suspended b n p p') :
      Awaits σ b (n + 1) (.closing ⟨n⟩) p p'

/-- Corresponding progress. -/
inductive Progressed (σ : Twin) (b : Nat) : Progress → Progress → Prop
  | done {v v' : Handle} (hv : σ.rel .shown v v') : Progressed σ b (.done v) (.done v')
  | more {goal : Goal} {p p' : List Pending} (ha : σ.Awaits b σ.left.roots.size goal p p') :
      Progressed σ b (.more goal p) (.more goal p')

lemma Suspended.le (hs : σ.Suspended b n p p') : b ≤ n := by
  induction hs with
  | nil => exact le_rfl
  | items _ _ ih | tail _ _ ih => exact Nat.le_succ_of_le ih
  | mark _ _ ih => exact ih

lemma Suspended.lasts (hs : σ.Suspended b n p p') (hl : Lasts n A σ τ) (hvt : τ.Valid W) :
    τ.Suspended b n p p' := by
  induction hs with
  | nil => exact .nil
  | items hd _ ih =>
    exact .items (hd.lasts hl hvt (Nat.lt_succ_self _)) (ih (hl.mono (Nat.le_succ _) fun _ h => h))
  | tail hd _ ih =>
    exact .tail (hd.lasts hl hvt (Nat.lt_succ_self _)) (ih (hl.mono (Nat.le_succ _) fun _ h => h))
  | mark hs _ ih => exact .mark (hl.lasting hs) (ih hl)

lemma Drafting.complete {last last' : Option Handle} (hd : σ.Drafting n last last') :
    σ.Complete n := by
  match last, last', hd with
  | none, none, hd => exact .inl hd
  | some l, some l', ⟨k, v, v', h1, h2, hc⟩ => exact .inr ⟨v, v', h1, h2, hc.rel_first⟩

/-! ## Giving up -/

omit [Fault ε] in
/-- The latest slots are released. -/
lemma released (hv : σ.Valid W) (hn : σ.left.roots.size = n + 1) :
    ∃ v v', (release ⟨n⟩ : HeapM ε Handle) σ.left = .ok v σ.pop.left ∧
      (release ⟨n⟩ : HeapM ε Handle) σ.right = .ok v' σ.pop.right ∧
      σ.left.roots[n]? = some v ∧ σ.right.roots[n]? = some v' := by
  obtain ⟨v, h1, hr⟩ := release_apply (ε := ε) hn
  obtain ⟨v', h2, hr'⟩ := release_apply (ε := ε) (hv.depth.trans hn)
  exact ⟨v, v', hr, hr', h1, h2⟩

lemma size_pop (hn : σ.left.roots.size = n + 1) : σ.pop.left.roots.size = n := by
  change σ.left.roots.pop.size = n
  rw [Array.size_pop, hn, Nat.add_sub_cancel]

omit [Fault ε] in
/-- Giving up takes no more than the right depth of the root stack. -/
lemma Suspended.abandon (hs : σ.Suspended b n p p') (hv : τ.Valid W)
    (hn : τ.left.roots.size = n) :
    ∃ υ : Twin, (abandon p : HeapM ε Unit) τ.left = .ok () υ.left ∧
      (Reader.abandon p' : HeapM ε Unit) τ.right = .ok () υ.right ∧ υ.Valid W ∧
      Lasts b noSlot τ υ := by
  induction hs generalizing τ with
  | nil => exact ⟨τ, rfl, rfl, hv, Motion.refl _ τ⟩
  | mark _ _ ih => exact ih hv hn
  | items _ hp ih | tail _ hp ih =>
    obtain ⟨v, v', h1, h2, -, -⟩ := released (ε := ε) hv hn
    obtain ⟨υ, h3, h4, hvu, hl⟩ := ih hv.pop (size_pop hn)
    refine ⟨υ, (bind_of_ok h1).trans h3, (bind_of_ok h2).trans h4, hvu, .trans ?_ hl⟩
    exact lasts_pop hv.depth (by have := hp.le; omega) fun _ => False.elim

lemma Runs.refuse (hv : σ.Valid W) (ha : σ.Awaits b σ.left.roots.size goal p p')
    (fault : ReadFault) (position : Nat) {Q : α → α' → Twin → Prop} :
    Runs W (Lasts b noSlot) (refuse goal p fault position) (refuse goal p' fault position) σ Q := by
  obtain ⟨υ, h1, h2, hvu, hl⟩ : ∃ υ : Twin,
      (abandonGoal goal p : HeapM ReadFailure Unit) σ.left = .ok () υ.left ∧
      (abandonGoal goal p' : HeapM ReadFailure Unit) σ.right = .ok () υ.right ∧ υ.Valid W ∧
      Lasts b noSlot σ υ := by
    generalize hn : σ.left.roots.size = n at ha
    cases ha with
    | datum hp => exact hp.abandon hv hn
    | closing hc hp =>
      obtain ⟨v, v', h1, h2, -, -⟩ := released (ε := ReadFailure) hv hn
      obtain ⟨υ, h3, h4, hvu, hl⟩ := hp.abandon (ε := ReadFailure) hv.pop (size_pop hn)
      refine ⟨υ, (bind_of_ok h1).trans h3, (bind_of_ok h2).trans h4, hvu, .trans ?_ hl⟩
      exact lasts_pop hv.depth (by have := hp.le; omega) fun _ => False.elim
  exact .error (τ := υ) (bind_of_ok h1) (bind_of_ok h2) hvu hl rfl

/-- Making objects for a datum, or giving up. -/
lemma Runs.building (hs : σ.Suspended b σ.left.roots.size p p') (position : Nat) {x : EvalM α}
    {y : EvalM α'} {Q : α → α' → Twin → Prop} (hx : Runs W (Evolves b noSlot) x y σ Q) :
    Runs W (Lasts b noSlot) (building p position x) (building p' position y) σ Q := by
  unfold Runs at hx ⊢
  unfold Reader.building
  revert hx
  generalize x σ.left = o
  generalize y σ.right = o'
  intro hx
  have hfail : ∀ τ : Twin, τ.Valid W → Evolves b noSlot σ τ → ∃ υ : Twin,
      (Reader.abandon p : HeapM ReadFailure Unit) τ.left = .ok () υ.left ∧
      (Reader.abandon p' : HeapM ReadFailure Unit) τ.right = .ok () υ.right ∧ υ.Valid W ∧
      Lasts b noSlot σ υ := fun τ hvt he => by
    obtain ⟨υ, h1, h2, hvu, hl⟩ := hs.abandon (ε := ReadFailure) hvt he.depth
    exact ⟨υ, h1, h2, hvu, he.1.trans hl⟩
  cases hx with
  | ok hq =>
    obtain ⟨τ, rfl, rfl, hvt, he, hq⟩ := hq
    exact .ok ⟨τ, rfl, rfl, hvt, he.1, hq⟩
  | error hm =>
    obtain ⟨τ, rfl, rfl, hvt, he, -⟩ := hm
    obtain ⟨υ, h1, h2, hvu, hl⟩ := hfail τ hvt he
    simp only [bind_of_ok h1, bind_of_ok h2]
    exact .error ⟨υ, rfl, rfl, hvu, hl, rfl⟩
  | halt hc => exact .halt hc
  | left hw ho =>
    refine .left hw ?_
    cases ho with
    | halt hc => exact .halt hc
    | starved _ hh =>
      obtain ⟨τ, rfl, hvt, he⟩ := hh
      obtain ⟨υ, h1, -, hvu, hl⟩ := hfail τ hvt he
      simp only [bind_of_ok h1]
      exact .starved rfl ⟨υ, rfl, hvu, hl⟩
  | right hw ho =>
    refine .right hw ?_
    cases ho with
    | halt hc => exact .halt hc
    | starved _ hh =>
      obtain ⟨τ, rfl, hvt, he⟩ := hh
      obtain ⟨υ, -, h2, hvu, hl⟩ := hfail τ hvt he
      simp only [bind_of_ok h2]
      exact .starved rfl ⟨υ, rfl, hvu, hl⟩

/-! ## Going on -/

/-- The symbol of a name that may occur in the program. -/
lemma Runs.word (hv : σ.Valid W) {name : String} (hn : W.names name) :
    Runs W Keeps (HeapM.intern name : HeapM ε Handle) (HeapM.intern name) σ fun v v' τ =>
      τ.Lasting v v' :=
  (Runs.intern hv name).post fun _ _ _ hvt _ hq => hvt.symbol_lasting hn hq.1 hq.2

lemma Runs.makeLiteral (hv : σ.Valid W) {l : Literal}
    (hl : ∀ name, l = .symbol name → W.names name) :
    Runs W Keeps (makeLiteral l) (makeLiteral l) σ fun v v' τ => τ.rel .shown v v' := by
  cases l with
  | bool t => cases t <;> exact .pure hv (hv.sentinel (by decide)).1
  | int n => exact .makeInt hv n
  | real x => exact .makeReal hv x
  | char byte =>
    exact .shown_atom (d := .char byte) hv rfl rfl (by simp [Datum.type]) (by simp [Datum.type])
  | str s =>
    exact .shown_atom (d := .str s) hv rfl rfl (by simp [Datum.type]) (by simp [Datum.type])
  | symbol name => exact (Runs.word hv (hl name rfl)).post fun _ _ _ _ _ h => h.1

/-- An element of a list is pushed onto it as onto any draft. -/
lemma complete_items (v : Handle) (list : Root) (last : Option Handle) (p : List Pending) :
    Reader.complete v (.items list last :: p) = (do
      let cell ← Template.push list last v
      return .more .datum (.items list (some cell) :: p)) := by
  cases last <;> simp only [Reader.complete, Template.push, Template.link, bind_assoc, pure_bind]

/-- Handing corresponding data to what waits for them. -/
lemma Runs.complete (hv : σ.Valid W) (hs : σ.Suspended b σ.left.roots.size p p')
    (hx : σ.rel .shown v v') :
    Runs W (Evolves b noSlot) (Reader.complete v p) (Reader.complete v' p') σ fun s s' τ =>
      τ.Progressed b s s' := by
  induction p generalizing σ v v' p' with
  | nil =>
    generalize σ.left.roots.size = n at hs
    cases hs
    exact .pure hv (.done hx)
  | cons q p ih =>
    generalize hn : σ.left.roots.size = n at hs
    cases hs with
    | @items n last last' p p' hd hp =>
      rw [complete_items, complete_items]
      refine ((Runs.push (m := n) hv (active_noSlot σ) le_rfl id hd hx).chain
        (U := Evolves n noSlot)
        (fun _ he => he.mono hp.le fun _ h => h) (fun c c' τ hvt he hq => .pure hvt (.more ?_))
        fun _ _ h h' => (Motion.trans h h').mono hp.le fun _ h => h)
      rw [he.depth, hn]
      exact .datum (.items hq (hp.lasts he.1 hvt))
    | @tail n last last' p p' hd hp =>
      refine ((Runs.link_rest (m := n) hv (active_noSlot σ) le_rfl id hd hx).chain
        (U := Evolves n noSlot) (fun _ he => he.mono hp.le fun _ h => h)
        (fun _ _ τ hvt he hq => .pure hvt (.more ?_))
        fun _ _ h h' => (Motion.trans h h').mono hp.le fun _ h => h)
      rw [he.depth, hn]
      exact .closing hq (hp.lasts he.1 hvt)
    | @mark n symbol symbol' p p' hs hp =>
      refine .bind_keeps
        (.list hv (.inl rfl) (.cons hs.1 (.cons hx .nil))) fun w w' τ hvt hk hq => ?_
      refine ih hvt ?_ (hq.shown hvt)
      rw [hk.roots, hn]
      exact hp.lasts (hk.lasts n noSlot) hvt

/-- The end of a list completes corresponding data. -/
lemma Runs.closeList (hv : σ.Valid W) (hn : σ.left.roots.size = n + 1) (hc : σ.Complete n)
    (hs : σ.Suspended b n p p') (position : Nat) :
    Runs W (Lasts b noSlot) (closeList ⟨n⟩ p position) (closeList ⟨n⟩ p' position) σ fun s s' τ =>
      τ.Progressed b s s' := by
  -- the draft in the slot becomes shown before the slot is released
  have hvs := hv.settle n (.inl rfl)
  have hns : (σ.settle n .shown).left.roots.size = n + 1 := hn
  obtain ⟨v, v', h1, h2, h3, h4⟩ := released (ε := ReadFailure) hvs hns
  have hx : (σ.settle n .shown).rel .shown v v' := by
    rcases hc with ⟨w, w', h5, h6, hr⟩ | ⟨w, w', h5, h6, hr⟩
    · obtain rfl := Option.some.inj (h5.symm.trans h3)
      obtain rfl := Option.some.inj (h6.symm.trans h4)
      exact settle_of_ne (by simp) hr
    · obtain rfl := Option.some.inj (h5.symm.trans h3)
      obtain rfl := Option.some.inj (h6.symm.trans h4)
      exact settle_draft hr
  have hl : Lasts n noSlot σ (σ.settle n .shown).pop :=
    (evolves_settle le_rfl .shown).1.trans
      (lasts_pop hvs.depth (Nat.le_of_eq hns.symm) fun _ => False.elim)
  have hsp : (σ.settle n .shown).pop.Suspended b n p p' := hs.lasts hl hvs.pop
  refine .step (τ := (σ.settle n .shown).pop) h1 h2 (hl.mono hs.le fun _ h => h) ?_
  have hnp := size_pop hns
  exact .building (hnp.symm ▸ hsp) position (.complete hvs.pop (hnp.symm ▸ hsp) hx)

/-- A token where a datum or the end of a list may come. -/
lemma Runs.advance (hv : σ.Valid W) (hs : σ.Suspended b σ.left.roots.size p p') {lexeme : Lexeme}
    (hl : ∀ name, lexeme.token = .literal (.symbol name) → W.names name) :
    Runs W (Lasts b noSlot) (advance p lexeme) (advance p' lexeme) σ fun s s' τ =>
      τ.Progressed b s s' := by
  have hnil : σ.rel .shown Handle.emptyList .emptyList := (hv.sentinel (by decide)).1
  cases ht : lexeme.token with
  | opening =>
    simp only [Reader.advance, ht]
    refine .acquire (U := Keeps) hv _ _ ?_ fun υ hk => ?_
    · refine .pure (hv.push hnil (by simp)) (.more ?_)
      have hp : (σ.push .emptyList .emptyList).left.roots.size = σ.left.roots.size + 1 :=
        Array.size_push _
      rw [hp]
      refine .datum (.items (at_push hv hnil) (hs.lasts (A := noSlot) ?_ (hv.push hnil (by simp))))
      exact lasts_push hv.depth le_rfl (fun _ => False.elim) _ _
    · exact (lasts_push hv.depth hs.le (fun _ => False.elim) _ _).trans (hk.lasts b noSlot)
  | closing =>
    simp only [Reader.advance, ht]
    generalize hn : σ.left.roots.size = n at hs
    cases hs with
    | items hd hp => exact .closeList hv hn hd.complete hp _
    | nil => exact .refuse hv (hn ▸ .datum .nil) _ _
    | tail hd hp => exact .refuse hv (hn ▸ .datum (.tail hd hp)) _ _
    | mark hs hp => exact .refuse hv (hn ▸ .datum (.mark hs hp)) _ _
  | mark q =>
    simp only [Reader.advance, ht]
    have hq : W.names q.name := by
      cases q <;> exact W.vocabulary _ (by decide) (by decide) (by decide)
    refine .bind_keeps (.word hv hq) fun s s' τ hvt hk hss =>
      .pure hvt (.more (.datum (.mark hss ?_)))
    rw [hk.roots]
    exact hs.lasts (hk.lasts _ noSlot) hvt
  | literal literal =>
    have hb : Runs W (Lasts b noSlot)
        (Reader.building p lexeme.stop (do Reader.complete (← Reader.makeLiteral literal) p))
        (Reader.building p' lexeme.stop (do Reader.complete (← Reader.makeLiteral literal) p')) σ
        fun s s' τ => τ.Progressed b s s' := by
      refine .building hs _ (.bind_keeps (.makeLiteral hv fun name he => hl name (he ▸ ht))
        fun v v' τ hvt hk hx => .complete hvt ?_ hx)
      rw [hk.roots]
      exact hs.lasts (hk.lasts _ noSlot) hvt
    -- a dot is no literal if it stands between the elements of a list
    simp only [Reader.advance, ht]
    cases isDot literal with
    | false => exact hb
    | true =>
      generalize hn : σ.left.roots.size = n at hs
      cases hs with
      | nil | tail | mark => exact hb
      | @items n last last' p p' hd hp =>
        cases last with
        | none =>
          cases last' with
          | none => exact .refuse hv (hn ▸ .datum (.items hd hp)) _ _
          | some l' => cases hd
        | some l =>
          cases last' with
          | none => cases hd
          | some l' => exact .pure hv (.more (hn ▸ .datum (.tail hd hp)))

lemma Runs.take (hv : σ.Valid W) (ha : σ.Awaits b σ.left.roots.size goal p p') {lexeme : Lexeme}
    (hl : ∀ name, lexeme.token = .literal (.symbol name) → W.names name) :
    Runs W (Lasts b noSlot) (take goal p lexeme) (take goal p' lexeme) σ fun s s' τ =>
      τ.Progressed b s s' := by
  generalize hn : σ.left.roots.size = n at ha
  cases ha with
  | datum hp => exact .advance hv (hn ▸ hp) hl
  | closing hc hp =>
    cases ht : lexeme.token with
    | closing =>
      simp only [Reader.take, ht]
      exact .closeList hv hn hc hp _
    | _ =>
      simp only [Reader.take, ht]
      exact .refuse hv (hn ▸ .closing hc hp) _ _

/-! ## Reading a datum -/

lemma Runs.finishReading (hv : σ.Valid W) (ha : σ.Awaits b σ.left.roots.size goal p p')
    (ending : Ending) :
    Runs W (Lasts b noSlot) (Reader.finish ending goal p : HeapM ReadFailure (Option Reading))
      (Reader.finish ending goal p') σ fun o o' τ => Reading.Agree W.names (τ.rel .shown) o o' := by
  generalize hn : σ.left.roots.size = n at ha
  cases ha with
  | datum hp =>
    cases ending with
    | endOfText stop =>
      cases hp with
      | nil => exact .pure hv .none
      | items hd hp => exact .refuse hv (hn ▸ .datum (.items hd hp)) _ _
      | tail hd hp => exact .refuse hv (hn ▸ .datum (.tail hd hp)) _ _
      | mark hs hp => exact .refuse hv (hn ▸ .datum (.mark hs hp)) _ _
    | fault cause start stop => exact .refuse hv (hn ▸ .datum hp) _ _
  | closing hc hp =>
    cases ending with
    | endOfText stop => exact .refuse hv (hn ▸ .closing hc hp) _ _
    | fault cause start stop => exact .refuse hv (hn ▸ .closing hc hp) _ _

lemma Runs.readFrom (hv : σ.Valid W) (ha : σ.Awaits b σ.left.roots.size goal p p') (ending : Ending)
    {lexemes : List Lexeme} (hl : Scan.Within W.names ⟨lexemes, ending⟩) :
    Runs W (Lasts b noSlot) (readFrom ending goal p lexemes) (readFrom ending goal p' lexemes) σ
      fun o o' τ => Reading.Agree W.names (τ.rel .shown) o o' := by
  induction lexemes generalizing σ goal p p' with
  | nil => exact .finishReading hv ha ending
  | cons lexeme rest ih =>
    have hrest : Scan.Within W.names ⟨rest, ending⟩ := fun name hm =>
      hl name ((List.sublist_cons_self lexeme rest).filterMap _ |>.subset hm)
    refine (Runs.take hv ha fun _ => hl.token List.mem_cons_self).bind fun s s' τ hvt _ hq => ?_
    cases hq with
    | done hx => exact .pure hvt (.some hx hrest)
    | more ha => exact ih hvt ha hrest

/-- Actions that leave the root stacks as deep as they were. -/
lemma Runs.restored {x : HeapM ε α} {y : HeapM ε α'} {Q : α → α' → Twin → Prop}
    (hx : Runs W (Lasts m A) x y σ Q)
    (hl : (x σ.left).Leaving fun k => k.roots.size = σ.left.roots.size)
    (hr : (y σ.right).Leaving fun k => k.roots.size = σ.right.roots.size) (hv : σ.Valid W) :
    Runs W (Evolves m A) x y σ Q := by
  unfold Runs at hx ⊢
  revert hx hl hr
  generalize x σ.left = o
  generalize y σ.right = o'
  intro hx hl hr
  cases hx with
  | ok hq =>
    obtain ⟨τ, rfl, rfl, hvt, he, hq⟩ := hq
    cases hl with
    | ok hd => exact .ok ⟨τ, rfl, rfl, hvt, ⟨he, hd⟩, hq⟩
  | error hm =>
    obtain ⟨τ, rfl, rfl, hvt, he, hm⟩ := hm
    cases hl with
    | error hd => exact .error ⟨τ, rfl, rfl, hvt, ⟨he, hd⟩, hm⟩
  | halt hc => exact .halt hc
  | left hw ho =>
    refine .left hw ?_
    cases ho with
    | halt hc => exact .halt hc
    | starved hs hh =>
      obtain ⟨τ, rfl, hvt, he⟩ := hh
      cases hl with
      | error hd => exact .starved hs ⟨τ, rfl, hvt, he, hd⟩
  | right hw ho =>
    refine .right hw ?_
    cases ho with
    | halt hc => exact .halt hc
    | starved hs hh =>
      obtain ⟨τ, rfl, hvt, he⟩ := hh
      cases hr with
      | error hd =>
        exact .starved hs ⟨τ, rfl, hvt, he, hvt.depth.symm.trans (hd.trans hv.depth)⟩

/-- Reading the next datum of a text. -/
lemma Runs.read (hv : σ.Valid W) {scan : Scan} (hs : scan.Within W.names)
    (hm : m ≤ σ.left.roots.size) :
    Runs W (Evolves m noSlot) (HeapM.read scan) (HeapM.read scan) σ fun o o' τ =>
      Reading.Agree W.names (τ.rel .shown) o o' := by
  have hdepth : ∀ h : Heap, (HeapM.read scan h).Leaving fun k => k.roots.size = h.roots.size :=
    fun h =>
      have hr : (HeapM.read scan h).Orderly #[] noSlot False h := Orderly.read scan h
      hr.leaving.mono fun _ hr => hr.depth
  refine .restored ?_ (hdepth _) (hdepth _) hv
  exact (Runs.readFrom hv (.datum .nil) scan.ending hs).motion fun _ hl => hl.mono hm fun _ h => h

end Twin

end ArenaScheme
