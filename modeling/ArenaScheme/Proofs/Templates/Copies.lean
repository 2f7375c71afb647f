/-
# Copies of templates

Copying a template follows the law.  The expressions are evaluated in the order of the law; the copy
is what the law makes of their values, and its pairs are new; and what could be reached before is as
it was.

The evaluation of an expression may make objects, and run collections.  It must not change anything
that can be reached, the unfinished copy included, and it has to give back the root slots.
-/
import ArenaScheme.Proofs.Templates.Drafts

namespace ArenaScheme

open Heap HeapM Asking

/-- The heap `k` comes after `h`, and all that could be reached is as it was.  The new cells can be
reached, and up to `room` root slots more are occupied. -/
def Heap.Within (h : Heap) (room : Nat) (k : Heap) : Prop :=
  ∃ made, h.Adds [] made k ∧ (∀ u ∈ made, k.Reachable [] u) ∧ k.roots.size ≤ h.roots.size + room

/-- Evaluating the expression in `h`, or later and up to `room` root slots deeper, changes nothing
that can be reached.  It fails, or gives a value that is made of no more cells than the estimate
says. -/
def Innocuous (nested : Nested) (est : Estimate) (room : Nat) (h : Heap) (expr : Handle) : Prop :=
  ∀ k, h.Within room k →
    (nested expr k).Finishes
      (fun v l => l.roots = k.roots ∧
        (∃ new, k.Adds [] new l ∧ new.length ≤ est.cells expr ∧ (k.Reachable [] v ∨ v ∈ new) ∧
          ∀ u ∈ new, l.Reachable [v] u) ∧
        ∀ vs spine, l.Row .emptyList vs spine v → vs.length ≤ est.elements expr)
      fun _ l => l.roots = k.roots ∧ k.Saves [] l

/-- Between the heaps `k` and `l` the answers are got one after the other: each expression is
evaluated, with all that can be reached in `h` in place, no earlier than the evaluation before it
has ended.  The number of collections tells what came first. -/
inductive Answered (nested : Nested) (room : Nat) (h : Heap) : Heap → List Answer → Heap → Prop
  | nil {k l : Heap} (hl : k.collections ≤ l.collections) : Answered nested room h k [] l
  | cons {k before after l : Heap} {answer : Answer} {s : List Answer} {walk : Walk}
      (hb : h.Within room before) (hl : k.collections ≤ before.collections)
      (hrun : nested answer.expr before = .ok answer.value after)
      (hw : after.walkSpine answer.value = .ok walk) (he : answer.elements = walk.items?)
      (hs : Answered nested room h after s l) : Answered nested room h k (answer :: s) l

/-- The error that reports a fault, unless the fault is an evaluation that has failed. -/
def Flaw.report : Flaw → Option Datum
  | .malformed form => some (.error .malformed (form ++ " expects 1 operand"))
  | .improper _ => some (.error .wrongType "cannot splice an improper list")
  | .unanswered _ => none

/-- What a fault leads to after the heap `k`: the error that reports it, or that of the
evaluation. -/
def Flaw.Shown (nested : Nested) (room : Nat) (h k : Heap) (e : Handle) (l : Heap) : Flaw → Prop
  | .unanswered expr => ∃ before after, h.Within room before ∧ k.collections ≤ before.collections ∧
      nested expr before = .error e after ∧ l.cells = after.cells
  | f => ∃ d, f.report = some d ∧ l.object? e = some d

lemma Flaw.Shown.congr {nested : Nested} {h k l m : Heap} {room : Nat} {e : Handle} {f : Flaw}
    (hf : f.Shown nested room h k e l) (hm : m.cells = l.cells) : f.Shown nested room h k e m := by
  have hobj : m.object? e = l.object? e := by rw [object?, hm, ← object?]
  cases f with
  | malformed form | improper expr =>
    obtain ⟨d, hd, he⟩ := hf
    exact ⟨d, hd, hobj.trans he⟩
  | unanswered expr =>
    obtain ⟨before, after, hb, hc, hrun, hcells⟩ := hf
    exact ⟨before, after, hb, hc, hrun, hm.trans hcells⟩

/-- The object `v` is a copy as the law `x` says, for the answers `s`: it is the result `t`, made of
the new cells `cells`, and the values take the new cells `rest`. -/
structure Heap.Copies (h : Heap) (nested : Nested) (room : Nat) (x : Asking Built) (s : List Answer)
    (t : Built) (cells rest : List Handle) (v : Handle) (k : Heap) : Prop where
  returns : x.Returns s t
  answered : Answered nested room h h s k
  adds : h.Adds [] (cells ++ rest) k
  roots : k.roots = h.roots
  shows : k.Shows t cells v
  known : h.Reachable [] v ∨ v ∈ cells ++ rest
  held : ∀ u ∈ cells ++ rest, k.Reachable [v] u

/-- There is no copy, since not even `bound` cells and one for an error are left, or because of a
fault according to the law `x`, which begins to be followed in the heap `k`. -/
def Heap.Faults (h : Heap) (nested : Nested) (room : Nat) (k : Heap) (x : Asking Built)
    (bound : Nat) (e : Handle) (l : Heap) : Prop :=
  h.Saves [] l ∧ ((e = .outOfMemory ∧ h.capacity < bound + 1 + h.usedWith []) ∨
    ∃ s f m, x.Fails s f ∧ Answered nested room h k s m ∧ f.Shown nested room h m e l)

/-- The outcome is according to the law `x`, and `bound` cells are enough. -/
def Outcome.Realizes (o : Outcome Handle Handle) (nested : Nested) (room : Nat) (h : Heap)
    (x : Asking Built) (bound : Nat) : Prop :=
  o.Finishes
    (fun v k => ∃ s t cells rest, h.Copies nested room x s t cells rest v k ∧
      (cells ++ rest).length ≤ bound)
    fun e l => l.roots = h.roots ∧ h.Faults nested room h x bound e l

/-- The outcome of going on in the heap `k` with a draft that has been made since `h`: the elements
`ts` come first, and the rest is according to the law `x`. -/
def Outcome.Continues (o : Outcome Handle Handle) (nested : Nested) (room : Nat) (h k : Heap)
    (ts : List Built) (x : Asking Built) (bound : Nat) : Prop :=
  o.Finishes
    (fun v l => ∃ s t cells rest, x.Returns s t ∧ Answered nested room h k s l ∧
      h.Adds [] (cells ++ rest) l ∧ l.roots = h.roots.push v ∧ l.Shows (ts.foldr .pair t) cells v ∧
      (∀ u ∈ cells ++ rest, l.Reachable [] u) ∧ (cells ++ rest).length ≤ bound)
    fun e l => (∃ v, l.roots = h.roots.push v) ∧ h.Faults nested room k x bound e l

variable {nested : Nested} {est : Estimate} {kw : Keywords} {room room' : Nat} {g h k l m : Heap}
  {s s' : List Answer} {x : Asking Built} {bound : Nat} {v e : Handle} {f : Flaw}

/-! ## Later heaps -/

lemma Heap.Within.refl (hw : h.WellFormed) (room : Nat) : h.Within room h :=
  ⟨[], .refl hw (by simp), by simp, Nat.le_add_right _ _⟩

/-- What comes after a later heap comes after the heap. -/
lemma Heap.Within.base {made : List Handle} (hl : k.Within room' l) (ha : h.Adds [] made k)
    (hm : ∀ u ∈ made, k.Reachable [] u) (hr : k.roots.size + room' ≤ h.roots.size + room) :
    h.Within room l := by
  obtain ⟨made', ha', hm', hr'⟩ := hl
  refine ⟨made' ++ made, ha.trans ha' (by simp) hm (by simp), fun u hu => ?_, by omega⟩
  exact (List.mem_append.mp hu).elim (hm' u) fun hu => ha'.toSaves.reachable (by simp) (hm u hu)

/-- What is innocuous is so later. -/
lemma Innocuous.later {made : List Handle} {expr : Handle} (hh : Innocuous nested est room h expr)
    (ha : h.Adds [] made k) (hm : ∀ u ∈ made, k.Reachable [] u)
    (hr : k.roots.size + room' ≤ h.roots.size + room) : Innocuous nested est room' k expr :=
  fun l hl => hh l (hl.base ha hm hr)

namespace Answered

lemma append (ha : Answered nested room h k s l) (hb : Answered nested room h l s' m) :
    Answered nested room h k (s ++ s') m := by
  induction ha with
  | nil hl =>
    cases hb with
    | nil hl' => exact .nil (hl.trans hl')
    | cons hb hl' hrun hw he hs => exact .cons hb (hl.trans hl') hrun hw he hs
  | cons hb' hl hrun hw he _ ih => exact .cons hb' hl hrun hw he (ih hb)

lemma before (ha : Answered nested room h k s l) (hg : g.collections ≤ k.collections) :
    Answered nested room h g s l := (Answered.nil hg).append ha

lemma after (ha : Answered nested room h k s l) (hm : l.collections ≤ m.collections) :
    Answered nested room h k s m := by
  simpa using ha.append (.nil hm)

/-- What could be reached earlier is in place as well. -/
lemma base {made : List Handle} (ha : Answered nested room' k g s l) (hk : h.Adds [] made k)
    (hm : ∀ u ∈ made, k.Reachable [] u) (hr : k.roots.size + room' ≤ h.roots.size + room) :
    Answered nested room h g s l := by
  induction ha with
  | nil hl => exact .nil hl
  | cons hb hl hrun hw he _ ih => exact .cons (hb.base hk hm hr) hl hrun hw he ih

end Answered

lemma Flaw.Shown.base {made : List Handle} (hf : f.Shown nested room' k g e l)
    (ha : h.Adds [] made k) (hm : ∀ u ∈ made, k.Reachable [] u)
    (hr : k.roots.size + room' ≤ h.roots.size + room) :
    f.Shown nested room h g e l := by
  cases f with
  | malformed form | improper expr => exact hf
  | unanswered expr =>
    obtain ⟨before, after, hb, hc, hrun, hcells⟩ := hf
    exact ⟨before, after, hb.base ha hm hr, hc, hrun, hcells⟩

/-! ## Expressions -/

/-- A innocuous expression is answered, or its evaluation fails. -/
lemma Innocuous.finishes {expr : Handle} (hh : Innocuous nested est room h expr)
    (hw : h.WellFormed) :
    (nested expr h).Finishes
      (fun v l => ∃ walk new, l.walkSpine v = .ok walk ∧
        h.Copies nested room (law.value expr) [⟨expr, v, walk.items?⟩] (.same v) [] new v l ∧
        new.length ≤ est.cells expr ∧
        ∀ vs spine, l.Row .emptyList vs spine v → vs.length ≤ est.elements expr)
      fun e l => l.roots = h.roots ∧ ∀ x bound, x.Fails [] (.unanswered expr) →
        h.Faults nested room h x bound e l := by
  have hfin := hh h (.refl hw room)
  cases ho : nested expr h with
  | ok v l =>
    rw [ho] at hfin
    obtain ⟨hr, ⟨new, ha, hlen, hknown, hheld⟩, hlong⟩ := hfin
    have hlive : l.isLive v = true := hknown.elim (fun hr => ha.isLive hr) (ha.held v)
    obtain ⟨walk, hwalk⟩ := exists_walkSpine ha.wellFormed.toClosed hlive
    refine ⟨walk, new, hwalk, ⟨returns_value rfl, ?_, ha, hr, .same, hknown, hheld⟩, hlen, hlong⟩
    exact .cons (.refl hw room) (Nat.le_refl _) ho hwalk rfl (.nil (Nat.le_refl _))
  | error e l =>
    rw [ho] at hfin
    obtain ⟨hr, hs⟩ := hfin
    exact ⟨hr, fun x bound hx => ⟨hs, .inr ⟨[], _, h, hx, .nil (Nat.le_refl _), h, l, .refl hw room,
      Nat.le_refl _, ho, rfl⟩⟩⟩
  | halt c =>
    rw [ho] at hfin
    exact hfin.elim

/-- An expression in the place of its value. -/
lemma value_realizes {expr : Handle} (hw : h.WellFormed) (hh : Innocuous nested est room h expr) :
    (nested expr h).Realizes nested room h (law.value expr) (est.cells expr) := by
  refine (hh.finishes hw).mono (fun v l hl => ?_) fun e l hl => ⟨hl.1, hl.2 _ _ (fails_value expr)⟩
  obtain ⟨walk, new, -, hc, hlen, -⟩ := hl
  exact ⟨_, _, _, _, hc, hlen⟩

/-! ## Faults -/

/-- A fault that is found by looking at an object is reported. -/
lemma Heap.Reports.faults {kind : ErrorKind} {message : String} (hr : k.Reports kind message e l)
    {made : List Handle} (ha : h.Adds [] made k) (hle : made.length ≤ bound) (hx : x.Fails s f)
    (hs : Answered nested room h g s k)
    (hf : l.object? e = some (.error kind message) → f.Shown nested room h k e l) :
    h.Faults nested room g x bound e l := by
  refine ⟨ha.toSaves.trans hr.saves (by simp), ?_⟩
  rcases hr.2 with ⟨-, -, he⟩ | ⟨hlt, -, rfl⟩
  · exact .inr ⟨s, f, k, hx, hs, hf he⟩
  · have hused : k.usedWith [] ≤ h.usedWith [] + made.length := ha.usedWith_le (by simp)
    have hcap := ha.capacity
    exact .inl ⟨rfl, by omega⟩

lemma operand_message (form : String) :
    (wrongOperands form 1 : EvalM Handle) = raise .malformed (form ++ " expects 1 operand") := by
  have hone : toString 1 = "1" := rfl
  rw [wrongOperands, if_pos rfl, hone]
  simp only [String.append_assoc]
  rfl

lemma malformed_realizes (hw : h.WellFormed) (form : String) (room bound : Nat) :
    (wrongOperands form 1 h : Outcome Handle Handle).Realizes nested room h (law.malformed form)
      bound := by
  rw [operand_message]
  refine (raise_finishes hw (by decide) _).mono (fun _ _ => False.elim) fun e l hl => ⟨hl.1, ?_⟩
  exact hl.faults (f := .malformed form) (.refl hw (by simp)) (Nat.zero_le _) (fails_throw _)
    (.nil (Nat.le_refl _)) fun he => ⟨_, rfl, he⟩

/-- A fault later on is a fault. -/
lemma Heap.Faults.imp {y : Asking Built} {bound' : Nat} (hf : h.Faults nested room m x bound e l)
    (ha : Answered nested room h k s m) (hb : bound ≤ bound')
    (hx : ∀ s' f, x.Fails s' f → y.Fails (s ++ s') f) : h.Faults nested room k y bound' e l := by
  refine ⟨hf.1, hf.2.imp (fun ho => ⟨ho.1, by omega⟩) ?_⟩
  rintro ⟨s', f, n, hfail, hs, hn⟩
  exact ⟨s ++ s', f, n, hx s' f hfail, ha.append hs, hn⟩

/-- A fault of a part is a fault of the whole. -/
lemma Heap.Faults.base {made : List Handle} {bound' : Nat}
    (hf : k.Faults nested room' m x bound e l) (ha : h.Adds [] made k)
    (hm : ∀ u ∈ made, k.Reachable [] u) (hr : k.roots.size + room' ≤ h.roots.size + room)
    (hb : made.length + bound ≤ bound') :
    h.Faults nested room m x bound' e l := by
  refine ⟨ha.toSaves.trans hf.1 (by simp), hf.2.imp (fun ho => ⟨ho.1, ?_⟩) ?_⟩
  · have hused : k.usedWith [] ≤ h.usedWith [] + made.length := ha.usedWith_le (by simp)
    have hcap := ha.capacity
    have hlt := ho.2
    omega
  · rintro ⟨s, f, n, hfail, hs, hshown⟩
    exact ⟨s, f, n, hfail, hs.base ha hm hr, hshown.base ha hm hr⟩

/-! ## Nested quotations -/

/-- A quotation that stays is a new list of its tag and of the copy of its operand. -/
lemma nest_realizes {tag : Handle} {act : EvalM Handle}
    (hx : (act h).Realizes nested room h x bound) (ht : h.Reachable [] tag)
    (hroom : h.roots.size + 2 ≤ h.rootSlots) :
    ((do list [tag, ← act]) h).Realizes nested room h (law.nest tag x) (bound + 2) := by
  refine finishes_bind (hx.mono (fun _ _ => id) fun e l hl => ⟨hl.1, ?_⟩) fun v k hk => ?_
  · exact hl.2.imp (s := []) (.nil (Nat.le_refl _)) (by omega) fun _ _ => fails_nest
  obtain ⟨s, t, cells, rest, hk, hlen⟩ := hk
  have htag : k.Reachable [] tag := hk.adds.toSaves.reachable (by simp) ht
  have hv : k.isLive v = true := hk.known.elim (fun hr => hk.adds.isLive hr) (hk.adds.held v)
  have hlive : ∀ u ∈ [tag, v], k.isLive u = true := by simp [hv, hk.adds.isLive ht]
  have hheld : ∀ u ∈ cells ++ rest, k.Reachable [tag, v] u := fun u hu =>
    (hk.held u hu).mono (List.forall_mem_singleton.mpr (.of_extra (by simp)))
  have hknown : ∀ u ∈ [tag, v], h.Reachable [] u ∨ u ∈ cells ++ rest := by
    simpa [ht] using hk.known
  have hused := hk.adds.usedWith_le hknown
  have hcap := hk.adds.capacity
  refine (list_finishes hk.adds.wellFormed hlive (by
    rw [hk.roots, hk.adds.rootSlots]; exact hroom)).mono (fun r l hl => ?_) fun e l hl => ?_
  · obtain ⟨-, c, hl, hr, hrow⟩ := hl
    cases hrow with
    | @cons _ next _ _ _ hc₁ hrow =>
      cases hrow with
      | cons hc₂ hrow =>
        cases hrow
        have hshows := hk.shows.congr fun u hu => hl.kept u (hheld u (List.mem_append_left _ hu))
        have hv' : l.Reachable [r] v :=
          .head (.tail (.of_extra List.mem_cons_self) hc₁) hc₂
        refine ⟨s, _, r :: next :: cells, rest,
          ⟨returns_nest hk.returns, hk.answered.after hl.later, hk.adds.trans hl
            (by simp) hheld hknown, hr.trans hk.roots, ?_, .inr List.mem_cons_self, ?_⟩, ?_⟩
        · have hshows' := Shows.pair hc₁ .same (.pair hc₂ hshows .same)
          simpa using hshows'
        · simp only [List.cons_append, List.forall_mem_cons]
          refine ⟨.of_extra List.mem_cons_self, .tail (.of_extra List.mem_cons_self) hc₁,
            fun u hu => ?_⟩
          have hsaves : k.Saves [v] l := hl.toSaves.mono
            (List.forall_mem_singleton.mpr (.of_extra (by simp)))
          exact hsaves.reachable (List.forall_mem_singleton.mpr hv') (hk.held u hu)
        · simp only [List.cons_append, List.length_cons]
          omega
  · obtain ⟨hlt, rfl, hl, hr⟩ := hl
    refine ⟨hr.trans hk.roots, hk.adds.toSaves.trans hl (by simp), .inl ⟨rfl, ?_⟩⟩
    simp only [List.length_cons, List.length_nil] at hlt
    omega

/-! ## Templates that can be copied -/

/-- In `h` there is what it takes to copy a template that is nested no deeper than `room`: the
template can be reached, its expressions are innocuous, and there are root slots. -/
structure Ready (nested : Nested) (est : Estimate) (kw : Keywords) (room : Nat) (s : Shape)
    (level : Nat) (h : Heap) : Prop where
  wellFormed : h.WellFormed
  sentinels : h.HasSentinels
  holds : h.Holds s
  reachable : h.Reachable [] s.handle
  slots : h.roots.size + room + 2 ≤ h.rootSlots
  innocuous : ∀ expr ∈ s.fold expressions kw level, Innocuous nested est room h expr

/-- So it is for a part of the template later on. -/
lemma Ready.later {made : List Handle} {level l : Nat} {s y : Shape}
    (hr : Ready nested est kw room s level h) (ha : h.Adds [] made k)
    (hm : ∀ u ∈ made, k.Reachable [] u) (hroots : k.roots.size + room' ≤ h.roots.size + room)
    (hy : h.Holds y) (hyr : h.Reachable [] y.handle)
    (he : ∀ expr ∈ y.fold expressions kw l, expr ∈ s.fold expressions kw level) :
    Ready nested est kw room' y l k where
  wellFormed := ha.wellFormed
  sentinels := ha.hasSentinels hr.sentinels
  holds := hy.saved ha.toSaves hyr
  reachable := ha.toSaves.reachable (by simp) hyr
  slots := by
    have hslots := hr.slots
    rw [ha.rootSlots]
    omega
  innocuous := fun expr hx => (hr.innocuous expr (he expr hx)).later ha hm hroots

/-- Only a list of one element has one operand. -/
lemma items?_of_operand? {s : Shape} (hw : h.WellFormed) (hs : h.HasSentinels) (hh : h.Holds s)
    (hl : h.isLive s.handle = true) (hx : s.operand? = none) :
    ∃ o, (items? s.handle : EvalM (Option (List Handle))) h = .ok o h ∧ ∀ y, o ≠ some [y] := by
  obtain ⟨walk, hwalk, hi⟩ := walkSpine_items hw hs hl
  refine ⟨_, items?_eq hwalk, fun y hy => ?_⟩
  obtain ⟨cells, hrow⟩ := (hi [y]).mp hy
  exact hh.not_row_of_operand? hs hx hrow

/-- A quotation is copied as the law says. -/
lemma copyQuotation_realizes {copy : Template.Copier} {w : Handle} {head tail : Shape} {level : Nat}
    (hr : Ready nested est kw room (.pair w head tail) level h)
    (hdepth : (Shape.pair w head tail).depth ≤ room + 1)
    (hcopy : ∀ y l, y.size < (Shape.pair w head tail).size → y.depth ≤ room →
      Ready nested est kw room y l h → (copy y.handle l h).Realizes nested room h (y.fold law kw l)
        (y.fold est.cost kw l))
    (hq : kw.isQuotation head.handle = true) :
    (Template.copyQuotation kw nested copy w level h).Realizes nested room h
      ((Shape.pair w head tail).fold law kw level)
      ((Shape.pair w head tail).fold est.cost kw level) := by
  obtain ⟨hv, hhead, htail⟩ := hr.holds
  have hhr : h.Reachable [] head.handle := hr.reachable.head hv
  have htr : h.Reachable [] tail.handle := hr.reachable.tail hv
  have htl : h.isLive tail.handle = true := hr.wellFormed.isLive_of_reachable (by simp) htr
  have hroom : h.roots.size + 2 ≤ h.rootSlots := by
    have hslots := hr.slots
    omega
  -- the operand, if there is one, is copied in the same heap
  have hready : ∀ {y l}, tail.operand? = some y →
      (∀ expr ∈ y.fold expressions kw l,
        expr ∈ (Shape.pair w head tail).fold expressions kw level) →
      (copy y.handle l h).Realizes nested room h (y.fold law kw l) (y.fold est.cost kw l) := by
    intro y l ho he
    have hrow := (htail.row_of_operand? ho).1
    have hsize := Shape.size_operand? ho
    have hlt := Shape.depth_operand? ho
    simp only [Shape.depth] at hdepth
    refine hcopy y l (by simp only [Shape.size]; omega) (by omega) ?_
    exact hr.later (.refl hr.wellFormed (by simp)) (by simp) (Nat.le_refl _)
      (htail.row_of_operand? ho).2
      ((hrow.reachable htr).2.1 _ List.mem_cons_self) he
  have hitems : ∀ {y}, tail.operand? = some y →
      (items? tail.handle : EvalM (Option (List Handle))) h = .ok (some [y.handle]) h := fun ho =>
    items?_of_row hr.sentinels (htail.row_of_operand? ho).1
  rw [Template.copyQuotation, bind_of_ok (asPair_apply hv)]
  simp only [Datum.pair?]
  generalize hp : (Shape.pair w head tail).part kw level = p
  cases Shape.sorts_of_part hp with
  | unsaid _ ho =>
    obtain ⟨o, hrun, hne⟩ := items?_of_operand? hr.wellFormed hr.sentinels htail htl ho
    rw [Shape.fold_malformed hp, Shape.fold_malformed hp]
    by_cases ht : head.handle = kw.quasiquote
    · rw [if_pos ht, if_pos ht, bind_of_ok hrun]
      split
      · exact absurd rfl (hne _)
      · exact malformed_realizes hr.wellFormed _ _ _
    · rw [if_neg ht, if_neg ht, bind_of_ok hrun]
      split
      · exact absurd rfl (hne _)
      · exact absurd rfl (hne _)
      · exact malformed_realizes hr.wellFormed _ _ _
  | @outward _ _ _ y _ _ ho ht =>
    rw [Shape.fold_nest hp, Shape.fold_nest hp, if_pos ht, bind_of_ok (hitems ho), ← ht]
    refine nest_realizes (hready ho fun expr he => ?_) hhr hroom
    rw [Shape.fold_nest hp]
    exact he
  | @inward _ _ _ y outer _ ho ht =>
    rw [Shape.fold_nest hp, Shape.fold_nest hp, if_neg ht, bind_of_ok (hitems ho)]
    refine nest_realizes (hready ho fun expr he => ?_) hhr hroom
    rw [Shape.fold_nest hp]
    exact he
  | @value _ _ _ y _ ho ht =>
    rw [Shape.fold_value hp, Shape.fold_value hp, if_neg ht, bind_of_ok (hitems ho)]
    refine value_realizes hr.wellFormed (hr.innocuous _ ?_)
    rw [Shape.fold_value hp]
    exact List.mem_cons_self
  | unspliced hn _ _ | splice hn _ _ | pair hn _ => exact absurd hq hn

/-! ## Spines -/

/-- What is in a draft once an element has been copied: the draft as it was, the new cells of the
element, and those that values take. -/
lemma Heap.Drafting.copied {last : Option Handle} {ts : List Built} {t : Built}
    {cells rest c r : List Handle} (hD : Drafting h #[] last ts cells rest k)
    (hreach : ∀ u ∈ cells ++ rest, k.Reachable [] u) (hc : k.Copies nested room x s t c r v l) :
    Drafting h #[] last ts cells (c ++ (rest ++ r)) l ∧
      (h.Reachable [] v ∨ v ∈ cells ++ (c ++ (rest ++ r))) ∧
      ∀ u ∈ cells ++ (c ++ (rest ++ r)), l.Reachable [v] u := by
  have hmem : ∀ u, u ∈ cells ++ (c ++ (rest ++ r)) ↔ u ∈ cells ++ rest ∨ u ∈ c ++ r := by
    intro u
    simp only [List.mem_append]
    tauto
  have hperm : ((c ++ r) ++ (cells ++ rest)).Perm (cells ++ (c ++ (rest ++ r))) := by
    refine List.perm_append_comm.trans ?_
    rw [List.append_assoc]
    refine List.Perm.append_left cells ?_
    rw [← List.append_assoc, ← List.append_assoc]
    exact List.perm_append_comm.append_right r
  obtain ⟨head, hroots, hd⟩ := hD.head
  refine ⟨⟨(hD.adds.trans hc.adds (by simp) hreach (by simp)).perm hperm, head,
    hc.roots.trans hroots, hd.congr fun u hu =>
      hc.adds.kept u (hreach u (List.mem_append_left _ hu))⟩, ?_, fun u hu => ?_⟩
  · rw [hmem]
    rcases hc.known with hv | hv
    · exact (hD.adds.cases_of_reachable (by simp) hv).imp_right .inl
    · exact .inr (.inr hv)
  · rcases (hmem u).mp hu with hu | hu
    · exact hc.adds.toSaves.reachable (by simp) (hreach u hu)
    · exact hc.held u hu

lemma Heap.Drafting.slot {last : Option Handle} {ts : List Built} {cells rest : List Handle}
    (hD : Drafting h #[] last ts cells rest k) (room : Nat) :
    k.roots.size + room = h.roots.size + (room + 1) := by
  obtain ⟨head, hroots, -⟩ := hD.head
  rw [hroots]
  simp
  omega

/-- Ending a draft with a copy of what is left. -/
lemma Heap.Drafting.link_continues {last : Option Handle} {ts : List Built}
    {cells rest : List Handle} {act : EvalM Handle} (hD : Drafting h #[] last ts cells rest k)
    (hreach : ∀ u ∈ cells ++ rest, k.Reachable [] u) (hx : (act k).Realizes nested room k x bound) :
    ((do
        Template.link ⟨h.roots.size⟩ last (← act)
        contents ⟨h.roots.size⟩ : EvalM Handle) k).Continues nested (room + 1) h k ts x
      ((cells ++ rest).length + bound) := by
  obtain ⟨head, hroots, -⟩ := hD.head
  refine finishes_bind (hx.mono (fun _ _ => id) fun e l hl => ?_) fun v l hl => ?_
  · exact ⟨⟨head, hl.1.trans (by simpa using hroots)⟩,
      hl.2.base hD.adds hreach (hD.slot room).le (Nat.le_refl _)⟩
  · obtain ⟨s, t, c, r, hc, hlen⟩ := hl
    obtain ⟨hDl, hknown, hheld⟩ := hD.copied hreach hc
    obtain ⟨m, head', hrun, ha, hrm, hshow, hkeep, hreachm, hcoll⟩ := hDl.link_apply hknown
    have hslot : m.roots[h.roots.size]? = some head' := by rw [hrm]; simp
    have hdisjoint : ∀ u ∈ c, u ∉ cells := fun u hu hu' =>
      (List.nodup_append.mp ha.nodup).2.2 u hu' u (List.mem_append_left _ hu) rfl
    have hv : m.Reachable [] v := hshow.reachable_end (.of_slot hslot)
    rw [bind_of_ok hrun, contents_apply hslot]
    refine ⟨s, t, cells ++ c, rest ++ r, hc.returns,
      (hc.answered.base hD.adds hreach (hD.slot room).le).after hcoll.ge, by simpa using ha, by
      simpa using hrm, ?_, fun u hu => ?_, ?_⟩
    · exact hshow.fill (hc.shows.congr fun u hu => hkeep u (hdisjoint u hu))
    · rw [List.append_assoc] at hu
      exact (hreachm [v] u (hheld u hu)).mono (List.forall_mem_singleton.mpr hv)
    · simp only [List.length_append] at hlen ⊢
      omega

/-- Going on after some elements: the elements have been got with the answers `s`. -/
lemma Outcome.Continues.after {o : Outcome Handle Handle} {ts us : List Built} {y : Asking Built}
    {bound' : Nat} (ho : o.Continues nested room h m (ts ++ us) x bound)
    (hs : Answered nested room h k s m)
    (hb : bound ≤ bound') (hr : ∀ s' t, x.Returns s' t → y.Returns (s ++ s') (us.foldr .pair t))
    (hf : ∀ s' f, x.Fails s' f → y.Fails (s ++ s') f) :
    o.Continues nested room h k ts y bound' := by
  refine ho.mono (fun v l hl => ?_) fun e l hl => ⟨hl.1, hl.2.imp hs hb hf⟩
  obtain ⟨s', t, cells, rest, hret, hs', ha, hroots, hshow, hreach, hlen⟩ := hl
  rw [List.foldr_append] at hshow
  exact ⟨s ++ s', _, cells, rest, hr s' t hret, hs.append hs', ha, hroots, hshow, hreach,
    hlen.trans hb⟩

/-- An element is to be spliced in if it says so, outside of all quasiquotations. -/
lemma isSplice_apply {y : Shape} {level : Nat} {b : Bool} (hh : h.Holds y)
    (hb : b = true ↔ level = 0 ∧ ∃ w tag operands, y = .pair w tag operands ∧
      tag.handle = kw.unquoteSplicing) :
    (Template.isSplice kw level y.handle : EvalM Bool) h = .ok b h := by
  rw [Template.isSplice]
  by_cases hl : level = 0
  · rw [if_pos hl]
    cases y with
    | atom v =>
      obtain rfl : b = false := by simpa using hb
      rw [Shape.handle, bind_of_ok (asPair_of_isLive hh.1), hh.2]
      rfl
    | pair w tag operands =>
      rw [Shape.handle, bind_of_ok (asPair_apply hh.1)]
      have hb' : (tag.handle == kw.unquoteSplicing) = b := by
        rw [Bool.eq_iff_iff, hb, beq_iff_eq]
        simp [hl]
      exact congrArg (fun b => Outcome.ok b h) hb'
  · obtain rfl : b = false := by simpa [hl] using hb
    rw [if_neg hl]
    rfl

/-- What stays is copied by being returned. -/
lemma atom_realizes (nested : Nested) (room : Nat) (hw : h.WellFormed) (hr : h.Reachable [] v) :
    ((pure v : EvalM Handle) h).Realizes nested room h (law.atom v) 0 :=
  ⟨[], .same v, [], [], ⟨returns_pure _, .nil (Nat.le_refl _), .refl hw (by simp), rfl,
    .same, .inl hr, by simp⟩, Nat.le_refl _⟩

/-- An element is copied, and the copy is put at the end of the draft. -/
lemma element_continues {last : Option Handle} {ts : List Built} {cells rest : List Handle}
    {act : EvalM Handle} {next : Handle → EvalM Handle} {y : Asking Built} {bound' : Nat}
    (hD : Drafting h #[] last ts cells rest k) (hreach : ∀ u ∈ cells ++ rest, k.Reachable [] u)
    (hx : (act k).Realizes nested room k x bound)
    (hnext : ∀ p ts cells rest m, Drafting h #[] (some p) ts cells rest m →
      (∀ u ∈ cells ++ rest, m.Reachable [] u) →
      (next p m).Continues nested (room + 1) h m ts y ((cells ++ rest).length + bound')) :
    ((do
        let cell ← Template.push ⟨h.roots.size⟩ last (← act)
        next cell : EvalM Handle) k).Continues nested (room + 1) h k ts (law.pair x y)
      ((cells ++ rest).length + (bound + 1 + bound')) := by
  obtain ⟨head, hroots, -⟩ := hD.head
  have hroots' : k.roots = h.roots.push head := by simpa using hroots
  refine finishes_bind (hx.mono (fun _ _ => id) fun e l hl => ?_) fun v l hl => ?_
  · exact ⟨⟨head, hl.1.trans hroots'⟩,
      (hl.2.base hD.adds hreach (hD.slot room).le (Nat.le_refl _)).imp
      (s := []) (.nil (Nat.le_refl _)) (by omega) fun _ _ => fails_head⟩
  obtain ⟨s, t, c, r, hc, hlen⟩ := hl
  obtain ⟨hDl, hknown, hheld⟩ := hD.copied hreach hc
  refine finishes_bind ((hDl.push_finishes hc.shows hknown hheld).mono
    (fun _ _ => id) fun e m hm => ?_)
    fun p m hm => ?_
  · obtain ⟨rfl, ha, hr, hle⟩ := hm
    refine ⟨⟨head, hr.trans (hc.roots.trans hroots')⟩, ha.toSaves, .inl ⟨rfl, ?_⟩⟩
    simp only [List.length_append] at hlen hle ⊢
    omega
  · obtain ⟨hDm, hlater, hreachm⟩ := hm
    have hanswered := hc.answered.base hD.adds hreach (hD.slot room).le
    refine (hnext p _ _ _ m hDm hreachm).after (hanswered.after hlater) ?_
      (fun s' t' ht => returns_pair hc.returns ht) fun s' f hf => fails_tail hc.returns hf
    simp only [List.length_append, List.length_cons] at hlen ⊢
    omega

/-- An expression is evaluated, and the elements of its value are put at the end of the draft. -/
lemma splice_continues {last : Option Handle} {ts : List Built} {cells rest : List Handle}
    {expr : Handle} {next : Option Handle → EvalM Handle} {y : Asking Built} {bound' : Nat}
    (hs : h.HasSentinels) (hroom : h.roots.size + 1 < h.rootSlots)
    (hD : Drafting h #[] last ts cells rest k) (hreach : ∀ u ∈ cells ++ rest, k.Reachable [] u)
    (hh : Innocuous nested est room k expr)
    (hnext : ∀ p ts cells rest m, Drafting h #[] p ts cells rest m →
      (∀ u ∈ cells ++ rest, m.Reachable [] u) →
      (next p m).Continues nested (room + 1) h m ts y ((cells ++ rest).length + bound')) :
    ((do
        let last ← Template.splice ⟨h.roots.size⟩ last (← nested expr)
        next last : EvalM Handle) k).Continues nested (room + 1) h k ts (law.splice expr y)
      ((cells ++ rest).length + (est.cells expr + est.elements expr + bound')) := by
  obtain ⟨head, hroots, -⟩ := hD.head
  have hroots' : k.roots = h.roots.push head := by simpa using hroots
  refine finishes_bind ((hh.finishes hD.adds.wellFormed).mono (fun _ _ => id) fun e l hl => ?_)
    fun v l hl => ?_
  · exact ⟨⟨head, hl.1.trans hroots'⟩, (hl.2 _ 0 (fails_splice_unanswered expr y)).base
      hD.adds hreach
      (hD.slot room).le (by omega)⟩
  obtain ⟨walk, new, hwalk, hc, hlen, hlong⟩ := hl
  obtain ⟨hDl, hknown, hheld⟩ := hD.copied hreach hc
  have hanswered := hc.answered.base hD.adds hreach (hD.slot room).le
  refine finishes_bind
    ((hDl.splice_finishes (hDl.adds.hasSentinels hs) hknown hheld hroom hwalk).mono
    (fun _ _ => id) fun e m hm => ?_) fun p m hm => ?_
  · rcases hm with ⟨hi, hm⟩ | ⟨vs, spine, hi, hrow, rfl, hr, made, ha, hlt, hle⟩
    · refine ⟨⟨head, hm.1.trans (hc.roots.trans hroots')⟩, hm.faults hDl.adds ?_
        (fails_splice_improper rfl hi) hanswered fun he => ⟨_, rfl, he⟩⟩
      simp only [List.length_append, List.length_nil] at hlen ⊢
      omega
    · have hvs := hlong vs spine hrow
      refine ⟨hr, ha.toSaves, .inl ⟨rfl, ?_⟩⟩
      simp only [List.length_append, List.length_nil] at hlen hlt ⊢
      omega
  · obtain ⟨vs, spine, new', rest', hi, hrow, hDm, hvs', hrest, hlater, hreachm⟩ := hm
    have hvs := hlong vs spine hrow
    refine (hnext p _ _ _ m hDm hreachm).after (hanswered.after hlater) ?_
      (fun s' t' ht => returns_splice rfl hi ht) fun s' f hf => fails_splice rfl hi hf
    simp only [List.length_append, List.length_nil] at hlen hrest ⊢
    omega

/-- The rest of a spine is copied as the law says. -/
lemma copySpine_continues {copy : Template.Copier} {n level : Nat}
    (hcopy : ∀ y l k room, y.size < n → y.depth ≤ room → Ready nested est kw room y l k →
      (copy y.handle l k).Realizes nested room k (y.fold law kw l) (y.fold est.cost kw l))
    {s : Shape} {budget : Nat} {last : Option Handle} {ts : List Built} {cells rest : List Handle}
    (hn : s.size ≤ n) (hb : s.size ≤ budget) (hdepth : s.depth ≤ room + 1)
    (hr : Ready nested est kw (room + 1) s level h) (hD : Drafting h #[] last ts cells rest k)
    (hreach : ∀ u ∈ cells ++ rest, k.Reachable [] u) :
    (Template.copySpine kw nested copy ⟨h.roots.size⟩ level budget last s.handle k).Continues
      nested (room + 1) h k ts (s.fold law kw level)
      ((cells ++ rest).length + s.fold est.cost kw level) := by
  induction s generalizing budget k last ts cells rest with
  | atom v =>
    obtain ⟨budget, rfl⟩ : ∃ b, budget = b + 1 :=
      ⟨budget - 1, by simp only [Shape.size] at hb; omega⟩
    have hv : k.Reachable [] v := hD.adds.toSaves.reachable (by simp) hr.reachable
    have hatom := hr.holds.saved hD.adds.toSaves hr.reachable
    have hend := hD.link_continues hreach (atom_realizes nested room hD.adds.wellFormed hv)
    rw [pure_bind] at hend
    rw [Template.copySpine, Shape.handle, bind_of_ok (asPair_of_isLive hatom.1), hatom.2,
      Shape.fold_atom rfl, Shape.fold_atom rfl]
    exact hend
  | pair w head tail _ iht =>
    obtain ⟨budget, rfl⟩ : ∃ b, budget = b + 1 :=
      ⟨budget - 1, by simp only [Shape.size] at hb; omega⟩
    obtain ⟨hv, hhead, htail⟩ := hr.holds
    have hhr : h.Reachable [] head.handle := hr.reachable.head hv
    have htr : h.Reachable [] tail.handle := hr.reachable.tail hv
    obtain ⟨top, hroots, -⟩ := hD.head
    have hsize := hD.slot room
    have hvk := (hD.adds.kept w hr.reachable).trans hv
    have hheadk := hhead.saved hD.adds.toSaves hhr
    have hslots := hr.slots
    simp only [Shape.size] at hn hb
    have hdepth' := hdepth
    simp only [Shape.depth] at hdepth'
    rw [Template.copySpine, Shape.handle, bind_of_ok (asPair_apply hvk)]
    simp only [Datum.pair?]
    generalize hp : (Shape.pair w head tail).part kw level = p
    -- the rest of the spine, if it is a part of its own
    have hnext : (∀ expr ∈ tail.fold expressions kw level,
          expr ∈ (Shape.pair w head tail).fold expressions kw level) →
        ∀ p ts cells rest m, Drafting h #[] p ts cells rest m →
          (∀ u ∈ cells ++ rest, m.Reachable [] u) →
          (Template.copySpine kw nested copy ⟨h.roots.size⟩ level budget p tail.handle m).Continues
            nested (room + 1) h m ts (tail.fold law kw level)
            ((cells ++ rest).length + tail.fold est.cost kw level) := by
      intro he p ts cells rest m hDm hreachm
      refine iht (by omega) (by omega) (by omega) ?_ hDm hreachm
      exact hr.later (.refl hr.wellFormed (by simp)) (by simp) (Nat.le_refl _) htail htr he
    have hsplice : ∀ {w' tag operands}, k.object? w' = some (.pair tag operands) →
        tag = kw.unquoteSplicing → (Template.isSplice kw 0 w' : EvalM Bool) k = .ok true k := by
      intro w' tag operands hw' ht
      rw [Template.isSplice, if_pos rfl, bind_of_ok (asPair_apply hw'), ht]
      simp [Datum.pair?, pure_apply]
    cases Shape.sorts_of_part hp with
    | unsaid hq _ | outward hq _ _ | inward hq _ _ | value hq _ _ =>
      rw [if_pos hq]
      refine hD.link_continues hreach
        (copyQuotation_realizes ?_ hdepth (fun y l hy hd hy' => ?_) hq)
      · exact hr.later hD.adds hreach hsize.le hr.holds hr.reachable fun _ => id
      · simp only [Shape.size] at hy
        exact hcopy y l k room (by omega) hd hy'
    | @unspliced _ w' tag operands _ hq ht ho =>
      obtain ⟨hw', -, hops⟩ := hheadk
      have hcdr := cdr_apply (ε := Handle) (pairAt_eq_some.mpr hw')
      have hw'r : k.Reachable [] w' := hD.adds.toSaves.reachable (by simp) hhr
      have hlive := hD.adds.wellFormed.isLive_of_reachable (by simp) (hw'r.tail hw')
      obtain ⟨o, hrun, hne⟩ := items?_of_operand? hD.adds.wellFormed
        (hD.adds.hasSentinels hr.sentinels) hops hlive ho
      rw [Shape.handle, if_neg hq, bind_of_ok (hsplice hw' ht), if_pos rfl, bind_of_ok hcdr,
        bind_of_ok hrun, Shape.fold_malformed hp, Shape.fold_malformed hp]
      split
      · exact absurd rfl (hne _)
      · rw [operand_message]
        refine (raise_finishes hD.adds.wellFormed (by decide) _).mono (fun _ _ => False.elim)
          fun e l hl => ⟨⟨top, hl.1.trans (by simpa using hroots)⟩, ?_⟩
        exact hl.faults (f := .malformed "unquote-splicing") hD.adds (Nat.le_add_right _ _)
          (fails_throw _) (.nil (Nat.le_refl _)) fun he => ⟨_, rfl, he⟩
    | @splice _ w' tag operands _ y hq ht ho =>
      obtain ⟨hw', -, hops⟩ := hheadk
      have hcdr := cdr_apply (ε := Handle) (pairAt_eq_some.mpr hw')
      have hitems := items?_of_row (ε := Handle) (hD.adds.hasSentinels hr.sentinels)
        (hops.row_of_operand? ho).1
      rw [Shape.handle, if_neg hq, bind_of_ok (hsplice hw' ht), if_pos rfl, bind_of_ok hcdr,
        bind_of_ok hitems, Shape.fold_splice hp, Shape.fold_splice hp]
      refine splice_continues hr.sentinels (by omega) hD hreach
        ((hr.innocuous _ ?_).later hD.adds hreach hsize.le) (hnext fun expr he => ?_)
      · rw [Shape.fold_splice hp]
        exact List.mem_cons_self
      · rw [Shape.fold_splice hp]
        exact List.mem_cons_of_mem _ he
    | pair hq hs =>
      have hsplice : (Template.isSplice kw level head.handle : EvalM Bool) k = .ok false k :=
        isSplice_apply hheadk (by
          simp only [Bool.false_eq_true, false_iff, not_and, not_exists]
          exact fun h0 w tag operands he => hs h0 w tag operands he)
      rw [if_neg hq, bind_of_ok hsplice, Shape.fold_pair hp, Shape.fold_pair hp]
      refine element_continues hD hreach (hcopy head level k room (by omega) (by omega) ?_)
        fun p ts cells rest m => hnext ?_ (some p) ts cells rest m
      · refine hr.later hD.adds hreach hsize.le hhead hhr fun expr he => ?_
        rw [Shape.fold_pair hp]
        exact List.mem_append_left _ he
      · intro expr he
        rw [Shape.fold_pair hp]
        exact List.mem_append_right _ he

/-! ## Templates -/

/-- A template is copied as the law says. -/
lemma copy_realizes {budget level : Nat} {s : Shape} (hb : s.size < budget)
    (hdepth : s.depth ≤ room) (hr : Ready nested est kw room s level h) :
    (Template.copy kw nested budget s.handle level h).Realizes nested room h (s.fold law kw level)
      (s.fold est.cost kw level) := by
  induction budget generalizing s level room h with
  | zero => omega
  | succ budget ih =>
    rw [Template.copy]
    cases s with
    | atom v =>
      rw [Shape.handle, bind_of_ok (asPair_of_isLive hr.holds.1), hr.holds.2, Shape.fold_atom rfl,
        Shape.fold_atom rfl]
      exact atom_realizes nested room hr.wellFormed hr.reachable
    | pair w head tail =>
      rw [Shape.handle, bind_of_ok (asPair_apply hr.holds.1)]
      simp only [Datum.pair?]
      split
      · next hq =>
        refine copyQuotation_realizes hr (by omega) (fun y l hy hd hy' => ?_) hq
        exact ih (by omega) hd hy'
      · obtain ⟨room, rfl⟩ : ∃ r, room = r + 1 :=
          ⟨room - 1, by simp only [Shape.depth] at hdepth; omega⟩
        have hslots := hr.slots
        have hnil : h.Reachable [] .emptyList := .sentinel (by decide)
        have h0 : h.Adds [] [] h := .refl hr.wellFormed (by simp)
        have hD : Drafting h #[] none [] [] [] { h with roots := h.roots.push .emptyList } :=
          ⟨h0.push (.inl hnil) (isLive_of_object? hr.sentinels.emptyList), _, by simp, .start⟩
        refine finishes_rooted (by omega) ((copySpine_continues (fun y l k room hy hd hy' =>
          ih (by omega) hd hy') (Nat.le_refl _) (by omega) hdepth hr hD (by simp)).mono
            (fun v l hl => ?_)
          fun e l hl => ?_)
        · obtain ⟨s, t, cells, rest, hret, hs, ha, hroots, hshow, hreach, hlen⟩ := hl
          have hpop : l.roots.pop = h.roots := by rw [hroots, Array.pop_push]
          have hans : Answered nested (room + 1) h h s { l with roots := l.roots.pop } :=
            (hs.before (g := h) (Nat.le_refl h.collections)).after (Nat.le_refl l.collections)
          refine ⟨by rw [hroots]; simp, s, t, cells, rest, ⟨hret, hans, hpop ▸ ha.dropRoots, hpop,
            hshow.congr fun _ _ => rfl, ha.above h.roots.size v (Nat.le_refl _)
            (by rw [hroots]; simp), fun u hu => ?_⟩, by simpa using hlen⟩
          have hv : ({ l with roots := l.roots.pop } : Heap).Reachable [v] v :=
            .of_extra List.mem_cons_self
          refine (Reachable.of_nil (hreach u hu)).transport rfl rfl rfl rfl (fun x hx => ?_)
            fun x d hd hx c hc => .child hx hd hc
          rw [hroots] at hx
          rcases (by simpa using hx : x ∈ h.roots ∨ x = v) with hx | rfl
          · exact .anchor (.root (by rw [hpop]; simpa using hx))
          · exact hv
        · obtain ⟨⟨v, hroots⟩, hs, hf⟩ := hl
          have hpop : l.roots.pop = h.roots := by rw [hroots, Array.pop_push]
          refine ⟨by rw [hroots]; simp, hpop, hpop ▸ hs.dropRoots, hf.imp (by simpa using ·) ?_⟩
          rintro ⟨s, f, m, hfail, hans, hshown⟩
          exact ⟨s, f, m, hfail, hans.before (g := h) (Nat.le_refl h.collections), hshown.congr rfl⟩

end ArenaScheme
