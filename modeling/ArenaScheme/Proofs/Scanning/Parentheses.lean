/-
# Parentheses

What is unfinished in a reading has one list for each opening parenthesis that has not been closed
yet.  So the tokens of a datum have as many opening parentheses as closing ones; and a reading that
stops in a list at the end of the text has met more opening ones.
-/
import ArenaScheme.Proofs.Scanning.Locality

namespace ArenaScheme

/-- How a token changes the number of lists that are open. -/
def Token.weight : Token → Int
  | .opening => 1
  | .closing => -1
  | .mark _ | .literal _ => 0

/-- How many more opening parentheses there are than closing ones. -/
def excess (lexemes : List Lexeme) : Int := (lexemes.map fun l => l.token.weight).sum

@[simp] lemma excess_nil : excess [] = 0 := rfl

@[simp] lemma excess_cons (l : Lexeme) (ls : List Lexeme) :
    excess (l :: ls) = l.token.weight + excess ls := rfl

@[simp] lemma excess_append (ls ms : List Lexeme) : excess (ls ++ ms) = excess ls + excess ms := by
  simp [excess]

/-- The failure is that the text ends in a list or in a string. -/
def Failure.Incomplete (f : Failure) : Prop :=
  f = .unreadable .unterminatedList ∨ f = .unreadable .unterminatedString

namespace Reader

open HeapM

/-- The number of lists of which something unfinished is the beginning. -/
def Pending.lists : Pending → Nat
  | .items .. | .tail .. => 1
  | .mark _ => 0

def Goal.lists : Goal → Nat
  | .datum => 0
  | .closing _ => 1

/-- The number of lists that are open. -/
def openLists (goal : Goal) (pending : List Pending) : Nat :=
  goal.lists + (pending.map Pending.lists).sum

/-- A datum has been completed and no list is open, or so many lists are, and something is
unfinished. -/
def Progress.Leaves (n : Int) : Progress → Prop
  | .done _ => n = 0
  | .more goal pending => (openLists goal pending : Int) = n ∧ (goal = .datum → pending ≠ [])

/-- So many lists are left open, or it is not the end of the text that the reading stops at. -/
def Leaves (n : Int) : Outcome ReadFailure Progress → Prop
  | .ok p _ => p.Leaves n
  | .error e _ => ¬ e.failure.Incomplete
  | .halt _ => True

variable {ε α : Type} {ending : Ending} {goal : Goal} {pending : List Pending}
  {lexeme : Lexeme} {lexemes : List Lexeme} {h k : Heap} {x : Reading} {e : ReadFailure}
  {fault : ReadFault} {position : Nat} {n : Int} {list : Root} {v : Handle}

/-! ## Giving up -/

lemma release_ne_error {e : ε} : (release list : HeapM ε Handle) h ≠ .error e k := by
  intro hr
  unfold release at hr
  split at hr
  · split at hr <;> cases hr
  · cases hr

lemma abandon_ne_error {e : ε} : abandon pending h ≠ .error e k := by
  have hrelease : ∀ (list : Root) (later : List Pending) (h : Heap),
      (∀ h : Heap, abandon later h ≠ .error e k) →
      (do let _ ← release list; abandon later : HeapM ε Unit) h ≠ .error e k := by
    intro list later h hl hr
    rw [bind_apply] at hr
    cases hx : (release list : HeapM ε Handle) h with
    | ok v l =>
      rw [hx] at hr
      exact hl l hr
    | error e l => exact release_ne_error hx
    | halt c =>
      rw [hx] at hr
      cases hr
  intro hr
  induction pending generalizing h with
  | nil => cases hr
  | cons p pending ih =>
    cases p with
    | items list last => exact hrelease list pending h (fun _ => ih) hr
    | tail list last => exact hrelease list pending h (fun _ => ih) hr
    | mark symbol => exact ih hr

lemma eq_of_refuse {a : Outcome ReadFailure α} (hr : refuse goal pending fault position h = a)
    (ha : a = .error e k) : e = .ofFault fault position := by
  subst ha
  rw [refuse, bind_apply] at hr
  cases hx : (abandonGoal goal pending : HeapM ReadFailure Unit) h with
  | ok u l =>
    rw [hx] at hr
    cases hr
    rfl
  | error e' l =>
    -- an unfinished list is given up like the others
    cases goal with
    | datum => exact absurd hx abandon_ne_error
    | closing list =>
      have hx' : (abandon (.items list none :: pending) : HeapM ReadFailure Unit) h =
          .error e' l := hx
      exact absurd hx' abandon_ne_error
  | halt c =>
    rw [hx] at hr
    cases hr

lemma leaves_refuse (hf : fault ≠ .unterminatedList ∧ fault ≠ .unterminatedString) :
    Leaves n (refuse goal pending fault position h) := by
  cases hr : (refuse goal pending fault position h : Outcome ReadFailure Progress) with
  | ok p k => exact absurd hr refuse_ne_ok
  | error e k =>
    obtain rfl := eq_of_refuse hr rfl
    rintro (he | he)
    · exact hf.1 (Failure.unreadable.inj he)
    · exact hf.2 (Failure.unreadable.inj he)
  | halt c => trivial

/-! ## One token -/

lemma leaves_complete {p : Progress} (hc : complete v pending h = .ok p k) :
    p.Leaves (openLists .datum pending) := by
  induction pending generalizing v h with
  | nil =>
    cases hc
    rfl
  | cons q pending ih =>
    cases q with
    | items list last =>
      rw [complete] at hc
      obtain ⟨cell, l, -, hc⟩ := bind_eq_ok.mp hc
      cases last <;>
        (obtain ⟨_, m, -, hc⟩ := bind_eq_ok.mp hc
         cases hc
         exact ⟨rfl, fun _ => by simp⟩)
    | tail list last =>
      rw [complete] at hc
      obtain ⟨_, l, -, hc⟩ := bind_eq_ok.mp hc
      cases hc
      refine ⟨?_, fun hg => by cases hg⟩
      simp [openLists, Goal.lists, Pending.lists]
    | mark symbol =>
      rw [complete] at hc
      obtain ⟨w, l, -, hc⟩ := bind_eq_ok.mp hc
      have hlists : openLists .datum (.mark symbol :: pending) = openLists .datum pending := by
        simp [openLists, Pending.lists]
      rw [hlists]
      exact ih hc

lemma leaves_building {y : EvalM Progress} (hy : ∀ p k, y h = .ok p k → p.Leaves n) :
    Leaves n (building pending position y h) := by
  unfold building
  cases ho : y h with
  | ok p k => exact hy p k ho
  | error e k =>
    dsimp only
    rw [bind_apply]
    cases hx : (abandon pending : HeapM ReadFailure Unit) k with
    | ok u l => exact fun he => he.elim (fun he => nomatch he) fun he => nomatch he
    | error e l => exact absurd hx abandon_ne_error
    | halt c => trivial
  | halt c => trivial

lemma leaves_closeList : Leaves (openLists .datum pending) (closeList list pending position h) := by
  rw [closeList, bind_apply]
  cases hx : (release list : HeapM ReadFailure Handle) h with
  | ok v l => exact leaves_building fun p k hp => leaves_complete hp
  | error e l => exact absurd hx release_ne_error
  | halt c => trivial

lemma openLists_items (list : Root) (last : Option Handle) (pending : List Pending) :
    openLists .datum (.items list last :: pending) = openLists .datum pending + 1 := by
  simp [openLists, Goal.lists, Pending.lists, Nat.add_comm]

lemma leaves_advance : Leaves (openLists .datum pending + lexeme.token.weight)
    (advance pending lexeme h) := by
  unfold advance
  cases lexeme.token with
  | opening =>
    dsimp only
    rw [bind_apply]
    cases hx : (acquire .emptyList : HeapM ReadFailure Root) h with
    | ok list k =>
      refine ⟨?_, fun _ => by simp⟩
      rw [openLists_items]
      rfl
    | error e k =>
      unfold acquire at hx
      split at hx <;> cases hx
    | halt c => trivial
  | closing =>
    dsimp only
    split
    · next list last pending =>
      have hn : (openLists .datum (.items list last :: pending) : Int) + Token.weight .closing =
          openLists .datum pending := by
        rw [openLists_items]
        simp [Token.weight]
      rw [hn]
      exact leaves_closeList
    · exact leaves_refuse ⟨by simp, by simp⟩
  | mark q =>
    refine ⟨?_, fun _ => by simp⟩
    simp [openLists, Pending.lists, Token.weight]
  | literal literal =>
    dsimp only [Token.weight]
    rw [Int.add_zero]
    have hliteral : Leaves (openLists .datum pending)
        (building pending lexeme.stop (do complete (← makeLiteral literal) pending) h) := by
      refine leaves_building fun p k hp => ?_
      obtain ⟨w, l, -, hp⟩ := bind_eq_ok.mp hp
      exact leaves_complete hp
    cases isDot literal with
    | false => exact hliteral
    | true =>
      rcases pending with _ | ⟨⟨list, _ | last⟩ | ⟨list, last⟩ | symbol, later⟩
      · exact hliteral
      · exact leaves_refuse ⟨by simp, by simp⟩
      · refine ⟨?_, fun _ => by simp⟩
        simp [openLists, Pending.lists]
      · exact hliteral
      · exact hliteral

/-- A token opens a list, closes one, or leaves their number as it is. -/
lemma leaves_take (goal : Goal) (pending : List Pending) (lexeme : Lexeme) (h : Heap) :
    Leaves (openLists goal pending + lexeme.token.weight) (take goal pending lexeme h) := by
  cases goal with
  | datum => exact leaves_advance
  | closing list =>
    cases ht : lexeme.token with
    | closing =>
      have hn : (openLists (.closing list) pending : Int) + Token.weight .closing =
          openLists .datum pending := by
        simp [openLists, Goal.lists, Token.weight]
      simp only [take, ht]
      rw [hn]
      exact leaves_closeList
    | _ =>
      simp only [take, ht]
      exact leaves_refuse ⟨by simp, by simp⟩

/-! ## A whole reading -/

lemma finish_eq_none
    (hf : (finish ending goal pending : HeapM ReadFailure (Option α)) h = .ok none k) :
    goal = .datum ∧ pending = [] ∧ ∃ stop, ending = .endOfText stop := by
  unfold finish at hf
  split at hf
  · exact ⟨rfl, rfl, _, rfl⟩
  · exact absurd hf refuse_ne_ok
  · exact absurd hf refuse_ne_ok
  · exact absurd hf refuse_ne_ok

/-- There is no datum only if there is no token. -/
lemma readFrom_none (hu : goal = .datum → pending ≠ []) :
    readFrom ending goal pending lexemes h ≠ .ok none k := by
  intro hr
  induction lexemes generalizing goal pending h with
  | nil =>
    obtain ⟨hg, hp, -⟩ := finish_eq_none hr
    exact hu hg hp
  | cons lexeme rest ih =>
    rw [readFrom] at hr
    obtain ⟨p, l, ht, hp⟩ := bind_eq_ok.mp hr
    cases p with
    | done v => cases hp
    | more goal' pending' =>
      have hl := leaves_take goal pending lexeme h
      rw [ht] at hl
      exact ih hl.2 hp

lemma read_eq_none {scan : Scan} (hr : HeapM.read scan h = .ok none k) :
    scan.lexemes = [] ∧ ∃ stop, scan.ending = .endOfText stop := by
  rw [HeapM.read] at hr
  cases hl : scan.lexemes with
  | nil =>
    rw [hl] at hr
    exact ⟨rfl, (finish_eq_none hr).2.2⟩
  | cons lexeme rest =>
    rw [hl, readFrom] at hr
    obtain ⟨p, l, ht, hp⟩ := bind_eq_ok.mp hr
    cases p with
    | done v => cases hp
    | more goal' pending' =>
      have hl := leaves_take .datum [] lexeme h
      rw [show take .datum [] lexeme h = _ from ht] at hl
      exact absurd hp (readFrom_none hl.2)

/-- The tokens of a datum close what is open, and what they open. -/
lemma excess_of_readFrom (hr : readFrom ending goal pending lexemes h = .ok (some x) k) :
    openLists goal pending + excess lexemes = excess x.rest.lexemes := by
  induction lexemes generalizing goal pending h with
  | nil => exact absurd hr finish_ne_some
  | cons lexeme rest ih =>
    rw [readFrom] at hr
    obtain ⟨p, l, ht, hp⟩ := bind_eq_ok.mp hr
    have hl := leaves_take goal pending lexeme h
    rw [ht] at hl
    rw [excess_cons, ← Int.add_assoc]
    cases p with
    | done v =>
      cases hp
      rw [show _ + _ = (0 : Int) from hl, Int.zero_add]
    | more goal' pending' =>
      rw [← hl.1]
      exact ih hp

/-- A reading that misses the end of a list has come to the end of the text with more opening than
closing parentheses, and one that misses the end of a string has come to a string without an end. -/
lemma excess_of_incomplete (hr : readFrom ending goal pending lexemes h = .error e k)
    (he : e.failure.Incomplete) :
    (0 < openLists goal pending + excess lexemes ∧ ∃ stop, ending = .endOfText stop) ∨
      ∃ cause start stop, ending = .fault cause start stop ∧
        (cause = .unterminatedList ∨ cause = .unterminatedString) := by
  induction lexemes generalizing goal pending h with
  | nil =>
    rw [readFrom] at hr
    unfold finish at hr
    split at hr
    · cases hr
    · obtain rfl := eq_of_refuse hr rfl
      refine .inl ⟨?_, _, rfl⟩
      rw [excess_nil, Int.add_zero]
      rcases he with he | he
      · have hi := Failure.unreadable.inj he
        unfold incomplete at hi
        split at hi
        · cases hi
        · rw [openLists_items]
          omega
        · cases hi
      · have hi := Failure.unreadable.inj he
        unfold incomplete at hi
        split at hi <;> cases hi
    · obtain rfl := eq_of_refuse hr rfl
      rcases he with he | he <;> cases he
    · obtain rfl := eq_of_refuse hr rfl
      exact .inr ⟨_, _, _, rfl, he.imp Failure.unreadable.inj Failure.unreadable.inj⟩
  | cons lexeme rest ih =>
    have hl := leaves_take goal pending lexeme h
    rw [readFrom, bind_apply] at hr
    cases ht : take goal pending lexeme h with
    | ok p l =>
      rw [ht] at hr hl
      cases p with
      | done v => cases hr
      | more goal' pending' =>
        rw [excess_cons, ← Int.add_assoc, ← hl.1]
        exact ih hr
    | error e' l =>
      rw [ht] at hr hl
      cases hr
      exact absurd he hl
    | halt c =>
      rw [ht] at hr
      cases hr

end Reader

end ArenaScheme
