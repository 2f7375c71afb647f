/-
# The reader without a heap

The reader keeps a stack of what is unfinished.  With trees in place of objects it becomes an
automaton that needs no heap, and this automaton recognises what the grammar describes: reading a
datum on any stack comes to handing the tree of the grammar to the stack, or to the fault that the
grammar finds.
-/
import ArenaScheme.Proofs.Reading.Grammar

namespace ArenaScheme

namespace Parser

open Grammar (Found)

/-! ## The automaton -/

/-- Something unfinished that waits for a datum. -/
inductive Frame
  /-- A list with the elements that it has. -/
  | items (elements : List Tree)
  /-- A list with a dot after its elements. -/
  | tail (elements : List Tree)
  | mark (quotation : Quotation)
deriving DecidableEq

/-- What has to come next. -/
inductive Goal
  | datum
  /-- The end of a list that has its tail. -/
  | closing (list : Tree)
deriving DecidableEq

/-- What a datum leads to. -/
inductive Progress
  | done (t : Tree)
  | more (goal : Goal) (frames : List Frame)
deriving DecidableEq

/-- Hand a datum to what waits for it. -/
def complete (t : Tree) : List Frame → Progress
  | [] => .done t
  | .items ts :: frames => .more .datum (.items (ts ++ [t]) :: frames)
  | .tail ts :: frames => .more (.closing (.list ts t)) frames
  | .mark quotation :: frames => complete (quotation.form t) frames

/-- The effect of a token where a datum or the end of a list may come. -/
def advance (frames : List Frame) (lexeme : Lexeme) : Except ReadFailure Progress :=
  match lexeme.token with
  | .opening => .ok (.more .datum (.items [] :: frames))
  | .closing =>
    match frames with
    | .items ts :: frames => .ok (complete (.list ts .emptyList) frames)
    | _ => .error (.ofFault .unexpectedClosing lexeme.start)
  | .mark quotation => .ok (.more .datum (.mark quotation :: frames))
  | .literal literal =>
    match Reader.isDot literal, frames with
    | true, .items (t :: ts) :: frames => .ok (.more .datum (.tail (t :: ts) :: frames))
    | true, .items [] :: _ => .error (.ofFault .nothingBeforeDot lexeme.start)
    | _, _ => .ok (complete (.leaf literal) frames)

/-- The effect of a token where a certain goal has to be met. -/
def take (goal : Goal) (frames : List Frame) (lexeme : Lexeme) : Except ReadFailure Progress :=
  match goal, lexeme.token with
  | .datum, _ => advance frames lexeme
  | .closing t, .closing => .ok (complete t frames)
  | .closing _, _ => .error (.ofFault .closingExpected (lexeme.start + 1))

/-- The effect of the end of the scan. -/
def finish (ending : Ending) (goal : Goal) (frames : List Frame) :
    Except ReadFailure (Option Found) :=
  match ending, goal, frames with
  | .endOfText _, .datum, [] => .ok none
  | ending, .datum, .items _ :: _ => .error (ending.refusal .unterminatedList)
  | ending, .datum, _ => .error (ending.refusal .unexpectedEnd)
  | .endOfText stop, .closing _, _ => .error (.ofFault .closingExpected stop)
  | .fault _ start _, .closing _, _ => .error (.ofFault .closingExpected (start + 1))

/-- Read on with something unfinished. -/
def run (ending : Ending) (goal : Goal) (frames : List Frame) :
    List Lexeme → Except ReadFailure (Option Found)
  | [] => finish ending goal frames
  | lexeme :: rest => do
    match ← take goal frames lexeme with
    | .done t => return some ⟨t, lexeme.stop, ⟨rest, ending⟩⟩
    | .more goal frames => run ending goal frames rest

/-- Go on after a datum. -/
def resume (ending : Ending) (progress : Progress) (stop : Nat) (rest : List Lexeme) :
    Except ReadFailure (Option Found) :=
  match progress with
  | .done t => .ok (some ⟨t, stop, ⟨rest, ending⟩⟩)
  | .more goal frames => run ending goal frames rest

variable {ending : Ending} {goal : Goal} {frames : List Frame} {lexeme : Lexeme}
  {rest : List Lexeme}

lemma run_cons : run ending goal frames (lexeme :: rest) =
    take goal frames lexeme >>= fun p => resume ending p lexeme.stop rest := by
  rw [run]
  rcases take goal frames lexeme with e | p
  · rfl
  · cases p <;> rfl

/-! ## The cells that are needed

A reading that is under way has made the cells of the elements that it has, and of the pairs that
hold them.  All of these are cells of the result. -/

/-- The number of cells that an unfinished list has. -/
def Frame.weight : Frame → Nat
  | .items ts | .tail ts => Tree.spineCells ts
  | .mark _ => 0

/-- The number of cells that all that is unfinished has. -/
def weight : List Frame → Nat
  | [] => 0
  | frame :: frames => frame.weight + weight frames

/-- The number of cells of a list that only has to be closed. -/
def Goal.weight : Goal → Nat
  | .datum => 0
  | .closing t => t.cells

/-- The number of cells there are after some progress. -/
def Progress.weight : Progress → Nat
  | .done t => t.cells
  | .more goal frames => goal.weight + Parser.weight frames

lemma cells_form (q : Quotation) (t : Tree) : (q.form t).cells = t.cells + 2 := by
  rw [Quotation.form, Tree.cells_list]
  simp [Tree.cells, Literal.datum?]
  omega

/-- What waits for a datum is made of the datum and of what there was, and maybe of more. -/
lemma weight_complete (t : Tree) (frames : List Frame) :
    t.cells + weight frames ≤ (complete t frames).weight := by
  induction frames generalizing t with
  | nil => exact Nat.le_refl _
  | cons frame frames ih =>
    cases frame with
    | items ts =>
      simp only [complete, Progress.weight, Goal.weight, weight, Frame.weight,
        Tree.spineCells_append, Tree.spineCells_cons, Tree.spineCells_nil]
      omega
    | tail ts =>
      simp only [complete, Progress.weight, Goal.weight, weight, Frame.weight, Tree.cells_list]
      omega
    | mark q =>
      have := ih (q.form t)
      rw [cells_form] at this
      simp only [complete, weight, Frame.weight]
      omega

lemma weight_advance {p : Progress} (hp : advance frames lexeme = .ok p) :
    weight frames ≤ p.weight := by
  unfold advance at hp
  split at hp
  · cases hp
    simp [Progress.weight, Goal.weight, weight, Frame.weight]
  · split at hp
    · next ts frames =>
      cases hp
      refine Nat.le_trans ?_ (weight_complete _ frames)
      simp [weight, Frame.weight, Tree.cells_list]
    · cases hp
  · cases hp
    simp [Progress.weight, Goal.weight, weight, Frame.weight]
  · split at hp
    · cases hp
      simp [Progress.weight, Goal.weight, weight, Frame.weight]
    · cases hp
    · cases hp
      exact Nat.le_trans (Nat.le_add_left _ _) (weight_complete _ _)

lemma weight_take {p : Progress} (hp : take goal frames lexeme = .ok p) :
    goal.weight + weight frames ≤ p.weight := by
  unfold take at hp
  split at hp
  · rw [Goal.weight, Nat.zero_add]
    exact weight_advance hp
  · cases hp
    exact weight_complete _ _
  · cases hp

/-- The result is made of all that there was on the way. -/
lemma weight_run {lexemes : List Lexeme} {f : Found}
    (hf : run ending goal frames lexemes = .ok (some f)) :
    goal.weight + weight frames ≤ f.tree.cells := by
  induction lexemes generalizing goal frames with
  | nil =>
    rw [run] at hf
    unfold finish at hf
    split at hf <;> cases hf
  | cons lexeme rest ih =>
    rw [run_cons] at hf
    rcases hp : take goal frames lexeme with e | p <;> rw [hp] at hf
    · cases hf
    · refine Nat.le_trans (weight_take hp) ?_
      cases p with
      | done t =>
        cases hf
        exact Nat.le_refl _
      | more goal frames => exact ih hf

lemma weight_resume {p : Progress} {stop : Nat} {f : Found}
    (hf : resume ending p stop rest = .ok (some f)) : p.weight ≤ f.tree.cells := by
  cases p with
  | done t =>
    cases hf
    exact Nat.le_refl _
  | more goal frames => exact weight_run hf

/-! ## The automaton and the grammar -/

/-- Whatever comes next is to be read as a datum: if a list waits for it, it is neither the end of
the list nor a dot, and if nothing waits for it, it is not the end of the text. -/
def Expects (frames : List Frame) (lexemes : List Lexeme) : Prop :=
  (lexemes = [] → ∃ frame later, frames = frame :: later) ∧
    ∀ ts later, frames = .items ts :: later →
      ∃ lexeme rest, lexemes = lexeme :: rest ∧ lexeme.token ≠ .closing ∧ lexeme.token.isDot = false

lemma Expects.after_dot (ts : List Tree) (lexemes : List Lexeme) :
    Expects (.tail ts :: frames) lexemes :=
  ⟨fun _ => ⟨_, _, rfl⟩, fun _ _ h => nomatch h⟩

lemma Expects.after_mark (q : Quotation) (lexemes : List Lexeme) :
    Expects (.mark q :: frames) lexemes :=
  ⟨fun _ => ⟨_, _, rfl⟩, fun _ _ h => nomatch h⟩

lemma Expects.element (ts : List Tree) (hc : lexeme.token ≠ .closing)
    (hd : lexeme.token.isDot = false) : Expects (.items ts :: frames) (lexeme :: rest) :=
  ⟨fun h => (nomatch h), fun _ _ _ => ⟨_, _, rfl, hc, hd⟩⟩

lemma Expects.first : Expects [] (lexeme :: rest) :=
  ⟨fun h => (nomatch h), fun _ _ h => (nomatch h)⟩

/-- The automaton closes a list that has its tail as the grammar does. -/
lemma run_closing (t : Tree) (frames : List Frame) (lexemes : List Lexeme) :
    run ending (.closing t) frames lexemes =
      Grammar.close ending t lexemes >>= fun p =>
        resume ending (complete p.tree frames) p.stop p.rest := by
  cases lexemes with
  | nil => cases ending <;> rfl
  | cons lexeme rest =>
    rw [run_cons, Grammar.close]
    cases ht : lexeme.token <;> simp [take, ht] <;> rfl

/-- The end of a list does not depend on the tree. -/
lemma close_bind (f : Tree → Tree) (t : Tree) (lexemes : List Lexeme)
    (g : Tree → Nat → List Lexeme → Except ReadFailure (Option Found)) :
    (Grammar.close ending (f t) lexemes >>= fun p => g p.tree p.stop p.rest) =
      Grammar.close ending t lexemes >>= fun p => g (f p.tree) p.stop p.rest := by
  cases lexemes with
  | nil => cases ending <;> rfl
  | cons lexeme rest =>
    rw [Grammar.close, Grammar.close]
    split <;> rfl

/-- On a literal that is not the dot of a list. -/
lemma advance_literal {l : Literal} (hl : lexeme.token = .literal l)
    (hf : ∀ ts later, frames = .items ts :: later → Reader.isDot l = false) :
    advance frames lexeme = .ok (complete (.leaf l) frames) := by
  rcases frames with _ | ⟨ts | ts | q, later⟩
  · simp only [advance, hl]
    cases Reader.isDot l <;> rfl
  · simp only [advance, hl, hf ts later rfl]
  · simp only [advance, hl]
    cases Reader.isDot l <;> rfl
  · simp only [advance, hl]
    cases Reader.isDot l <;> rfl

/-- What is to be shown of the tokens that are left. -/
structure Agrees (ending : Ending) (lexemes : List Lexeme) : Prop where
  datum : ∀ frames, Expects frames lexemes → run ending .datum frames lexemes =
    Grammar.datum ending lexemes >>= fun p => resume ending (complete p.tree frames) p.stop p.rest
  items : ∀ ts frames, run ending .datum (.items ts :: frames) lexemes =
    Grammar.items ending (!ts.isEmpty) lexemes >>= fun p =>
      resume ending (complete (.list ts p.tree) frames) p.stop p.rest

lemma agrees_nil (ending : Ending) : Agrees ending [] := by
  refine ⟨fun frames he => ?_, fun ts frames => ?_⟩
  · obtain ⟨frame, later, rfl⟩ := he.1 rfl
    rw [Grammar.datum, run]
    cases frame with
    | items ts =>
      obtain ⟨lexeme, rest, h, -⟩ := he.2 ts later rfl
      cases h
    | tail ts => cases ending <;> rfl
    | mark q => cases ending <;> rfl
  · rw [Grammar.items, run]
    cases ending <;> rfl

/-- A datum, if the automaton and the grammar agree on all that follows its first token. -/
lemma agrees_datum (hr : Agrees ending rest) (he : Expects frames (lexeme :: rest)) :
    run ending .datum frames (lexeme :: rest) = Grammar.datum ending (lexeme :: rest) >>= fun p =>
      resume ending (complete p.tree frames) p.stop p.rest := by
  rw [run_cons, Grammar.datum]
  change (advance frames lexeme >>= fun p => resume ending p lexeme.stop rest) = _
  cases ht : lexeme.token with
  | opening =>
    have ha : advance frames lexeme = .ok (.more .datum (.items [] :: frames)) := by
      simp only [advance, ht]
    have hi := hr.items [] frames
    rw [ha]
    simp only [List.isEmpty_nil, Bool.not_true, Tree.list_nil] at hi
    change run ending .datum (.items [] :: frames) rest = _
    rw [hi]
    rcases Grammar.items ending false rest with e | p <;> rfl
  | closing =>
    have ha : advance frames lexeme = .error (.ofFault .unexpectedClosing lexeme.start) := by
      rcases frames with _ | ⟨ts | ts | q, later⟩
      · simp only [advance, ht]
      · obtain ⟨l, r, h, hc, -⟩ := he.2 ts later rfl
        obtain ⟨rfl, -⟩ := List.cons.inj h
        exact absurd ht hc
      · simp only [advance, ht]
      · simp only [advance, ht]
    rw [ha]
    rfl
  | mark q =>
    have ha : advance frames lexeme = .ok (.more .datum (.mark q :: frames)) := by
      simp only [advance, ht]
    rw [ha]
    change run ending .datum (.mark q :: frames) rest = _
    rw [hr.datum _ (.after_mark q rest)]
    rcases Grammar.datum ending rest with e | p <;> rfl
  | literal l =>
    have hdot : ∀ ts later, frames = .items ts :: later → Reader.isDot l = false := by
      intro ts later hf
      obtain ⟨lexeme', r, h, -, hd⟩ := he.2 ts later hf
      obtain ⟨rfl, -⟩ := List.cons.inj h
      rwa [ht] at hd
    rw [advance_literal ht hdot]
    rfl

/-- The rest of a list, if the automaton and the grammar agree on all that is shorter. -/
lemma agrees_items (hs : ∀ later : List Lexeme, later.length ≤ rest.length → Agrees ending later)
    (ts : List Tree) (frames : List Frame) :
    run ending .datum (.items ts :: frames) (lexeme :: rest) =
      Grammar.items ending (!ts.isEmpty) (lexeme :: rest) >>= fun p =>
        resume ending (complete (.list ts p.tree) frames) p.stop p.rest := by
  rw [Grammar.items]
  by_cases hc : lexeme.token = .closing
  · have ha : advance (.items ts :: frames) lexeme =
        .ok (complete (.list ts .emptyList) frames) := by
      rw [advance, hc]
    rw [if_pos hc, run_cons]
    change (advance (.items ts :: frames) lexeme >>= fun p => resume ending p lexeme.stop rest) = _
    rw [ha]
    rfl
  rw [if_neg hc]
  by_cases hd : lexeme.token.isDot = true
  · obtain ⟨l, hl, hdot⟩ : ∃ l, lexeme.token = .literal l ∧ Reader.isDot l = true := by
      cases ht : lexeme.token <;> rw [ht] at hd
      case literal l => exact ⟨l, rfl, hd⟩
      all_goals cases hd
    rw [if_pos hd, run_cons]
    change (advance (.items ts :: frames) lexeme >>= fun p => resume ending p lexeme.stop rest) = _
    cases ts with
    | nil =>
      have ha : advance (.items [] :: frames) lexeme =
          .error (.ofFault .nothingBeforeDot lexeme.start) := by
        simp only [advance, hl, hdot]
      rw [ha]
      rfl
    | cons t ts =>
      have ha : advance (.items (t :: ts) :: frames) lexeme =
          .ok (.more .datum (.tail (t :: ts) :: frames)) := by
        simp only [advance, hl, hdot]
      rw [ha]
      change run ending .datum (.tail (t :: ts) :: frames) rest = _
      rw [(hs rest (Nat.le_refl _)).datum _ (.after_dot _ _)]
      simp only [List.isEmpty_cons, Bool.not_false, if_true]
      rcases Grammar.datum ending rest with e | p
      · rfl
      change run ending (.closing (.list (t :: ts) p.tree)) frames p.rest = _
      rw [run_closing, close_bind (.list (t :: ts)) p.tree p.rest
        fun u stop rest => resume ending (complete u frames) stop rest]
      simp only [bind, Except.bind]
      rcases Grammar.close ending p.tree p.rest with e | q <;> rfl
  · rw [if_neg hd]
    have hd' : lexeme.token.isDot = false := by simpa using hd
    rw [agrees_datum (hs rest (Nat.le_refl _)) (.element ts hc hd')]
    rcases Grammar.datum ending (lexeme :: rest) with e | p
    · rfl
    change run ending .datum (.items (ts ++ [p.tree]) :: frames) p.rest = _
    rw [(hs p.rest (Nat.lt_succ_iff.mp p.fewer)).items]
    have hne : (ts ++ [p.tree]).isEmpty = false := by simp
    rw [hne, Bool.not_false]
    rcases hq : Grammar.items ending true p.rest with e | q
    · simp only [bind, Except.bind, hq]
    · simp only [bind, Except.bind, hq, pure, Except.pure, Tree.list_append]
      rfl

lemma agrees (ending : Ending) (lexemes : List Lexeme) : Agrees ending lexemes := by
  induction hn : lexemes.length using Nat.strongRecOn generalizing lexemes with
  | ind n ih =>
    subst hn
    cases lexemes with
    | nil => exact agrees_nil ending
    | cons lexeme rest =>
      have hs : ∀ later : List Lexeme, later.length ≤ rest.length → Agrees ending later :=
        fun later hl => ih later.length (Nat.lt_succ_of_le hl) later rfl
      exact ⟨fun frames he => agrees_datum (hs rest (Nat.le_refl _)) he, agrees_items hs⟩

/-- The automaton recognises the data of the grammar. -/
lemma run_eq_parse (scan : Scan) : run scan.ending .datum [] scan.lexemes = Grammar.parse scan := by
  obtain ⟨lexemes, ending⟩ := scan
  cases lexemes with
  | nil =>
    cases ending with
    | endOfText stop => rfl
    | fault cause start stop =>
      simp only [Grammar.parse, Grammar.datum]
      rfl
  | cons lexeme rest =>
    simp only [Grammar.parse]
    rw [(agrees ending _).datum [] .first]
    rcases Grammar.datum ending (lexeme :: rest) with e | p <;> rfl

end Parser

end ArenaScheme
