/-
# Safe reading

What is read is new and can be given away.  A list that is being read is open from the beginning,
and the slot that holds it can be read; so reading is safe where no slot is kept to oneself.
-/
import ArenaScheme.Reader
import ArenaScheme.Proofs.Seclusion.Environments

namespace ArenaScheme

open Heap HeapM

variable {ε α β : Type} {R : Prop} {U V : Veil} {h k : Heap} {v : Handle}

/-- No slot is kept to oneself. -/
def Veil.Bare (V : Veil) : Prop := V.slots = ∅

lemma Veil.Bare.bares (hb : V.Bare) (h : Heap) (root : Root) : V.Bares h root := fun _ hm => by
  rw [hb] at hm
  exact hm

instance : Exhibit Root := ⟨fun _ _ _ => True, fun _ => id⟩

namespace Safe

variable [Exhibit ε] [Exhibit α] [Exhibit β]

lemma acquire (hs : V.Seals h) (hv : V.Shows h v) :
    ((acquire v : HeapM ε Root) h).Safe R V h := by
  rw [HeapM.acquire]
  split
  · exact ⟨.push hs hv, trivial⟩
  · exact fun he => absurd he (by simp)

lemma release (hb : V.Bare) (hs : V.Seals h) (root : Root) :
    ((release root : HeapM ε Handle) h).Safe R V h := by
  have hnone : ∀ {i}, i ∉ V.slots := fun hm => by
    rw [hb] at hm
    exact hm
  have hpop : V.Keeps h { h with roots := h.roots.pop } := by
    refine .reframe hs rfl rfl (fun _ hsl => ?_) rfl fun _ _ i hi => absurd hi hnone
    refine hsl.reframe rfl rfl hsl.current hsl.table rfl (fun i u hi hn => ?_)
      fun i hi => absurd hi hnone
    rw [Array.getElem?_pop] at hi
    split at hi
    · exact hsl.slots i u hi hn
    · simp at hi
  rw [HeapM.release]
  cases hv : h.roots.back? with
  | none => exact fun he => absurd he (by simp)
  | some v =>
    dsimp only
    split
    · refine ⟨hpop, hpop.shows fun hu => (hs hu).slots (h.roots.size - 1) v ?_ hnone⟩
      rwa [Array.back?] at hv
    · exact fun he => absurd he (by simp)

/-! ## What is unfinished -/

open Reader

instance : Exhibit Pending where
  shown V h
    | .items _ last => Exhibit.shown V h last
    | .tail _ last => V.Shows h last
    | .mark symbol => V.Shows h symbol
  mono {_ _ _ _ _ p} hk hp := by
    cases p with
    | items _ last => exact Exhibit.mono hk hp
    | _ => exact hk.shows hp

instance : Exhibit Progress where
  shown V h
    | .done v => V.Shows h v
    | .more _ pending => Exhibit.shown V h pending
  mono {_ _ _ _ _ p} hk hp := by
    cases p with
    | done v => exact hk.shows hp
    | more _ pending => exact Exhibit.mono hk hp

instance : Exhibit Reading where
  shown V h r := V.Shows h r.datum
  mono hk hr := hk.shows hr

variable {pending : List Pending}

lemma abandon (hb : V.Bare) (hs : V.Seals h) (pending : List Pending) :
    ((abandon pending : HeapM ε Unit) h).Safe R V h := by
  induction pending generalizing h with
  | nil => exact pure hs trivial
  | cons p pending ih =>
    cases p with
    | mark symbol => exact ih hs
    | items list _ => exact bind (release hb hs list) fun _ _ hk _ => ih hk.seals
    | tail list _ => exact bind (release hb hs list) fun _ _ hk _ => ih hk.seals

lemma refuse (hb : V.Bare) (hs : V.Seals h) (goal : Goal) (pending : List Pending)
    (fault : ReadFault) (position : Nat) :
    ((refuse goal pending fault position : HeapM ReadFailure α) h).Safe R V h := by
  have hgoal : ((abandonGoal goal pending : HeapM ReadFailure Unit) h).Safe R V h := by
    cases goal with
    | datum => exact abandon hb hs pending
    | closing list => exact bind (release hb hs list) fun _ _ hk _ => abandon hb hk.seals pending
  exact bind hgoal fun _ _ hk _ => fail hk.seals trivial

lemma building (hb : V.Bare) (pending : List Pending) (position : Nat) {x : EvalM α}
    (hx : (x h).Safe R V h) : ((building pending position x) h).Safe R V h := by
  rw [Reader.building]
  revert hx
  cases x h with
  | ok a k => exact id
  | error e k =>
    intro he
    refine from_earlier he.1 (bind (abandon hb he.1.seals pending) fun _ l hl _ => ?_)
    exact fail hl.seals trivial
  | halt c => exact id

/-! ## Tokens -/

lemma makeLiteral (hs : V.Seals h) (l : Literal) : ((makeLiteral l) h).Safe R V h := by
  cases l with
  | bool b => exact pure hs fun hu => (hs hu).open_sentinel (by cases b <;> decide)
  | symbol name => exact intern hs name
  | _ => exact alloc_atom hs rfl rfl

lemma complete (hb : V.Bare) (hs : V.Seals h) (hv : V.Shows h v)
    (hp : Exhibit.shown V h pending) : ((complete v pending) h).Safe R V h := by
  induction pending generalizing h v with
  | nil => exact pure hs hv
  | cons p pending ih =>
    have hfirst : Exhibit.shown V h p := hp p List.mem_cons_self
    have hrest : Exhibit.shown V h pending := fun q hq => hp q (List.mem_cons_of_mem p hq)
    cases p with
    | items list last =>
      refine bind (cons hs hv fun hu => (hs hu).open_sentinel (by decide)) fun cell k hk hc => ?_
      have hmore : ∀ {l}, V.Keeps k l →
          Exhibit.shown V l (Progress.more .datum (.items list (some cell) :: pending)) := by
        intro l hl q hq
        rcases List.mem_cons.mp hq with rfl | hq
        · exact fun u hu => Option.mem_some.mp hu ▸ hl.shows hc
        · exact Exhibit.mono (hk.trans hl) (hrest q hq)
      cases last with
      | some pair =>
        exact bind (setCdr hk.seals (hk.shows (hfirst pair rfl)) hc) fun _ _ hl _ =>
          pure hl.seals (hmore hl)
      | none =>
        exact bind (store hk.seals (hb.bares k list) hc) fun _ _ hl _ => pure hl.seals (hmore hl)
    | tail list last =>
      exact bind (setCdr hs hfirst hv) fun _ _ hk _ => pure hk.seals (Exhibit.mono hk hrest)
    | mark symbol =>
      refine bind (list hs fun u hu => ?_) fun w k hk hw => ih hk.seals hw (Exhibit.mono hk hrest)
      simp only [List.mem_cons, List.not_mem_nil, or_false] at hu
      rcases hu with rfl | rfl
      · exact hfirst
      · exact hv

lemma closeList (hb : V.Bare) (hs : V.Seals h) (list : Root) (position : Nat)
    (hp : Exhibit.shown V h pending) :
    ((closeList list pending position) h).Safe R V h :=
  bind (release hb hs list) fun _ _ hk hv =>
    building hb pending position (complete hb hk.seals hv (Exhibit.mono hk hp))

lemma advance (hb : V.Bare) (hs : V.Seals h) (lexeme : Lexeme) (hp : Exhibit.shown V h pending) :
    ((advance pending lexeme) h).Safe R V h := by
  have hliteral : ∀ l, ((Reader.building pending lexeme.stop
      (do Reader.complete (← Reader.makeLiteral l) pending)) h).Safe R V h := fun l =>
    building hb pending _ (bind (makeLiteral hs l) fun _ _ hk hv =>
      complete hb hk.seals hv (Exhibit.mono hk hp))
  have hmore : ∀ {k : Heap} {p : Pending}, V.Keeps h k → Exhibit.shown V k p →
      Exhibit.shown V k (Progress.more .datum (p :: pending)) := by
    intro k p hk hq q hm
    rcases List.mem_cons.mp hm with rfl | hm
    · exact hq
    · exact Exhibit.mono hk (hp q hm)
  cases ht : lexeme.token with
  | opening =>
    simp only [Reader.advance, ht]
    refine bind (acquire hs fun hu => (hs hu).open_sentinel (by decide)) fun list k hk _ => ?_
    exact pure hk.seals (hmore hk (by simp [Exhibit.shown]))
  | closing =>
    simp only [Reader.advance, ht]
    split
    · exact closeList hb hs _ _ fun q hq => hp q (List.mem_cons_of_mem _ hq)
    · exact refuse hb hs _ _ _ _
  | mark quotation =>
    simp only [Reader.advance, ht]
    exact bind (intern hs _) fun symbol k hk hv => pure hk.seals (hmore hk hv)
  | literal l =>
    -- a dot is no literal if it stands between the elements of a list
    simp only [Reader.advance, ht]
    cases isDot l with
    | false => exact hliteral l
    | true =>
      rcases pending with _ | ⟨⟨list, _ | last⟩ | _ | _, pending⟩
      · exact hliteral l
      · exact refuse hb hs _ _ _ _
      · refine pure hs fun q hq => ?_
        rcases List.mem_cons.mp hq with rfl | hq
        · exact hp (.items list (some last)) List.mem_cons_self last rfl
        · exact hp q (List.mem_cons_of_mem _ hq)
      · exact hliteral l
      · exact hliteral l

lemma take (hb : V.Bare) (hs : V.Seals h) (goal : Goal) (lexeme : Lexeme)
    (hp : Exhibit.shown V h pending) : ((take goal pending lexeme) h).Safe R V h := by
  cases goal with
  | datum => exact advance hb hs lexeme hp
  | closing list =>
    cases ht : lexeme.token with
    | closing =>
      simp only [Reader.take, ht]
      exact closeList hb hs _ _ hp
    | _ =>
      simp only [Reader.take, ht]
      exact refuse hb hs _ _ _ _

/-! ## Reading -/

lemma finish (hb : V.Bare) (hs : V.Seals h) (ending : Ending) (goal : Goal)
    (pending : List Pending) :
    ((finish ending goal pending : HeapM ReadFailure (Option Reading)) h).Safe R V h := by
  unfold Reader.finish
  split
  · exact pure hs (by simp [Exhibit.shown])
  · exact refuse hb hs _ _ _ _
  · exact refuse hb hs _ _ _ _
  · exact refuse hb hs _ _ _ _

lemma readFrom (hb : V.Bare) (hs : V.Seals h) (ending : Ending) (goal : Goal)
    (lexemes : List Lexeme) (hp : Exhibit.shown V h pending) :
    ((readFrom ending goal pending lexemes) h).Safe R V h := by
  induction lexemes generalizing h goal pending with
  | nil => exact finish hb hs ending goal pending
  | cons lexeme rest ih =>
    refine bind (take hb hs goal lexeme hp) fun p k hk hp => ?_
    cases p with
    | done v => exact pure hk.seals fun r hr => Option.mem_some.mp hr ▸ hp
    | more goal pending => exact ih hk.seals goal hp

lemma read (hb : V.Bare) (hs : V.Seals h) (scan : Scan) : ((read scan) h).Safe R V h :=
  readFrom hb hs _ _ _ (by simp [Exhibit.shown])

end Safe

end ArenaScheme
