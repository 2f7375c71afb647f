/-
# Orderly reading

The reader holds every unfinished list in a slot of its own, and a list may be opened by one token
and closed by another.  So the single steps of the reader do not leave the root stack as deep as it
was.  What they preserve is that the slots on top of the stack are those of the unfinished lists,
the latest on top, and that everything below is as it was when reading began.  A reading that ends,
with a datum or with a failure, has released them all.
-/
import ArenaScheme.Reader
import ArenaScheme.Proofs.Discipline.Objects

namespace ArenaScheme

namespace Reader

open Heap HeapM

/-- The slots of unfinished lists, the latest first. -/
def slots : List Pending → List Nat
  | [] => []
  | .items list _ :: pending | .tail list _ :: pending => list.slot :: slots pending
  | .mark _ :: pending => slots pending

/-- The slots of everything unfinished, the latest first. -/
def slotsWith : Goal → List Pending → List Nat
  | .datum, pending => slots pending
  | .closing list, pending => list.slot :: slots pending

/-- The slots of what is unfinished after some progress. -/
def Progress.slots : Progress → List Nat
  | .done _ => []
  | .more goal pending => slotsWith goal pending

/-- `k` is what reading has made of `h` so far, with those slots occupied on top. -/
structure Opened (host : Array HostProcedure) (h : Heap) (occupied : List Nat)
    (k : Heap) : Prop where
  edits : Edits host h k
  depth : k.roots.size = h.roots.size + occupied.length
  below : ∀ i < h.roots.size, k.roots[i]? = h.roots[i]?
  order : occupied = (List.range' h.roots.size occupied.length).reverse
  env : k.currentEnv = h.currentEnv

variable {ε α : Type} {host : Array HostProcedure} {W : Nat → Prop} {s : Prop} {h k : Heap}
  {i : Nat} {occupied : List Nat}

namespace Opened

lemma refl (h : Heap) : Opened host h [] h := ⟨.refl, rfl, fun _ _ => rfl, rfl, rfl⟩

lemma restores (ho : Opened host h [] k) : Restores host W s h k := by
  refine ⟨ho.edits, ho.depth, fun i _ => ?_, fun _ => ho.env⟩
  by_cases hi : i < h.roots.size
  · exact ho.below i hi
  · rw [Array.getElem?_eq_none (Nat.not_lt.mp hi), Array.getElem?_eq_none]
    rw [ho.depth]
    exact Nat.not_lt.mp hi

lemma le_of_mem (ho : Opened host h occupied k) (hi : i ∈ occupied) : h.roots.size ≤ i := by
  rw [ho.order, List.mem_reverse, List.mem_range'_1] at hi
  exact hi.1

/-- Orderly work that writes to occupied slots only. -/
lemma restored {l : Heap} (ho : Opened host h occupied k)
    (hr : Restores host (fun i => h.roots.size ≤ i) False k l) : Opened host h occupied l :=
  ⟨ho.edits.trans hr.edits, hr.depth.trans ho.depth,
    fun i hi => (hr.slots i (Nat.not_le.mpr hi)).trans (ho.below i hi), ho.order,
    (hr.env id).trans ho.env⟩

lemma push (ho : Opened host h occupied k) (v : Handle) :
    Opened host h (k.roots.size :: occupied) { k with roots := k.roots.push v } := by
  refine ⟨ho.edits.tail (.roots k _), ?_, fun i hi => ?_, ?_, ho.env⟩
  · change (k.roots.push v).size = _
    rw [Array.size_push, ho.depth, List.length_cons, Nat.add_assoc]
  · have hne : i ≠ k.roots.size := by
      have := ho.depth
      omega
    exact (Array.getElem?_push).trans ((if_neg hne).trans (ho.below i hi))
  · rw [List.length_cons, List.range'_1_concat, List.reverse_append, ← ho.order, ho.depth]
    rfl

/-- The latest slot can be released. -/
lemma release (ho : Opened host h (i :: occupied) k) :
    ∃ v l, (HeapM.release ⟨i⟩ : HeapM ε Handle) k = .ok v l ∧ Opened host h occupied l := by
  obtain ⟨hi, hrest⟩ : i = h.roots.size + occupied.length ∧
      occupied = (List.range' h.roots.size occupied.length).reverse := by
    have := ho.order
    rwa [List.length_cons, List.range'_1_concat, List.reverse_append, List.reverse_singleton,
      List.singleton_append, List.cons.injEq] at this
  have hs : k.roots.size = i + 1 := by rw [ho.depth, hi, List.length_cons, Nat.add_assoc]
  obtain ⟨v, -, hv⟩ := release_apply (ε := ε) hs
  refine ⟨v, _, hv, ho.edits.tail (.roots k _), ?_, fun j hj => ?_, hrest, ho.env⟩
  · change k.roots.pop.size = _
    rw [Array.size_pop, hs, hi, Nat.add_sub_cancel]
  · change k.roots.pop[j]? = _
    rw [Array.getElem?_pop, if_pos (by omega)]
    exact ho.below j hj

end Opened

/-! ## Giving up -/

lemma abandon_spec {pending : List Pending} (ho : Opened host h (slots pending) k) :
    ∃ l, (abandon pending : HeapM ε Unit) k = .ok () l ∧ Opened host h [] l := by
  induction pending generalizing k with
  | nil => exact ⟨k, rfl, ho⟩
  | cons p pending ih =>
    cases p with
    | mark => exact ih ho
    | items | tail =>
      obtain ⟨v, l, hr, hl⟩ := ho.release (ε := ε)
      obtain ⟨l', hr', hl'⟩ := ih hl
      exact ⟨l', (bind_of_ok hr).trans hr', hl'⟩

/-- The ends that a reading may come to while it is under way. -/
def Ends (host : Array HostProcedure) (h : Heap) (occupied : α → List Nat) :
    Outcome ReadFailure α → Prop
  | .ok a k => Opened host h (occupied a) k
  | .error _ k => Opened host h [] k
  | .halt c => Stops host h c

lemma ends_refuse {goal : Goal} {pending : List Pending} {occupied : α → List Nat}
    (ho : Opened host h (slotsWith goal pending) k) (fault : ReadFault) (position : Nat) :
    Ends host h occupied ((refuse goal pending fault position : HeapM ReadFailure α) k) := by
  obtain ⟨l, hr, hl⟩ : ∃ l, (abandonGoal goal pending : HeapM ReadFailure Unit) k = .ok () l ∧
      Opened host h [] l := by
    cases goal with
    | datum => exact abandon_spec ho
    | closing list =>
      obtain ⟨v, l, hr, hl⟩ := ho.release (ε := ReadFailure)
      obtain ⟨l', hr', hl'⟩ := abandon_spec (ε := ReadFailure) hl
      exact ⟨l', (bind_of_ok hr).trans hr', hl'⟩
  rw [refuse, bind_of_ok hr]
  exact hl

lemma ends_building {pending : List Pending} {occupied : α → List Nat} {x : EvalM α}
    (position : Nat) (ho : Opened host h (slots pending) k)
    (hx : Orderly host (· ∈ slots pending) False x)
    (hp : ∀ a l, x k = .ok a l → occupied a = slots pending) :
    Ends host h occupied (building pending position x k) := by
  have hxk : (x k).Orderly host (fun i => h.roots.size ≤ i) False k :=
    (hx k).mono (fun i hi => ho.le_of_mem hi) id
  unfold building
  revert hxk hp
  cases x k with
  | ok a l =>
    intro hp hr
    rw [Ends, hp a l rfl]
    exact ho.restored hr
  | error e l =>
    intro _ hr
    obtain ⟨l', hr', hl'⟩ := abandon_spec (ε := ReadFailure) (ho.restored hr.1)
    dsimp only
    rw [bind_of_ok hr']
    exact hl'
  | halt c => exact fun _ hc => Stops.of_edits ho.edits hc

/-! ## Going on -/

lemma orderly_makeLiteral (l : Literal) : Orderly host W s (makeLiteral l) := by
  cases l with
  | bool b => exact .pure _
  | symbol name => exact .intern name
  | _ => exact .alloc rfl

lemma orderly_complete (v : Handle) (pending : List Pending) :
    Orderly host (· ∈ slots pending) s (complete v pending) := by
  induction pending generalizing v with
  | nil => exact .pure _
  | cons p pending ih =>
    cases p with
    | items list last =>
      refine .bind (.cons _ _) fun cell => ?_
      cases last with
      | some pair => exact .bind (.setCdr _ _) fun _ => .pure _
      | none => exact .bind (.store List.mem_cons_self _) fun _ => .pure _
    | tail list last => exact .bind (.setCdr _ _) fun _ => .pure _
    | mark symbol => exact .bind (.list _) fun v => ih v

/-- Handing on a datum opens nothing and closes nothing. -/
lemma slots_of_complete {v : Handle} {pending : List Pending} {p : Progress}
    (hr : complete v pending h = .ok p k) : p.slots = slots pending := by
  induction pending generalizing v h with
  | nil =>
    obtain ⟨rfl, -⟩ := Outcome.ok.inj hr
    rfl
  | cons q pending ih =>
    cases q with
    | items list last =>
      obtain ⟨cell, l, -, hr⟩ := bind_eq_ok.mp hr
      cases last with
      | some pair =>
        obtain ⟨_, l, -, hr⟩ := bind_eq_ok.mp hr
        obtain ⟨rfl, -⟩ := Outcome.ok.inj hr
        rfl
      | none =>
        obtain ⟨_, l, -, hr⟩ := bind_eq_ok.mp hr
        obtain ⟨rfl, -⟩ := Outcome.ok.inj hr
        rfl
    | tail list last =>
      obtain ⟨_, l, -, hr⟩ := bind_eq_ok.mp hr
      obtain ⟨rfl, -⟩ := Outcome.ok.inj hr
      rfl
    | mark symbol =>
      obtain ⟨_, l, -, hr⟩ := bind_eq_ok.mp hr
      exact ih hr

lemma ends_closeList {list : Root} {pending : List Pending} (position : Nat)
    (ho : Opened host h (list.slot :: slots pending) k) :
    Ends host h Progress.slots (closeList list pending position k) := by
  obtain ⟨v, l, hr, hl⟩ := ho.release (ε := ReadFailure)
  rw [closeList, bind_of_ok hr]
  exact ends_building position hl (orderly_complete v pending) fun _ _ => slots_of_complete

lemma ends_advance {pending : List Pending} (lexeme : Lexeme)
    (ho : Opened host h (slots pending) k) :
    Ends host h Progress.slots (advance pending lexeme k) := by
  cases ht : lexeme.token with
  | opening =>
    simp only [advance, ht, bind_apply, acquire]
    by_cases hlt : k.roots.size < k.rootSlots
    · rw [if_pos hlt]
      exact ho.push _
    · rw [if_neg hlt]
      exact Stops.of_not id
  | closing =>
    simp only [advance, ht]
    split
    · exact ends_closeList _ ho
    · exact ends_refuse ho _ _
  | mark q =>
    simp only [advance, ht]
    have hi : (HeapM.intern q.name k : Outcome ReadFailure Handle).Orderly host
        (fun i => h.roots.size ≤ i) False k := Orderly.intern q.name k
    exact ho.restored hi
  | literal literal =>
    have hb : Ends host h Progress.slots (building pending lexeme.stop
        (do complete (← makeLiteral literal) pending) k) := by
      refine ends_building _ ho
        (.bind (orderly_makeLiteral literal) fun v => orderly_complete v _) ?_
      intro p l hr
      obtain ⟨_, _, -, hr⟩ := bind_eq_ok.mp hr
      exact slots_of_complete hr
    -- a dot is no literal if it stands between the elements of a list
    simp only [advance, ht]
    cases isDot literal with
    | false => exact hb
    | true =>
      rcases pending with _ | ⟨⟨list, _ | last⟩ | _ | _, pending⟩
      · exact hb
      · exact ends_refuse ho _ _
      · exact ho
      · exact hb
      · exact hb

lemma ends_take {goal : Goal} {pending : List Pending} (lexeme : Lexeme)
    (ho : Opened host h (slotsWith goal pending) k) :
    Ends host h Progress.slots (take goal pending lexeme k) := by
  cases goal with
  | datum => exact ends_advance lexeme ho
  | closing list =>
    cases ht : lexeme.token with
    | closing =>
      simp only [take, ht]
      exact ends_closeList _ ho
    | _ =>
      simp only [take, ht]
      exact ends_refuse ho _ _

lemma ends_finish {goal : Goal} {pending : List Pending} (ending : Ending)
    (ho : Opened host h (slotsWith goal pending) k) :
    Ends host h (fun _ => []) (finish ending goal pending k : Outcome ReadFailure (Option α)) := by
  unfold finish
  split
  · exact ho
  · exact ends_refuse ho _ _
  · exact ends_refuse ho _ _
  · exact ends_refuse ho _ _

lemma ends_readFrom {goal : Goal} {pending : List Pending} (ending : Ending) (lexemes : List Lexeme)
    (ho : Opened host h (slotsWith goal pending) k) :
    Ends host h (fun _ => []) (readFrom ending goal pending lexemes k) := by
  induction lexemes generalizing goal pending k with
  | nil => exact ends_finish ending ho
  | cons lexeme rest ih =>
    have ht := ends_take lexeme ho
    rw [readFrom, bind_apply]
    revert ht
    cases take goal pending lexeme k with
    | ok p l =>
      intro hl
      cases p with
      | done v => exact hl
      | more goal pending => exact ih hl
    | error e l => exact id
    | halt c => exact id

end Reader

/-- Reading a datum is orderly. -/
lemma Orderly.read {host : Array HostProcedure} {W : Nat → Prop} {s : Prop} (scan : Scan) :
    Orderly host W s (HeapM.read scan) := by
  intro h
  have hr : Reader.Ends host h (fun _ => [])
    (Reader.readFrom scan.ending .datum [] scan.lexemes h) :=
    Reader.ends_readFrom _ _ (.refl h)
  rw [HeapM.read]
  revert hr
  cases Reader.readFrom scan.ending .datum [] scan.lexemes h with
  | ok a k => exact fun ho => ho.restores
  | error e k => exact fun ho => ⟨ho.restores, trivial⟩
  | halt c => exact id

end ArenaScheme
