/-
# What is printed of a spine

The printing of a list goes along its spine, and a slow cursor follows, which moves at every other
step.  If the spine has an end then every element is printed once, in order, and then the end,
unless this is the empty list.  If the spine is circular then the printing comes back to the slow
cursor, and the rest is elided.  By then every element has been printed, and no more than twice as
many as there are.

The elements are printed in turn, with one level less.  Since every spine has one of these shapes
and the number of levels is bounded, printing always comes to an end.
-/
import ArenaScheme.Proofs.Spines.Walking

namespace ArenaScheme

open Heap

namespace Printer

/-- The printed form of a list, given those of its elements and what follows them. -/
def listText (texts : List String) (ending : String) : String :=
  "(" ++ " ".intercalate texts ++ ending ++ ")"

/-- What follows the elements of a list that ends with `last`: nothing, or a dot and the end. -/
def endText (h : Heap) (element : Handle → Except Halt String) (last : Handle) :
    Except Halt String := do
  match ← h.read last with
  | .emptyList => return ""
  | _ => return " . " ++ (← element last)

/-- What follows the elements that are printed: the end of the list, or that the rest is elided. -/
def restText (h : Heap) (element : Handle → Except Halt String) : Option Handle → Except Halt String
  | some last => endText h element last
  | none => .ok " ..."

/-- Which elements are printed of the list `v`, and what comes after them: an end, or nothing that
is to be printed. -/
inductive Listing (h : Heap) (v : Handle) : List Handle → Option Handle → Prop
  | ends {vs cells : List Handle} {last : Handle} (hr : h.Row last vs cells v)
      (hp : h.pairAt last = none) : Listing h v vs (some last)
  /-- After `j` steps the printing is where the slow cursor is, for the first time. -/
  | meets {vs cells : List Handle} {j : Nat} (hr : h.Row (h.tailOf^[j / 2] v) vs cells v)
      (hl : cells.length = j + 1) (hfirst : ∀ i < j, h.tailOf^[i + 1] v ≠ h.tailOf^[i / 2] v) :
      Listing h v vs none

variable {h : Heap} {element : Handle → Except Halt String} {v u head next last : Handle}
  {us vs ws lead cycle cells printed : List Handle} {levels : Nat}

/-! ## Listings -/

/-- One step of the printing. -/
lemma spineText_go {n : Nat} {due : Bool} {current slow slow' : Handle} {out : String}
    (hp : h.pairAt current = some (head, next)) (hne : current ≠ slow)
    (hs : (if due then h.cdr slow else pure slow) = .ok slow') :
    spineText h element (n + 1) due slow current out = (do
      let text ← element head
      spineText h element n (!due) slow' next (out ++ " " ++ text)) := by
  simp only [spineText, read_of_pairAt hp, if_neg hne, bind, Except.bind]
  cases element head with
  | error c => rfl
  | ok text =>
    cases due with
    | false =>
      obtain rfl : slow = slow' := Except.ok.inj hs
      rfl
    | true =>
      rw [if_pos rfl] at hs
      simp only [if_true, hs]

/-- The rest of a spine is printed as a listing tells. -/
lemma exists_listing_spineText (element : Handle → Except Halt String) {n j : Nat}
    {done : List Handle} (hj : Printed h v j) (hn : 2 * h.cells.size + 2 ≤ j + n)
    (hr : h.Row (h.tailOf^[j + 1] v) done cells v) (hl : cells.length = j + 1) :
    ∃ more e, Listing h v (done ++ more) e ∧ ∀ out,
      spineText h element n (decide (j % 2 = 1)) (h.tailOf^[j / 2] v) (h.tailOf^[j + 1] v) out = do
        let texts ← more.mapM element
        let ending ← restText h element e
        return " ".intercalate (out :: texts) ++ ending ++ ")" := by
  induction n generalizing j done cells with
  | zero =>
    have := hj.le
    omega
  | succ n ih =>
    cases hp : h.pairAt (h.tailOf^[j + 1] v) with
    | none =>
      refine ⟨[], some (h.tailOf^[j + 1] v), by simpa using Listing.ends hr hp, fun out => ?_⟩
      simp only [spineText, restText, endText, List.mapM_nil, bind, Except.bind, pure, Except.pure]
      cases hd : h.read (h.tailOf^[j + 1] v) with
      | error c => rfl
      | ok d =>
        cases d with
        | pair a b =>
          rw [pairAt_of_read hd] at hp
          cases hp
        | emptyList => simp
        | _ =>
          cases element (h.tailOf^[j + 1] v) with
          | error c => rfl
          | ok text => simp [String.append_assoc]
    | some parts =>
      obtain ⟨head, next⟩ := parts
      by_cases hmeet : h.tailOf^[j + 1] v = h.tailOf^[j / 2] v
      · rw [hmeet] at hr
        refine ⟨[], none, by simpa using Listing.meets hr hl hj.2, fun out => ?_⟩
        simp only [spineText, read_of_pairAt hp, if_pos hmeet, restText, List.mapM_nil, bind,
          Except.bind, pure, Except.pure]
        simp [String.append_assoc]
      · have hslow : ∃ slow,
          (if j % 2 = 1 then h.cdr (h.tailOf^[j / 2] v) else pure (h.tailOf^[j / 2] v)) =
            .ok slow := by
          obtain ⟨⟨a, b⟩, hs⟩ := Option.isSome_iff_exists.mp (hj.1 (j / 2) (by omega))
          split
          · exact ⟨b, cdr_of_pairAt hs⟩
          · exact ⟨_, rfl⟩
        obtain ⟨slow, hslow⟩ := hslow
        obtain ⟨hj', hs, hnext⟩ := hj.succ hp hmeet hslow
        have hr' := hr.concat (pairAt_eq_some.mp hp)
        rw [hnext] at hr'
        obtain ⟨more, e, hlist, htext⟩ := ih hj' (by omega) hr' (by simp [hl])
        refine ⟨head :: more, e, by simpa using hlist, fun out => ?_⟩
        have hdue : (!decide (j % 2 = 1)) = decide ((j + 1) % 2 = 1) := by
          rw [← decide_not]
          exact decide_eq_decide.mpr (by omega)
        rw [spineText_go hp hmeet (by simpa using hslow), hs, hnext, hdue, List.mapM_cons]
        simp only [bind, Except.bind, pure, Except.pure, htext]
        cases element head with
        | error c => rfl
        | ok text =>
          dsimp only
          cases more.mapM element with
          | error c => rfl
          | ok texts =>
            cases restText h element e with
            | error c => rfl
            | ok ending => simp [String.append_assoc]

/-- A list is printed as a listing tells, its elements with one level less. -/
lemma exists_listing_textAt (hp : h.pairAt v = some (head, next)) (levels : Nat) :
    ∃ vs e, Listing h v vs e ∧ textAt h (levels + 1) v = (do
      let texts ← vs.mapM (textAt h levels)
      return listText texts (← restText h (textAt h levels) e)) := by
  have hnext : h.tailOf^[0 + 1] v = next := tailOf_of_pairAt hp
  have hj : Printed h v 0 := by
    refine ⟨fun i hi => ?_, fun i hi => by omega⟩
    obtain rfl : i = 0 := by omega
    exact Option.isSome_iff_exists.mpr ⟨_, hp⟩
  have hr : h.Row (h.tailOf^[0 + 1] v) [head] [v] v := hnext ▸ .cons (pairAt_eq_some.mp hp) .nil
  obtain ⟨more, e, hlist, htext⟩ :=
    exists_listing_spineText (textAt h levels) hj (Nat.le_add_left _ 0) hr rfl
  refine ⟨head :: more, e, hlist, ?_⟩
  rw [hnext] at htext
  have htext' : ∀ out, spineText h (textAt h levels) (2 * h.cells.size + 2) false v next out = _ :=
    htext
  simp only [textAt, read_of_pairAt hp, List.mapM_cons, htext', bind, Except.bind, pure,
    Except.pure]
  cases textAt h levels head with
  | error c => rfl
  | ok text =>
    dsimp only
    cases more.mapM (textAt h levels) with
    | error c => rfl
    | ok texts =>
      cases restText h (textAt h levels) e with
      | error c => rfl
      | ok ending => simp [listText, String.append_assoc]

/-- The printing comes back to the slow cursor only if the spine is circular. -/
lemma exists_circular_of_meeting {j : Nat} (hr : h.Row (h.tailOf^[j / 2] v) vs cells v)
    (hl : cells.length = j + 1) : ∃ us lead ws cycle, h.Circular us lead ws cycle v := by
  refine exists_circular_of_return (p := j / 2) (q := j + 1) (by omega) ?_ fun i hi =>
    hr.isSome_pairAt (by omega)
  rw [← hl, hr.tailOf_iterate]

/-- The listing of a spine that has an end. -/
lemma Listing.of_row {e : Option Handle} (hl : Listing h v printed e) (hr : h.Row last vs cells v)
    (hp : h.pairAt last = none) : printed = vs ∧ e = some last := by
  cases hl with
  | ends hr' hp' =>
    obtain ⟨rfl, -, rfl⟩ := hr'.unique hp' hp hr
    exact ⟨rfl, rfl⟩
  | meets hr' hlen _ =>
    obtain ⟨us, lead, ws, cycle, hc⟩ := exists_circular_of_meeting hr' hlen
    exact absurd hr (hc.not_row hp)

/-- The listing of a circular spine. -/
lemma Listing.of_circular {e : Option Handle} (hl : Listing h v printed e)
    (hc : h.Circular us lead ws cycle v) : e = none ∧ (∃ u cells, h.Row u printed cells v) ∧
      us ++ ws <+: printed ∧ printed.length ≤ 2 * (lead.length + cycle.length) := by
  cases hl with
  | ends hr hp => exact absurd hr (hc.not_row hp)
  | @meets cells j hr hlen hfirst =>
    have hmeet : h.tailOf^[j + 1] v = h.tailOf^[j / 2] v := hlen ▸ hr.tailOf_iterate
    -- by the time of the meeting all pairs have been printed
    have hlo : lead.length + cycle.length ≤ j + 1 := by
      by_contra hlt
      have := hc.eq_of_iterate_eq (by omega) (by omega) hmeet
      omega
    have hhi : j + 2 ≤ 2 * (lead.length + cycle.length) := by
      have hpos := hc.length_pos
      obtain ⟨i, h1, hi, -, he⟩ := exists_meeting (p := lead.length) (by omega) hc.returns
      by_contra hlt
      refine hfirst (2 * i - 2) (by omega) ?_
      rw [show 2 * i - 2 + 1 = 2 * i - 1 by omega, he, show (2 * i - 2) / 2 = i - 1 by omega]
    refine ⟨rfl, ⟨_, cells, hr⟩, (hc.row.isPrefix hr ?_).1, ?_⟩
    · rw [List.length_append]
      omega
    · rw [← hr.length_eq]
      omega

/-! ## All objects are printed -/

lemma exists_mapM {α β : Type} {f : α → Except Halt β} {l : List α}
    (hf : ∀ a ∈ l, ∃ b, f a = .ok b) :
    ∃ bs, l.mapM f = .ok bs := by
  induction l with
  | nil => exact ⟨[], rfl⟩
  | cons a l ih =>
    obtain ⟨⟨b, hb⟩, hf⟩ := List.forall_mem_cons.mp hf
    obtain ⟨bs, hbs⟩ := ih hf
    refine ⟨b :: bs, ?_⟩
    rw [List.mapM_cons, hb, hbs]
    rfl

/-- If nothing that can be reached is free then every object is printed. -/
lemma exists_textAt (hl : ∀ u, h.Reachable [v] u → h.isLive u = true) (levels : Nat)
    (hu : h.Reachable [v] u) : ∃ text, textAt h levels u = .ok text := by
  induction levels generalizing u with
  | zero => exact ⟨_, rfl⟩
  | succ levels ih =>
    obtain ⟨d, hd⟩ := isLive_iff.mp (hl u hu)
    cases hp : h.pairAt u with
    | none =>
      rw [textAt, read_of_object? hd]
      obtain ⟨-, hfree⟩ := object?_eq_some.mp hd
      cases d with
      | pair a b =>
        rw [pairAt_eq_some.mpr hd] at hp
        cases hp
      | free _ _ => cases hfree
      | _ => exact ⟨_, rfl⟩
    | some parts =>
      obtain ⟨vs, e, hlist, htext⟩ := exists_listing_textAt hp levels
      have hvs : ∀ x ∈ vs, ∃ text, textAt h levels x = .ok text := fun x hx => by
        cases hlist with
        | ends hr _ | meets hr _ _ => exact ih ((hr.reachable hu).2.1 x hx)
      have hrest : ∃ ending, restText h (textAt h levels) e = .ok ending := by
        cases hlist with
        | meets _ _ _ => exact ⟨_, rfl⟩
        | @ends _ last hr _ =>
          obtain ⟨d, hd⟩ := isLive_iff.mp (hl last (hr.reachable hu).2.2)
          obtain ⟨text, hx⟩ := ih (hr.reachable hu).2.2
          simp only [restText, endText, read_of_object? hd, hx, bind, Except.bind, pure,
            Except.pure]
          cases d <;> exact ⟨_, rfl⟩
      obtain ⟨texts, hts⟩ := exists_mapM hvs
      obtain ⟨ending, he⟩ := hrest
      exact ⟨listText texts ending, by rw [htext, hts, he]; rfl⟩

end Printer

open Printer

/-- Printing comes to an end on every graph, and only circular lists are elided.

Let no cell be free that can be reached, from what the heap keeps or from `v`.  Then `v` has a
printed form.  On the way no spine is cut short by the bound on the steps: a larger one makes no
difference.  And a list is printed with any number of levels left, but for none, like this:

* If the spine has an end, then what is printed are all the elements, in order, each of them once,
  and then the end unless it is the empty list.
* If the spine is circular, then it is the elements along the spine, every one of them and no more
  than twice as many, and then dots. -/
theorem printing_elides_circular {h : Heap} {v : Handle}
    (hl : ∀ u, h.Reachable [v] u → h.isLive u = true) :
    (∃ text, h.print v = .ok text) ∧
    ∀ levels u head next, h.Reachable [v] u → h.object? u = some (.pair head next) →
      (∀ n, 2 * h.cells.size + 2 ≤ n → ∀ out,
        spineText h (textAt h levels) (2 * h.cells.size + 2) false u next out =
          spineText h (textAt h levels) n false u next out) ∧
      (∀ vs cells last, h.Row last vs cells u → h.pairAt last = none →
        ∃ texts ending, vs.mapM (textAt h levels) = .ok texts ∧
          endText h (textAt h levels) last = .ok ending ∧
          textAt h (levels + 1) u = .ok (listText texts ending)) ∧
      ∀ us lead ws cycle, h.Circular us lead ws cycle u →
        ∃ printed texts, (∃ w cells, h.Row w printed cells u) ∧ us ++ ws <+: printed ∧
          printed.length ≤ 2 * (lead.length + cycle.length) ∧
          printed.mapM (textAt h levels) = .ok texts ∧
          textAt h (levels + 1) u = .ok (listText texts " ...") := by
  refine ⟨exists_textAt hl _ (.of_extra List.mem_cons_self), fun levels u head next hu hp => ?_⟩
  have hp := pairAt_eq_some.mpr hp
  obtain ⟨printed, e, hlist, htext⟩ := exists_listing_textAt hp levels
  -- the whole is printed, so its parts are
  obtain ⟨text, hall⟩ := exists_textAt hl (levels + 1) hu
  obtain ⟨texts, ending, hts, he⟩ : ∃ texts ending, printed.mapM (textAt h levels) = .ok texts ∧
      restText h (textAt h levels) e = .ok ending := by
    rw [htext] at hall
    cases hts : printed.mapM (textAt h levels) with
    | error c => simp [hts, bind, Except.bind] at hall
    | ok texts =>
      cases he : restText h (textAt h levels) e with
      | error c => simp [hts, he, bind, Except.bind] at hall
      | ok ending => exact ⟨texts, ending, rfl, rfl⟩
  have hlisted : textAt h (levels + 1) u = .ok (listText texts ending) := by
    rw [htext, hts, he]
    rfl
  refine ⟨fun n hn out => spineText_eq hp hn out, fun vs cells last hr hlast => ?_,
    fun us lead ws cycle hc => ?_⟩
  · obtain ⟨rfl, rfl⟩ := hlist.of_row hr hlast
    exact ⟨texts, ending, hts, he, hlisted⟩
  · obtain ⟨rfl, hrow, hprefix, hle⟩ := hlist.of_circular hc
    obtain rfl : " ..." = ending := Except.ok.inj he
    exact ⟨printed, texts, hrow, hprefix, hle, hts, hlisted⟩

lemma closed_winding : winding.Closed where
  layout := by decide
  outside := by
    rintro ⟨i⟩ hi -
    match i, hi with
    | 0, _ | 1, _ | 2, _ | 3, _ | 4, _ | 5, _ | 6, _ | 7, _ => rfl
  child := by
    have hall : ∀ d ∈ winding.cells.toList, ∀ v ∈ d.children, winding.isLive v = true := by decide
    exact fun u d hd =>
      hall d (Array.mem_toList_iff.mpr (Array.mem_of_getElem? (object?_eq_some.mp hd).1))
  root := by decide
  base := rfl
  current := rfl

/-- So between three and six elements of a circular spine are printed, and then dots. -/
theorem printing_elides_circular_winding :
    (∀ u, winding.Reachable [⟨4⟩] u → winding.isLive u = true) ∧
    ∃ printed texts, [⟨4⟩, .trueObject, .falseObject] <+: printed ∧ printed.length ≤ 6 ∧
      printed.mapM (textAt winding 1000) = .ok texts ∧
      winding.print ⟨4⟩ = .ok (listText texts " ...") := by
  have hlive : ∀ u, winding.Reachable [⟨4⟩] u → winding.isLive u = true :=
    fun u => closed_winding.isLive_of_reachable (by decide)
  obtain ⟨-, hlists⟩ := printing_elides_circular hlive
  obtain ⟨-, -, hcircular⟩ := hlists 1000 ⟨4⟩ ⟨4⟩ ⟨5⟩ (.of_extra List.mem_cons_self) rfl
  obtain ⟨printed, texts, -, hprefix, hle, hts, htext⟩ := hcircular _ _ _ _ circular_winding
  exact ⟨hlive, printed, texts, hprefix, hle, hts, htext⟩

end ArenaScheme
