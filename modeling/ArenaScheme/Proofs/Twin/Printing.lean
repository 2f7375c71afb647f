/-
# Printing in step

What is shown to the program prints the same in both heaps.  How far a printing goes along a spine
is bounded by the size of the heap, but a larger bound makes no difference, so both printings may be
given the same.
-/
import ArenaScheme.Printer
import ArenaScheme.Proofs.Twin.Lists

namespace ArenaScheme

namespace Twin

open Heap Printer

variable {W : Regime} {σ : Twin} {a b slow slow' current current' : Handle}
  {element element' : Handle → Except Halt String}

/-- The forms of what is shown. -/
def PrintsAs (σ : Twin) (element element' : Handle → Except Halt String) : Prop :=
  ∀ {a b : Handle}, σ.rel .shown a b → ∃ text, element a = .ok text ∧ element' b = .ok text

/-- What is no pair prints by itself. -/
lemma atomText_eq {d d' : Datum} (hf : Fits W σ .shown d d') (a b : Handle) :
    ∃ text, atomText a d = .ok text ∧ atomText b d' = .ok text := by
  cases hf with
  | atom hfree =>
    cases d with
    | free => simp [Datum.isFree, Datum.type] at hfree
    | _ => exact ⟨_, rfl, rfl⟩
  | pair | closure | frame => exact ⟨_, rfl, rfl⟩

lemma spineText_pair {h : Heap} {steps : Nat} {due : Bool} {head next : Handle} {out : String}
    (hp : h.pairAt current = some (head, next)) :
    spineText h element (steps + 1) due slow current out =
      if current = slow then .ok (out ++ " ...)")
      else (do
        let text ← element head
        let slow ← if due then h.cdr slow else pure slow
        spineText h element steps (!due) slow next (out ++ " " ++ text)) := by
  simp only [spineText, read_of_pairAt hp, bind, Except.bind]

/-- The end of a spine. -/
lemma spineText_end (hv : σ.Valid W) (hel : σ.PrintsAs element element')
    (hab : σ.rel .shown a b) (hp : σ.left.pairAt a = none) (steps : Nat) (due : Bool)
    (out : String) : ∃ text, spineText σ.left element (steps + 1) due slow a out = .ok text ∧
      spineText σ.right element' (steps + 1) due slow' b out = .ok text := by
  obtain ⟨d, d', hd, hd', hf⟩ := hv.data hab
  obtain ⟨text, h1, h2⟩ := hel hab
  rw [Heap.pairAt, hd] at hp
  cases hf with
  | atom =>
    cases d with
    | emptyList =>
      refine ⟨out ++ ")", ?_, ?_⟩
      · simp only [spineText, read_of_object? hd, bind, Except.bind]
      · simp only [spineText, read_of_object? hd', bind, Except.bind]
    | pair => simp [Datum.pair?] at hp
    | _ =>
      refine ⟨out ++ " . " ++ text ++ ")", ?_, ?_⟩
      · simp only [spineText, read_of_object? hd, h1, bind, Except.bind]
      · simp only [spineText, read_of_object? hd', h2, bind, Except.bind]
  | pair => simp [Datum.pair?] at hp
  | closure | frame =>
    refine ⟨out ++ " . " ++ text ++ ")", ?_, ?_⟩
    · simp only [spineText, read_of_object? hd, h1, bind, Except.bind]
    · simp only [spineText, read_of_object? hd', h2, bind, Except.bind]

/-- Spines print the same with one bound, as long as the slow cursor is behind. -/
lemma spineText_eq_of_shown (hv : σ.Valid W) (hel : σ.PrintsAs element element') (steps : Nat)
    (due : Bool) (hslow : σ.rel .shown slow slow') (hcur : σ.rel .shown current current')
    (hpath : Relation.ReflTransGen (TailOf σ.left) slow current) (out : String) :
    ∃ text, spineText σ.left element steps due slow current out = .ok text ∧
      spineText σ.right element' steps due slow' current' out = .ok text := by
  induction steps generalizing due slow slow' current current' out with
  | zero => exact ⟨_, rfl, rfl⟩
  | succ steps ih =>
    cases hp : σ.left.pairAt current with
    | none => exact spineText_end hv hel hcur hp steps due out
    | some xc =>
      obtain ⟨x, c⟩ := xc
      obtain ⟨x', c', hp', -⟩ := hv.pairAt_right hcur hp
      obtain ⟨hx, hc⟩ := hv.shown_pair hcur hp hp'
      rw [spineText_pair hp, spineText_pair hp']
      by_cases he : current = slow
      · rw [if_pos he, if_pos ((hv.eq_iff hcur hslow).mp he)]
        exact ⟨_, rfl, rfl⟩
      · rw [if_neg he, if_neg (mt (hv.eq_iff hcur hslow).mpr he)]
        obtain ⟨text, h1, h2⟩ := hel hx
        simp only [h1, h2, bind, Except.bind]
        have hgo : Relation.TransGen (TailOf σ.left) slow c := .tail' hpath ⟨x, hp⟩
        cases due with
        | false => exact ih true hslow hc hgo.to_reflTransGen _
        | true =>
          -- the slow cursor is behind the other, so it is at a pair
          obtain ⟨t, ⟨y, hy⟩, ht⟩ := Relation.TransGen.head'_iff.mp hgo
          obtain ⟨y', t', hy', -⟩ := hv.pairAt_right hslow hy
          have htt := (hv.shown_pair hslow hy hy').2
          simp only [if_true, cdr_of_pairAt hy, cdr_of_pairAt hy']
          exact ih false htt hc ht _

/-- What is shown prints the same. -/
lemma printsAs_textAt (hv : σ.Valid W) (levels : Nat) :
    σ.PrintsAs (textAt σ.left levels) (textAt σ.right levels) := by
  induction levels with
  | zero => exact fun _ => ⟨_, rfl, rfl⟩
  | succ levels ih =>
    intro a b hab
    cases hp : σ.left.pairAt a with
    | none =>
      obtain ⟨d, d', hd, hd', hf⟩ := hv.data hab
      obtain ⟨text, h1, h2⟩ := atomText_eq hf a b
      have hp' := hv.pairAt_right_none hab hp
      rw [Heap.pairAt, hd] at hp
      rw [Heap.pairAt, hd'] at hp'
      refine ⟨text, ?_, ?_⟩
      · rw [textAt, read_of_object? hd]
        cases d <;> first | exact h1 | simp [Datum.pair?] at hp
      · rw [textAt, read_of_object? hd']
        cases d' <;> first | exact h2 | simp [Datum.pair?] at hp'
    | some xc =>
      obtain ⟨x, c⟩ := xc
      obtain ⟨x', c', hp', -⟩ := hv.pairAt_right hab hp
      obtain ⟨hx, hc⟩ := hv.shown_pair hab hp hp'
      obtain ⟨head, h1, h2⟩ := ih hx
      -- a common bound on the steps
      set steps := 2 * σ.left.cells.size + 2 + (2 * σ.right.cells.size + 2)
      obtain ⟨text, h3, h4⟩ := spineText_eq_of_shown hv ih steps false hab hc
        (.single ⟨x, hp⟩) ("(" ++ head)
      refine ⟨text, ?_, ?_⟩
      · simp only [textAt, read_of_pairAt hp, h1, bind, Except.bind]
        rw [spineText_eq hp (Nat.le_add_right _ _), h3]
      · simp only [textAt, read_of_pairAt hp', h2, bind, Except.bind]
        rw [spineText_eq hp' (Nat.le_add_left _ _), h4]

lemma print_eq (hv : σ.Valid W) (hab : σ.rel .shown a b) :
    ∃ text, σ.left.print a = .ok text ∧ σ.right.print b = .ok text :=
  printsAs_textAt hv Printer.levels hab

end Twin

end ArenaScheme
