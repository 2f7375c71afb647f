/-
# Texts of one datum

A text that is the printed form of a datum is read into cells of its own, and there are as many of
them as the datum has.  If the evaluation of the datum comes to a value, so does the run of the
text, and the root stack is empty again.
-/
import ArenaScheme.Proofs.Printing.Roundtrip
import ArenaScheme.Proofs.Tails.Startup

namespace ArenaScheme

open Heap HeapM

variable {h k l : Heap} {n : Nat} {t : Tree} {v : Handle} {made F : List Handle}

namespace Reader

variable {pending : List Pending} {goal : Goal} {goal' : Parser.Goal} {frames : List Parser.Frame}
  {x : Reading} {ending : Ending} {lexemes : List Lexeme}

/-- What has been read is made of cells of its own, and nothing else has been made. -/
lemma exists_extends (hw : Waits k h.roots.size n goal pending goal' frames F) (he : h.Extends F k)
    (hn : k.roots.size = n) (hf : Fits h n lexemes)
    (hr : readFrom ending goal pending lexemes k = .ok (some x) l) :
    ∃ t made, Parser.run ending goal' frames lexemes = .ok (some ⟨t, x.stop, x.rest⟩) ∧
      Builds l t x.datum made ∧
      h.Extends made l ∧ l.roots = h.roots := by
  induction lexemes generalizing k n goal pending goal' frames F with
  | nil =>
    have hfinish := reads_finish ending hw he hn
    rw [show finish ending goal pending k = .ok (some x) l from hr] at hfinish
    obtain ⟨⟨t, ht, -⟩, -⟩ := hfinish
    unfold Parser.finish at ht
    split at ht <;> simp at ht
  | cons lexeme rest ih =>
    have ht := steps_take hw he hn hf
    rw [readFrom] at hr
    obtain ⟨q, m, hq, hr⟩ := bind_eq_ok.mp hr
    rw [hq] at ht
    obtain ⟨p, i, hp, hq, hf'⟩ := ht
    rw [Parser.run_cons, hp]
    cases hq with
    | done hb he' hn' =>
      obtain ⟨hx, rfl⟩ := Outcome.ok.inj hr
      obtain rfl := Option.some.inj hx
      exact ⟨_, _, rfl, hb, he', (Settled.intact ⟨⟨_, he'⟩, hn'⟩).roots⟩
    | more hw' he' hn' => exact ih hw' he' hn' hf' hr

end Reader

/-- The printed form of a datum is read, if there is room for the datum. -/
lemma exists_read (hw : h.WellFormed) (ht : t.Readable)
    (hcells : h.usedWith [] + t.cells ≤ h.capacity)
    (hroom : h.roots.size + t.depth + 3 ≤ h.rootSlots) :
    ∃ x k made, HeapM.read (Scan.ofString t.text 0) h = .ok (some x) k ∧
      x.rest = ⟨[], .endOfText t.size⟩ ∧
      Builds k t x.datum made ∧ h.Extends made k ∧ k.roots = h.roots := by
  have hnesting := Tree.nesting_scan ht
  have hlevels : h.roots.size + (Grammar.nesting (Scan.ofString t.text 0) + 2) ≤ h.rootSlots := by
    omega
  have hread := Reader.reads_read hw hlevels
  rw [Tree.parse_scan ht] at hread
  cases ho : HeapM.read (Scan.ofString t.text 0) h with
  | halt c =>
    rw [ho] at hread
    exact hread.elim
  | error e k =>
    rw [ho] at hread
    obtain ⟨he | ⟨-, hcap⟩, -⟩ := hread
    · cases he
    · exact absurd (hcap _ rfl) (Nat.not_lt.mpr hcells)
  | ok o k =>
    rw [ho] at hread
    cases o with
    | none => cases hread.1
    | some x =>
      have hfits : Reader.Fits h h.roots.size (Scan.ofString t.text 0).lexemes := by
        unfold Reader.Fits
        rw [Nat.sub_self]
        change h.roots.size + Grammar.nesting (Scan.ofString t.text 0) + 2 ≤ h.rootSlots
        omega
      obtain ⟨u, made, hrun, hb, he, hroots⟩ :=
        Reader.exists_extends (.datum .nil) (.refl hw) rfl hfits ho
      rw [Parser.run_eq_parse, Tree.parse_scan ht] at hrun
      obtain ⟨rfl, -, hrest⟩ := Grammar.Found.mk.inj (Option.some.inj (Except.ok.inj hrun))
      exact ⟨x, k, made, rfl, hrest.symm, hb, he, hroots⟩

/-- To hold the empty list takes no cell. -/
lemma Heap.usedWith_push_emptyList (h : Heap) :
    ({ h with roots := h.roots.push .emptyList } : Heap).usedWith [] ≤ h.usedWith [] := by
  refine usedWith_le_of_reachable rfl fun u _ hu => (reachable_of_push hu).mono fun w hw => ?_
  obtain rfl := List.mem_singleton.mp hw
  exact .sentinel (by decide)

namespace Interpreter

variable {ctx : Context} {budget : Nat} {P : Handle → Heap → Prop}

/-- A text of one datum is run by evaluating the datum, and the root stack gets no deeper in
between. -/
lemma run_peaks {d : Nat} (hw : h.WellFormed) (ht : t.Readable)
    (hcells : h.usedWith [] + t.cells ≤ h.capacity)
    (hroom : h.roots.size + t.depth + 4 ≤ h.rootSlots) (hd : h.roots.size < d)
    (heval : ∀ x k made, ({ h with roots := h.roots.push .emptyList } : Heap).Extends made k →
      Builds k t x made →
      k.roots = h.roots.push .emptyList →
      (Evaluator.eval ctx budget x k : Outcome Failure Handle).Peaks h.rootSlots d fun v l =>
        l.roots = k.roots ∧ (∃ d, l.object? v = some d ∧ d.type ≠ .error) ∧
        P v { l with roots := h.roots }) :
    (run ctx budget t.text h).Peaks h.rootSlots d P := by
  have hnil : h.isLive .emptyList = true := hw.isLive_sentinel (by decide)
  set h₁ : Heap := { h with roots := h.roots.push .emptyList } with hh₁
  have hsize : h₁.roots.size = h.roots.size + 1 := Array.size_push _
  have hused : h₁.usedWith [] ≤ h.usedWith [] := usedWith_push_emptyList h
  have hcells₁ : h₁.usedWith [] + t.cells ≤ h₁.capacity :=
    le_trans (Nat.add_le_add_right hused _) hcells
  have hroom₁ : h₁.roots.size + t.depth + 3 ≤ h₁.rootSlots := by
    have hslots : h₁.rootSlots = h.rootSlots := rfl
    omega
  obtain ⟨x, k, made, hread, hrest, hb, he, hroots⟩ := exists_read (hw.push hnil) ht hcells₁ hroom₁
  obtain ⟨lexeme, lexemes, hlexemes, -⟩ := Tree.exists_lexemes_eq_cons ht 0
  have hlength : (Scan.ofString t.text 0).lexemes.length + 1 = lexemes.length + 1 + 1 := by
    rw [Tree.scan_text ht, hlexemes, List.length_cons]
  rw [run, hlength, ← Nat.max_eq_right (Nat.succ_le_of_lt hd)]
  refine peaks_rooted rfl ?_
  rw [runData, ← Nat.max_zero d]
  refine peaks_bind_of_ok (show mapError (HeapM.read (Scan.ofString t.text 0)) (·.failure) h₁ = .ok
    (some x) k by
    rw [mapError, hread]) ?_
  dsimp only
  refine peaks_bind (heval x.datum k made he hb hroots) fun v l hl => ?_
  obtain ⟨hlroots, ⟨d, hd, htype⟩, hP⟩ := hl
  replace hlroots : l.roots = h.roots.push .emptyList := hlroots.trans hroots
  have hstored : l.roots.setIfInBounds h.roots.size v = h.roots.push v := by
    rw [hlroots, setIfInBounds_push]
  -- the value is put into the slot of the run, and then the text ends
  refine peaks_bind_of_ok (hasType_apply hd .error) ?_
  rw [beq_eq_false_iff_ne.mpr htype, if_neg (by simp)]
  refine peaks_bind_of_ok (store_apply (by rw [hlroots, Array.size_push]; omega) v) ?_
  rw [hrest, runData]
  refine peaks_of_ok (contents_apply (by rw [hstored, Array.getElem?_push_size]))
    ⟨by rw [hstored, Array.size_push], ?_⟩
  rw [hstored, Array.pop_push]
  exact hP

end Interpreter

end ArenaScheme
