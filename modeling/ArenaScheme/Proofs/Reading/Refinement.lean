/-
# Reading on any heap

On a heap of any occupancy, whatever is collected on the way, the reader does what the grammar says.
It returns an object that unfolds into the tree of the grammar, with the position after it and the
tokens that follow; or it reports the fault of the grammar, or the end of the text; or there is no
cell left, and then the arena is too small for what was in use and for the datum.  It never halts if
there are as many root slots as lists are nested, and two more.
-/
import ArenaScheme.Proofs.Reading.Handover

namespace ArenaScheme

/-- What reading leaves as it was: the root slots, the two frames that the heap names, and all that
could be reached from these. -/
structure Heap.Intact (h k : Heap) : Prop where
  wellFormed : k.WellFormed
  roots : k.roots = h.roots
  baseEnv : k.baseEnv = h.baseEnv
  currentEnv : k.currentEnv = h.currentEnv
  cells : ∀ v, h.Reachable [] v → k.datum? v = h.datum? v
  symbols : ∀ name v, h.findSymbol name = some v → k.findSymbol name = some v

namespace Reader

open Heap HeapM

/-- All slots have been released. -/
structure Settled (h k : Heap) : Prop where
  made : ∃ made, h.Extends made k
  depth : k.roots.size = h.roots.size

lemma Settled.intact {h k : Heap} (hs : Settled h k) : h.Intact k := by
  obtain ⟨⟨made, he⟩, hd⟩ := hs
  refine ⟨he.wellFormed, Array.ext_getElem? fun i => ?_, he.baseEnv, he.currentEnv, fun v hv => ?_,
    he.symbols⟩
  · rcases Nat.lt_or_ge i h.roots.size with hi | hi
    · exact he.below i hi
    · rw [Array.getElem?_eq_none hi, Array.getElem?_eq_none (hd ▸ hi)]
  · obtain ⟨d, hv'⟩ := isLive_iff.mp (he.origin.isLive_of_reachable (by simp) hv)
    have hk := (he.kept v hv).trans hv'
    exact (object?_eq_some.mp hk).1.trans (object?_eq_some.mp hv').1.symm

/-- The slots are enough for the lists that are still to be opened, and for a form. -/
def Fits (h : Heap) (n : Nat) (lexemes : List Lexeme) : Prop :=
  h.roots.size + Grammar.nestingFrom (n - h.roots.size) lexemes + 2 ≤ h.rootSlots

/-- One token comes to what the automaton comes to, or there is no cell left for it. -/
def Steps (h : Heap) (rest : List Lexeme) (r : Except ReadFailure Parser.Progress) :
    Outcome ReadFailure Progress → Prop
  | .ok q k => ∃ p n, r = .ok p ∧ Reaches h k n p q ∧ Fits h n rest
  | .error e k => Settled h k ∧ (r = .error e ∨
      e.failure = .outOfMemory ∧ ∃ p, r = .ok p ∧ h.capacity < h.used + p.weight)
  | .halt _ => False

variable {ε α : Type} {h k l : Heap} {n : Nat} {goal : Goal} {pending : List Pending}
  {goal' : Parser.Goal} {frames : List Parser.Frame} {t : Tree} {v : Handle}
  {made F G : List Handle} {lexeme : Lexeme} {rest : List Lexeme}

/-! ## Slots -/

lemma le_nestingFrom (depth : Nat) (lexemes : List Lexeme) :
    depth ≤ Grammar.nestingFrom depth lexemes := by
  induction lexemes generalizing depth with
  | nil => exact Nat.le_refl _
  | cons lexeme rest ih =>
    rw [Grammar.nestingFrom]
    split
    · exact Nat.le_trans (Nat.le_succ _) (ih _)
    · exact Nat.le_max_left ..
    · exact ih _

namespace Fits

lemma room {lexemes : List Lexeme} (hf : Fits h n lexemes) : n + 2 ≤ h.rootSlots := by
  have := le_nestingFrom (n - h.roots.size) lexemes
  unfold Fits at hf
  omega

lemma opening (hf : Fits h n (lexeme :: rest)) (ht : lexeme.token = .opening)
    (hn : h.roots.size ≤ n) : Fits h (n + 1) rest := by
  unfold Fits at hf ⊢
  simp only [Grammar.nestingFrom, ht] at hf
  rwa [Nat.sub_add_comm hn]

lemma closing (hf : Fits h (n + 1) (lexeme :: rest)) (ht : lexeme.token = .closing)
    (hn : h.roots.size ≤ n) : Fits h n rest := by
  unfold Fits at hf ⊢
  simp only [Grammar.nestingFrom, ht, show n + 1 - h.roots.size - 1 = n - h.roots.size by omega]
    at hf
  omega

lemma next (hf : Fits h n (lexeme :: rest)) (ho : lexeme.token ≠ .opening)
    (hc : lexeme.token ≠ .closing) : Fits h n rest := by
  unfold Fits at hf ⊢
  rw [Grammar.nestingFrom] at hf
  split at hf
  · exact absurd ‹_› ho
  · exact absurd ‹_› hc
  · exact hf

end Fits

/-! ## Giving up -/

lemma Stack.abandoned (hs : Stack k h.roots.size n pending frames F) (he : h.Extends made l)
    (hn : l.roots.size = n) :
    ∃ l', (abandon pending : HeapM ε Unit) l = .ok () l' ∧ Settled h l' := by
  induction pending generalizing n frames F l with
  | nil =>
    cases hs
    exact ⟨l, rfl, ⟨_, he⟩, hn⟩
  | cons p pending ih =>
    cases hs with
    | mark _ hs => exact ih hs he hn
    | opened _ hs | items _ _ hs | tail _ _ hs =>
      obtain ⟨v, -, hr⟩ := release_apply (ε := ε) hn
      have hle := hs.le
      obtain ⟨l', hr', hl'⟩ := ih hs (he.pop (by omega)) (by simp [hn])
      exact ⟨l', (bind_of_ok hr).trans hr', hl'⟩

lemma Waits.refused (hw : Waits k h.roots.size n goal pending goal' frames F)
    (he : h.Extends made k) (hn : k.roots.size = n) (fault : ReadFault) (position : Nat) :
    ∃ l, (refuse goal pending fault position : HeapM ReadFailure α) k =
      .error (.ofFault fault position) l ∧ Settled h l := by
  cases hw with
  | datum hs =>
    obtain ⟨l, hr, hl⟩ := hs.abandoned (ε := ReadFailure) he hn
    exact ⟨l, bind_of_ok hr, hl⟩
  | closing _ _ hs =>
    obtain ⟨v, -, hr⟩ := release_apply (ε := ReadFailure) hn
    have hle := hs.le
    obtain ⟨l, hr', hl⟩ := hs.abandoned (ε := ReadFailure) (he.pop (by omega)) (by simp [hn])
    exact ⟨l, bind_of_ok ((bind_of_ok hr).trans hr'), hl⟩

lemma steps_building {x : EvalM Progress} {p : Parser.Progress}
    (hs : Stack k h.roots.size n pending frames F) (hx : HandsOn h n p (x l))
    (hf : Fits h n rest) (position : Nat) :
    Steps h rest (.ok p) (building pending position x l) := by
  unfold building
  revert hx
  cases x l with
  | ok q l => exact fun hx => ⟨p, n, rfl, hx, hf⟩
  | error e l =>
    rintro ⟨⟨made, he⟩, hn, hcap⟩
    obtain ⟨l', hr, hl⟩ := hs.abandoned (ε := ReadFailure) he hn
    dsimp only
    rw [bind_of_ok hr]
    exact ⟨hl, .inr ⟨rfl, p, rfl, hcap⟩⟩
  | halt c => exact False.elim

/-! ## One token -/

/-- The end of a list completes the datum that it is. -/
lemma steps_closeList (hv : k.roots[n]? = some v) (hb : Builds k t v G)
    (hs : Stack k h.roots.size n pending frames F) (he : h.Extends (G ++ F) k)
    (hn : k.roots.size = n + 1) (hf : Fits h n rest) (position : Nat) :
    Steps h rest (.ok (Parser.complete t frames)) (closeList ⟨n⟩ pending position k) := by
  obtain ⟨w, hw, hr⟩ := release_apply (ε := ReadFailure) hn
  obtain rfl : v = w := Option.some.inj (hv.symm.trans hw)
  have hle := hs.le
  have hs' : Stack { k with roots := k.roots.pop } h.roots.size n pending frames F := by
    refine hs.congr (.setRoots F k _) fun i hi => ?_
    rw [Array.getElem?_pop, if_pos (by omega)]
  have hb' : Builds { k with roots := k.roots.pop } t v G := hb.congr (.setRoots G k _)
  rw [closeList, bind_of_ok hr]
  exact steps_building hs (complete_spec hb' hs' (he.pop (by omega)) (by simp [hn]) hf.room) hf
    position

/-- The object of a literal takes a cell or none. -/
lemma makeLiteral_spec (literal : Literal) (hs : Stack k h.roots.size n pending frames F)
    (he : h.Extends F k) :
    (∃ v k' G, makeLiteral literal k = .ok v k' ∧ Builds k' (.leaf literal) v G ∧
      h.Extends (G ++ F) k' ∧ k'.roots = k.roots ∧ Agree F k k') ∨
    ∃ e k', makeLiteral literal k = .error e k' ∧ h.Extends F k' ∧ k'.roots = k.roots ∧
      h.capacity < h.used + ((Tree.leaf literal).cells + F.length) := by
  have hmade : ∀ d, literal.datum? = some d → makeLiteral literal = HeapM.alloc d →
      (∃ v k' G, makeLiteral literal k = .ok v k' ∧ Builds k' (.leaf literal) v G ∧
        h.Extends (G ++ F) k' ∧ k'.roots = k.roots ∧ Agree F k k') ∨
      ∃ e k', makeLiteral literal k = .error e k' ∧ h.Extends F k' ∧ k'.roots = k.roots ∧
        h.capacity < h.used + ((Tree.leaf literal).cells + F.length) := by
    intro d hd hm
    have hc := Literal.no_children hd
    rw [hm]
    rcases he.alloc (Literal.not_free hd) (by simp [hc]) (by simp [hc]) hs.reachable with
      ⟨v, k', hrun, he', hv, hroots, ha⟩ | ⟨k', hrun, he', hroots, -, hcap⟩
    · exact .inl ⟨v, k', [v], hrun, .made hd hv, he', hroots, ha⟩
    · refine .inr ⟨_, k', hrun, he', hroots, ?_⟩
      simp only [Tree.cells, hd, Option.isSome_some, if_true]
      omega
  cases literal with
  | bool b => exact .inl ⟨_, k, [], rfl, .shared rfl rfl, he, rfl, .refl F k⟩
  | symbol name =>
    obtain ⟨he', hroots, ha, hfind⟩ := he.intern name
    exact .inl ⟨_, _, [], rfl, .shared rfl hfind, he', hroots, ha⟩
  | int n => exact hmade _ rfl rfl
  | real x => exact hmade _ rfl rfl
  | char byte => exact hmade _ rfl rfl
  | str text => exact hmade _ rfl rfl

/-- A literal is a datum. -/
lemma steps_literal (literal : Literal) (hs : Stack k h.roots.size n pending frames F)
    (he : h.Extends F k) (hn : k.roots.size = n) (hf : Fits h n rest) (position : Nat) :
    Steps h rest (.ok (Parser.complete (.leaf literal) frames))
      (building pending position (do complete (← makeLiteral literal) pending) k) := by
  refine steps_building hs ?_ hf position
  rcases makeLiteral_spec literal hs he with
    ⟨v, k', G, hrun, hb, he', hroots, ha⟩ | ⟨e, k', hrun, he', hroots, hcap⟩
  · rw [bind_of_ok hrun]
    exact complete_spec hb (hs.congr ha fun i _ => by rw [hroots]) he' (hroots ▸ hn) hf.room
  · rw [bind_of_error hrun]
    refine ⟨⟨F, he'⟩, hroots ▸ hn, ?_⟩
    have := Parser.weight_complete (.leaf literal) frames
    rw [hs.length] at hcap
    omega

/-- A token where a datum or the end of a list may come. -/
lemma steps_advance (hs : Stack k h.roots.size n pending frames F) (he : h.Extends F k)
    (hn : k.roots.size = n) (hf : Fits h n (lexeme :: rest)) :
    Steps h rest (Parser.advance frames lexeme) (advance pending lexeme k) := by
  have hrefuse : ∀ (fault : ReadFault), Steps h rest (.error (.ofFault fault lexeme.start))
      (refuse .datum pending fault lexeme.start k) := by
    intro fault
    obtain ⟨l, hr, hl⟩ := (Waits.datum hs).refused (α := Progress) he hn fault lexeme.start
    rw [hr]
    exact ⟨hl, .inl rfl⟩
  have hroom := hf.room
  cases ht : lexeme.token with
  | opening =>
    have hlt : k.roots.size < k.rootSlots := by
      rw [he.rootSlots]
      omega
    have hk : k.isLive .emptyList = true := he.wellFormed.isLive_sentinel (by decide)
    simp only [advance, Parser.advance, ht]
    rw [bind_of_ok (acquire_apply hlt .emptyList), hn]
    refine ⟨_, _, rfl, .more (.datum (.opened ?_ (hs.congr (.setRoots F k _) fun i hi => ?_)))
      (he.push (.inr (not_collectible_sentinel h (by decide))) hk) (by simp [hn]),
      hf.opening ht hs.le⟩
    · rw [← hn]
      exact Array.getElem?_push_size
    · rw [Array.getElem?_push, if_neg (by omega)]
  | closing =>
    simp only [advance, Parser.advance, ht]
    cases hs with
    | opened hv hs =>
      exact steps_closeList hv .emptyList hs he hn (hf.closing ht hs.le) _
    | items hv hg hs =>
      have hb := hg.builds .emptyList
      rw [List.append_nil] at hb
      exact steps_closeList hv hb hs he hn (hf.closing ht hs.le) _
    | nil | tail | mark => exact hrefuse _
  | mark q =>
    obtain ⟨he', hroots, ha, hq⟩ := he.intern q.name
    have hs' : Stack (k.intern q.name).2 h.roots.size n pending frames F :=
      hs.congr ha fun i _ => by rw [hroots]
    simp only [advance, Parser.advance, ht]
    exact ⟨_, n, rfl, .more (.datum (.mark hq hs')) he' (hroots.symm ▸ hn),
      hf.next (by simp [ht]) (by simp [ht])⟩
  | literal literal =>
    have hf' : Fits h n rest := hf.next (by simp [ht]) (by simp [ht])
    have hlit := steps_literal literal hs he hn hf' lexeme.stop
    simp only [advance, Parser.advance, ht]
    cases hd : isDot literal with
    | false => exact hlit
    | true =>
      -- a dot is no literal if it stands between the elements of a list
      cases hs with
      | opened => exact hrefuse _
      | items hv hg hs =>
        cases hg with
        | last ho hx =>
          exact ⟨_, _, rfl, .more (.datum (.tail hv (.last ho hx) hs)) he hn, hf'⟩
        | cons ho hx hg =>
          exact ⟨_, _, rfl, .more (.datum (.tail hv (.cons ho hx hg) hs)) he hn, hf'⟩
      | nil | tail | mark => exact hlit

/-- A token where a certain goal has to be met. -/
lemma steps_take (hw : Waits k h.roots.size n goal pending goal' frames F) (he : h.Extends F k)
    (hn : k.roots.size = n) (hf : Fits h n (lexeme :: rest)) :
    Steps h rest (Parser.take goal' frames lexeme) (take goal pending lexeme k) := by
  have hrefuse : Steps h rest (.error (.ofFault .closingExpected (lexeme.start + 1)))
      (refuse goal pending .closingExpected (lexeme.start + 1) k) := by
    obtain ⟨l, hr, hl⟩ := hw.refused (α := Progress) he hn .closingExpected (lexeme.start + 1)
    rw [hr]
    exact ⟨hl, .inl rfl⟩
  cases hw with
  | datum hs => exact steps_advance hs he hn hf
  | closing hv hb hs =>
    cases ht : lexeme.token with
    | closing =>
      simp only [take, Parser.take, ht]
      exact steps_closeList hv hb hs he hn (hf.closing ht hs.le) _
    | _ =>
      simp only [take, Parser.take, ht]
      exact hrefuse

/-! ## A whole text -/

/-- Reading comes to what the grammar comes to, or there is no cell left for it. -/
def Reads (h : Heap) (r : Except ReadFailure (Option Grammar.Found)) :
    Outcome ReadFailure (Option Reading) → Prop
  | .ok none k => r = .ok none ∧ h.Intact k
  | .ok (some x) k => (∃ t, r = .ok (some ⟨t, x.stop, x.rest⟩) ∧ k.Unfolds t x.datum) ∧ h.Intact k
  | .error e k => (r = .error e ∨ e.failure = .outOfMemory ∧
      ∀ f, r = .ok (some f) → h.capacity < h.used + f.tree.cells) ∧ h.Intact k
  | .halt _ => False

/-- A datum for which there are cells is read. -/
lemma Reads.success {f : Grammar.Found} {o : Outcome ReadFailure (Option Reading)}
    (hr : Reads h (.ok (some f)) o) (hcells : h.used + f.tree.cells ≤ h.capacity) :
    ∃ x k, o = .ok (some x) k ∧ k.Unfolds f.tree x.datum ∧ x.stop = f.stop ∧ x.rest = f.rest ∧
      h.Intact k := by
  cases o with
  | ok r k =>
    cases r with
    | none => cases hr.1
    | some x =>
      obtain ⟨⟨t, ht, hu⟩, hi⟩ := hr
      cases ht
      exact ⟨x, k, rfl, hu, rfl, rfl, hi⟩
  | error e k =>
    obtain ⟨he | ⟨-, hlt⟩, -⟩ := hr
    · cases he
    · exact absurd (hlt f rfl) (Nat.not_lt.mpr hcells)
  | halt c => exact hr.elim

lemma reads_finish (ending : Ending) (hw : Waits k h.roots.size n goal pending goal' frames F)
    (he : h.Extends F k) (hn : k.roots.size = n) :
    Reads h (Parser.finish ending goal' frames) (finish ending goal pending k) := by
  have hrefuse : ∀ fault position, Reads h (.error (.ofFault fault position))
      (refuse goal pending fault position k) := by
    intro fault position
    obtain ⟨l, hr, hl⟩ := hw.refused (α := Option Reading) he hn fault position
    rw [hr]
    exact ⟨.inl rfl, hl.intact⟩
  cases hw with
  | closing => cases ending <;> exact hrefuse _ _
  | datum hs =>
    cases hs with
    | nil =>
      cases ending with
      | endOfText => exact ⟨rfl, Settled.intact ⟨⟨_, he⟩, hn⟩⟩
      | fault => exact hrefuse _ _
    | opened | items | tail | mark => cases ending <;> exact hrefuse _ _

/-- Reading on with something unfinished. -/
lemma reads_readFrom (ending : Ending) (lexemes : List Lexeme)
    (hw : Waits k h.roots.size n goal pending goal' frames F) (he : h.Extends F k)
    (hn : k.roots.size = n) (hf : Fits h n lexemes) :
    Reads h (Parser.run ending goal' frames lexemes) (readFrom ending goal pending lexemes k) := by
  induction lexemes generalizing k n goal pending goal' frames F with
  | nil => exact reads_finish ending hw he hn
  | cons lexeme rest ih =>
    have ht := steps_take hw he hn hf
    rw [readFrom, bind_apply, Parser.run_cons]
    revert ht
    cases take goal pending lexeme k with
    | ok q l =>
      rintro ⟨p, m, hp, hr, hf'⟩
      rw [hp]
      cases hr with
      | done hb he' hn' => exact ⟨⟨_, rfl, hb.unfolds⟩, Settled.intact ⟨⟨_, he'⟩, hn'⟩⟩
      | more hw' he' hn' => exact ih hw' he' hn' hf'
    | error e l =>
      rintro ⟨hs, hp | ⟨hm, p, hp, hcap⟩⟩
      · rw [hp]
        exact ⟨.inl rfl, hs.intact⟩
      · rw [hp]
        exact ⟨.inr ⟨hm, fun f hf => Nat.lt_of_lt_of_le hcap
          (Nat.add_le_add_left (Parser.weight_resume hf) _)⟩, hs.intact⟩
    | halt c => exact False.elim

/-- Reading a scan. -/
lemma reads_read (hw : h.WellFormed) {scan : Scan}
    (hroom : h.roots.size + (Grammar.nesting scan + 2) ≤ h.rootSlots) :
    Reads h (Grammar.parse scan) (HeapM.read scan h) := by
  have hf : Fits h h.roots.size scan.lexemes := by
    unfold Fits
    rwa [Nat.sub_self, Nat.add_assoc]
  rw [HeapM.read, ← Parser.run_eq_parse]
  exact reads_readFrom _ _ (.datum .nil) (.refl hw) rfl hf

/-- Reading a text from any position, on a well-formed heap of any occupancy, comes to what the
grammar makes of the text; or there is no cell left, and that only if the arena is too small for the
datum.  In all cases the root stack and all that could be reached are as they were. -/
theorem read_refines_grammar (hw : h.WellFormed) (text : String) (pos : Nat)
    (hroom : h.roots.size + (Grammar.nesting (Scan.ofString text pos) + 2) ≤ h.rootSlots) :
    Reads h (Grammar.parse (Scan.ofString text pos)) (HeapM.read (Scan.ofString text pos) h) :=
  reads_read hw hroom

/-- The arena is full of pairs that nothing refers to, and has four root slots. -/
def littered : Heap where
  cells := (sentinels ++ List.replicate 5 (Datum.pair .emptyList .emptyList) ++ [rootFrame]).toArray
  capacity := 5
  free := none
  freeCount := 0
  collections := 0
  roots := #[]
  rootSlots := 4
  symbols := ∅
  baseEnv := ⟨9⟩
  currentEnv := ⟨9⟩
  audited := true

lemma wellFormed_littered : littered.WellFormed where
  toClosed := by decide
  free := ⟨[], .of_list rfl .nil (by decide) rfl⟩
  table := by simp [littered]

lemma used_littered : littered.used = 0 := by
  have hnone : {i | littered.Collectible i ∧ littered.Reachable [] ⟨i⟩} = ∅ :=
    Set.eq_empty_iff_forall_notMem.mpr fun _ hi =>
      Marking.not_collectible_of_reachable (by decide) (by decide) hi.2 hi.1
  rw [used, hnone, Set.ncard_empty]

/-- The list `(1 (2))`. -/
def nested : Tree :=
  .list [.leaf (.int 1), .list [.leaf (.int 2)] .emptyList] .emptyList

/-- A list in a list is read into these cells, all of which it takes. -/
theorem read_refines_grammar_littered :
    littered.WellFormed ∧
      littered.roots.size + (Grammar.nesting (Scan.ofString " (1 (2)))" 1) + 2) ≤
        littered.rootSlots ∧
      Reads littered (.ok (some ⟨nested, 8, ⟨[⟨.closing, 8, 9⟩], .endOfText 9⟩⟩))
        (HeapM.read (Scan.ofString " (1 (2)))" 1) littered) ∧
      ∃ x k, HeapM.read (Scan.ofString " (1 (2)))" 1) littered = .ok (some x) k ∧
        k.Unfolds nested x.datum ∧ x.stop = 8 := by
  have hscan : Scan.ofString " (1 (2)))" 1 =
      ⟨[⟨.opening, 1, 2⟩, ⟨.literal (.int 1), 2, 3⟩, ⟨.opening, 4, 5⟩, ⟨.literal (.int 2), 5, 6⟩,
        ⟨.closing, 6, 7⟩, ⟨.closing, 7, 8⟩, ⟨.closing, 8, 9⟩], .endOfText 9⟩ := by decide +kernel
  have hroom : littered.roots.size + (Grammar.nesting (Scan.ofString " (1 (2)))" 1) + 2) ≤
      littered.rootSlots := by
    rw [hscan]
    decide
  have hparse : Grammar.parse (Scan.ofString " (1 (2)))" 1) =
      .ok (some ⟨nested, 8, ⟨[⟨.closing, 8, 9⟩], .endOfText 9⟩⟩) := by
    rw [← Parser.run_eq_parse, hscan]
    rfl
  have hread := read_refines_grammar wellFormed_littered " (1 (2)))" 1 hroom
  rw [hparse] at hread
  obtain ⟨x, k, hx, hu, hstop, -⟩ := hread.success (by rw [used_littered]; decide)
  exact ⟨wellFormed_littered, hroom, hread, x, k, hx, hu, hstop⟩

end Reader

end ArenaScheme
