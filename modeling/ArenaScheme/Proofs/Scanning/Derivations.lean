/-
# Derivations of data

Which tree some tokens stand for depends neither on where they stand in a text nor on what comes
after them.  The grammar is stated once more, as derivations of trees from sequences of tokens.
What the grammar finds at the beginning of a scan is derived from the tokens in front of the rest,
and whatever is derived from some tokens is found wherever they stand.
-/
import ArenaScheme.Proofs.Printing.Roundtrip

namespace ArenaScheme

open ArenaScheme.Tree

/-- The position after some tokens, if they begin at `pos`. -/
def stopAfter (pos : Nat) (lexemes : List Lexeme) : Nat := lexemes.foldl (fun _ l => l.stop) pos

@[simp] lemma stopAfter_nil (pos : Nat) : stopAfter pos [] = pos := rfl

@[simp] lemma stopAfter_cons (pos : Nat) (l : Lexeme) (ls : List Lexeme) :
    stopAfter pos (l :: ls) = stopAfter l.stop ls := rfl

@[simp] lemma stopAfter_append (pos : Nat) (ls ms : List Lexeme) :
    stopAfter pos (ls ++ ms) = stopAfter (stopAfter pos ls) ms := List.foldl_append

lemma Token.isDot_iff {t : Token} : t.isDot = true ↔ t = .literal (.symbol ".") := by
  cases t with
  | literal l => cases l <;> simp [Token.isDot, Reader.isDot]
  | _ => simp [Token.isDot]

namespace Grammar

/-- What the grammar looks for. -/
inductive Part
  | datum
  /-- The rest of a list. -/
  | items (nonempty : Bool)

/-- Some tokens stand for a tree. -/
inductive Derives : Part → List Token → Tree → Prop
  | literal (l : Literal) : Derives .datum [.literal l] (.leaf l)
  | mark (q : Quotation) {ts : List Token} {t : Tree} (ht : Derives .datum ts t) :
      Derives .datum (.mark q :: ts) (q.form t)
  | list {ts : List Token} {t : Tree} (ht : Derives (.items false) ts t) :
      Derives .datum (.opening :: ts) t
  | closing (nonempty : Bool) : Derives (.items nonempty) [.closing] .emptyList
  | dot {ts : List Token} {t : Tree} (ht : Derives .datum ts t) :
      Derives (.items true) (.literal (.symbol ".") :: (ts ++ [.closing])) t
  /-- A dot by itself is no element. -/
  | element {nonempty : Bool} {ts us : List Token} {a b : Tree} (hd : ts ≠ [.literal (.symbol ".")])
      (ha : Derives .datum ts a) (hb : Derives (.items true) us b) :
      Derives (.items nonempty) (ts ++ us) (.pair a b)

/-- What the grammar makes of some tokens. -/
def Part.parse (ending : Ending) :
    Part → (lexemes : List Lexeme) → Except ReadFailure (Parsed lexemes)
  | .datum => Grammar.datum ending
  | .items nonempty => Grammar.items ending nonempty

/-- What has been found is derived from the tokens in front of what is left. -/
def Covers (part : Part) {lexemes : List Lexeme} (p : Parsed lexemes) : Prop :=
  ∃ front, lexemes = front ++ p.rest ∧ (∀ pos, p.stop = stopAfter pos front) ∧
    Derives part (front.map Lexeme.token) p.tree

variable {ending : Ending} {part : Part} {lexeme : Lexeme} {rest lexemes : List Lexeme}
  {ts : List Token} {t : Tree} {nonempty : Bool}

/-! ## What is found is derived -/

lemma exists_of_bind {ε α β : Type} {x : Except ε α} {f : α → Except ε β} {b : β}
    (h : (x >>= f) = .ok b) : ∃ a, x = .ok a ∧ f a = .ok b := by
  cases x with
  | error e => cases h
  | ok a => exact ⟨a, rfl, h⟩

lemma close_eq_ok {q : Parsed lexemes} (hq : close ending t lexemes = .ok q) :
    ∃ last, lexemes = last :: q.rest ∧ q.stop = last.stop ∧ last.token = .closing ∧ q.tree = t := by
  cases lexemes with
  | nil => cases hq
  | cons last later =>
    rw [close] at hq
    split at hq
    · next hc =>
      cases hq
      exact ⟨last, rfl, rfl, hc, rfl⟩
    · cases hq

/-- A datum, if all that follows its first token is known. -/
lemma covers_datum (hr : ∀ part (p : Parsed rest), part.parse ending rest = .ok p → Covers part p)
    {p : Parsed (lexeme :: rest)} (hp : datum ending (lexeme :: rest) = .ok p) :
    Covers .datum p := by
  rw [datum] at hp
  cases ht : lexeme.token with
  | opening =>
    rw [ht] at hp
    obtain ⟨q, hq, hp⟩ := exists_of_bind hp
    cases hp
    obtain ⟨front, h₁, h₂, h₃⟩ := hr (.items false) q hq
    refine ⟨lexeme :: front, congrArg _ h₁, fun _ => h₂ _, ?_⟩
    rw [List.map_cons, ht]
    exact .list h₃
  | closing =>
    rw [ht] at hp
    cases hp
  | mark q =>
    rw [ht] at hp
    obtain ⟨q', hq, hp⟩ := exists_of_bind hp
    cases hp
    obtain ⟨front, h₁, h₂, h₃⟩ := hr .datum q' hq
    refine ⟨lexeme :: front, congrArg _ h₁, fun _ => h₂ _, ?_⟩
    rw [List.map_cons, ht]
    exact .mark q h₃
  | literal l =>
    rw [ht] at hp
    cases hp
    refine ⟨[lexeme], rfl, fun _ => rfl, ?_⟩
    rw [List.map_cons, ht]
    exact .literal l

/-- The rest of a list, if all that is shorter is known. -/
lemma covers_items (hs : ∀ later : List Lexeme, later.length ≤ rest.length →
      ∀ part (p : Parsed later), part.parse ending later = .ok p → Covers part p)
    {p : Parsed (lexeme :: rest)} (hp : items ending nonempty (lexeme :: rest) = .ok p) :
    Covers (.items nonempty) p := by
  have hr := hs rest (Nat.le_refl _)
  rw [items] at hp
  split at hp
  · next hc =>
    cases hp
    refine ⟨[lexeme], rfl, fun _ => rfl, ?_⟩
    rw [List.map_cons, hc]
    exact .closing nonempty
  split at hp
  · next hd =>
    split at hp
    · next hn =>
      subst hn
      obtain ⟨q, hq, hp⟩ := exists_of_bind hp
      obtain ⟨q', hq', hp⟩ := exists_of_bind hp
      cases hp
      obtain ⟨front, h₁, -, h₃⟩ := hr .datum q hq
      obtain ⟨last, h₄, h₅, h₆, h₇⟩ := close_eq_ok hq'
      refine ⟨lexeme :: (front ++ [last]), ?_, fun _ => ?_, ?_⟩
      · show lexeme :: rest = lexeme :: (front ++ [last]) ++ q'.rest
        calc lexeme :: rest = lexeme :: (front ++ q.rest) := congrArg _ h₁
          _ = lexeme :: (front ++ last :: q'.rest) := congrArg (fun l => lexeme :: (front ++ l)) h₄
          _ = lexeme :: (front ++ [last]) ++ q'.rest := by simp
      · simpa [Parsed.ofTail] using h₅
      · simp only [Parsed.ofTail]
        rw [List.map_cons, Token.isDot_iff.mp hd, List.map_append, List.map_cons, h₆, h₇]
        exact .dot h₃
    · cases hp
  · next hc hd =>
    obtain ⟨q, hq, hp⟩ := exists_of_bind hp
    obtain ⟨q', hq', hp⟩ := exists_of_bind hp
    cases hp
    obtain ⟨front, h₁, h₂, h₃⟩ := covers_datum hr hq
    obtain ⟨later, h₄, h₅, h₆⟩ := hs q.rest (Nat.lt_succ_iff.mp q.fewer) (.items true) q' hq'
    refine ⟨front ++ later, ?_, fun pos => ?_, ?_⟩
    · simp only [Parsed.ofTail]
      rw [List.append_assoc, ← h₄, ← h₁]
    · simpa [Parsed.ofTail] using h₅ _
    · simp only [Parsed.ofTail, List.map_append]
      refine .element (fun hf => hd ?_) h₃ h₆
      -- the element begins with the token that is no dot
      cases front with
      | nil => cases hf
      | cons x front =>
        obtain ⟨rfl, -⟩ := List.cons.inj h₁
        exact Token.isDot_iff.mpr (List.cons.inj hf).1

/-- What the grammar finds is derived from the tokens in front of what is left. -/
lemma covers (part : Part) {p : Parsed lexemes} (hp : part.parse ending lexemes = .ok p) :
    Covers part p := by
  induction hn : lexemes.length using Nat.strongRecOn generalizing lexemes part with
  | ind n ih =>
    subst hn
    cases lexemes with
    | nil =>
      cases part with
      | datum =>
        rw [Part.parse, datum] at hp
        cases hp
      | items nonempty =>
        rw [Part.parse, items] at hp
        cases hp
    | cons lexeme rest =>
      have hs : ∀ later : List Lexeme, later.length ≤ rest.length →
          ∀ part (p : Parsed later), part.parse ending later = .ok p → Covers part p :=
        fun later hl part p hp => ih later.length (Nat.lt_succ_of_le hl) part hp rfl
      cases part with
      | datum => exact covers_datum (hs rest (Nat.le_refl _)) hp
      | items nonempty => exact covers_items hs hp

/-! ## What is derived is found -/

/-- A datum begins neither with the end of a list nor, unless it is a dot, with one. -/
lemma Derives.exists_cons (hd : Derives .datum ts t) : ∃ x xs, ts = x :: xs ∧ x ≠ .closing ∧
    (ts ≠ [.literal (.symbol ".")] → x.isDot = false) := by
  cases hd with
  | literal l =>
    refine ⟨_, _, rfl, by simp, fun hne => ?_⟩
    by_contra hdot
    rw [Bool.not_eq_false, Token.isDot_iff] at hdot
    exact hne (by rw [hdot])
  | mark q ht => exact ⟨_, _, rfl, by simp, fun _ => rfl⟩
  | list ht => exact ⟨_, _, rfl, by simp, fun _ => rfl⟩

/-- An element that is no dot, in front of the rest of a list. -/
lemma parses_items_cons {a b : Tree} {stop stop' : Nat} {rest' : List Lexeme}
    (hc : lexeme.token ≠ .closing) (hd : lexeme.token.isDot = false)
    (hp : Parses (datum ending (lexeme :: lexemes)) a stop rest)
    (hq : Parses (items ending true rest) b stop' rest') :
    Parses (items ending nonempty (lexeme :: lexemes)) (.pair a b) stop' rest' := by
  obtain ⟨p, hp, rfl, -, rfl⟩ := hp
  obtain ⟨q, hq, rfl, rfl, rfl⟩ := hq
  have hd' : ¬ lexeme.token.isDot = true := by simp [hd]
  rw [items, if_neg hc, if_neg hd', hp]
  simp only [bind, Except.bind, hq]
  exact ⟨_, rfl, rfl, rfl, rfl⟩

/-- A mark and a datum. -/
lemma parses_datum_mark {q : Quotation} {stop : Nat} (hm : lexeme.token = .mark q)
    (hp : Parses (datum ending lexemes) t stop rest) :
    Parses (datum ending (lexeme :: lexemes)) (q.form t) stop rest := by
  obtain ⟨p, hp, rfl, rfl, rfl⟩ := hp
  rw [datum.eq_def]
  simp only [hm, hp, bind, Except.bind]
  exact ⟨_, rfl, rfl, rfl, rfl⟩

/-- Whatever is derived from some tokens is found wherever they stand. -/
lemma Derives.parses (hd : Derives part ts t) (ending : Ending) (front rest : List Lexeme)
    (hf : front.map Lexeme.token = ts) (pos : Nat) :
    Parses (part.parse ending (front ++ rest)) t (stopAfter pos front) rest := by
  induction hd generalizing front rest pos with
  | literal l =>
    obtain ⟨x, rfl, hx⟩ := List.map_eq_singleton_iff.mp hf
    obtain ⟨token, start, stop⟩ := x
    obtain rfl : token = .literal l := hx
    exact parses_datum_literal l start stop rest
  | mark q _ ih =>
    obtain ⟨x, later, rfl, hx, hl⟩ := List.map_eq_cons_iff.mp hf
    exact parses_datum_mark hx (ih later rest hl _)
  | list _ ih =>
    obtain ⟨x, later, rfl, hx, hl⟩ := List.map_eq_cons_iff.mp hf
    obtain ⟨p, hp, h₁, h₂, h₃⟩ := ih later rest hl x.stop
    rw [Part.parse, List.cons_append, datum.eq_def]
    rw [Part.parse] at hp
    simp only [hx, hp, bind, Except.bind]
    exact ⟨_, rfl, h₁, h₂, h₃⟩
  | closing nonempty =>
    obtain ⟨x, rfl, hx⟩ := List.map_eq_singleton_iff.mp hf
    exact parses_items_end hx
  | dot _ ih =>
    obtain ⟨x, later, rfl, hx, hl⟩ := List.map_eq_cons_iff.mp hf
    obtain ⟨later, last, rfl, hl', hc⟩ := List.map_eq_append_iff.mp hl
    obtain ⟨y, rfl, hy⟩ := List.map_eq_singleton_iff.mp hc
    rw [List.cons_append, List.append_assoc, stopAfter_cons, stopAfter_append]
    exact parses_items_dot (Token.isDot_iff.mpr hx) (ih later (y :: rest) hl' x.stop) hy
  | element hne ha _ iha ihb =>
    obtain ⟨front, later, rfl, hl, hr⟩ := List.map_eq_append_iff.mp hf
    obtain ⟨x, xs, hx, hc, hd⟩ := ha.exists_cons
    rw [hx] at hl
    obtain ⟨y, ys, rfl, rfl, hys⟩ := List.map_eq_cons_iff.mp hl
    have hp := iha (y :: ys) (later ++ rest) (by rw [hx, ← hys]; rfl) pos
    rw [List.append_assoc, stopAfter_append]
    exact parses_items_cons hc (hd hne) hp (ihb later rest hr _)

/-! ## Scans -/

/-- The first datum of a scan is derived from the tokens in front of what is left. -/
lemma derives_of_parse {scan : Scan} {f : Found} (hf : parse scan = .ok (some f)) :
    ∃ front, scan.lexemes = front ++ f.rest.lexemes ∧ f.rest.ending = scan.ending ∧
      (∀ pos, f.stop = stopAfter pos front) ∧ Derives .datum (front.map Lexeme.token) f.tree := by
  have hdatum : ∃ p, datum scan.ending scan.lexemes = .ok p ∧
      f = ⟨p.tree, p.stop, ⟨p.rest, scan.ending⟩⟩ := by
    unfold parse at hf
    split at hf
    · cases hf
    · obtain ⟨p, hp, hf⟩ := exists_of_bind hf
      cases hf
      exact ⟨p, hp, rfl⟩
  obtain ⟨p, hp, rfl⟩ := hdatum
  obtain ⟨front, h₁, h₂, h₃⟩ := covers .datum hp
  exact ⟨front, h₁, rfl, h₂, h₃⟩

lemma Derives.parse_eq (front rest : List Lexeme)
    (hd : Derives .datum (front.map Lexeme.token) t) :
    parse ⟨front ++ rest, ending⟩ = .ok (some ⟨t, stopAfter 0 front, ⟨rest, ending⟩⟩) := by
  obtain ⟨x, xs, hx, -⟩ := hd.exists_cons
  obtain ⟨y, ys, rfl, -, -⟩ := List.map_eq_cons_iff.mp hx
  have hp : Parses (datum ending (y :: (ys ++ rest))) t (stopAfter 0 (y :: ys)) rest :=
    hd.parses ending (y :: ys) rest rfl 0
  obtain ⟨p, hp, h₁, h₂, h₃⟩ := hp
  rw [List.cons_append]
  simp only [Grammar.parse, hp, bind, Except.bind, pure, Except.pure, h₁, h₂, h₃]

end Grammar

namespace Reader

/-- With slots for its lists and cells for it, the datum that the grammar finds is read. -/
lemma read_of_parse {h : Heap} {scan : Scan} {f : Grammar.Found} (hw : h.WellFormed)
    (hroom : h.roots.size + (Grammar.nesting scan + 2) ≤ h.rootSlots)
    (hparse : Grammar.parse scan = .ok (some f)) (hcells : h.used + f.tree.cells ≤ h.capacity) :
    ∃ x k, HeapM.read scan h = .ok (some x) k ∧ k.Unfolds f.tree x.datum ∧ x.stop = f.stop ∧
      x.rest = f.rest ∧ h.Intact k := by
  have hread := reads_read hw hroom
  rw [hparse] at hread
  exact hread.success hcells

end Reader

end ArenaScheme
