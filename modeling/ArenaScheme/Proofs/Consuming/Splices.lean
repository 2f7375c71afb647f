/-
# Splicing into a template

Copying a template goes on in stages: a part is copied at a level, a quotation is copied or
evaluated, and the rest of a list is copied onto what there is of the copy.  From one stage the
copying gets to another one, and so to the expressions whose values are to be spliced in.

If something cannot be spliced in, that is the end of the whole template: every stage on the way
fails with the same error, and nothing happens any more but that root slots are released.
-/
import ArenaScheme.Proofs.Accessors
import ArenaScheme.Proofs.Discipline.Evaluator
import ArenaScheme.Proofs.Protection.Rows

namespace ArenaScheme

open Heap HeapM

/-- The action fails with that error, and the heap is `l` when the error is raised. -/
def Outcome.FailsWith {α : Type} (o : Outcome Handle α) (e : Handle) (l : Heap) : Prop :=
  ∃ k, o = .error e k ∧ l.Unwound k

/-- The object is a proper list of these elements. -/
def Heap.Elements (h : Heap) (v : Handle) (vs : List Handle) : Prop :=
  h.walkSpine v = .ok ⟨vs, some .emptyList⟩

variable {ε α β : Type} {host : Array HostProcedure} {W : Nat → Prop} {s : Prop} {kw : Keywords}
  {nested : Nested} {n budget level : Nat} {e v template form inner item rest next : Handle}
  {vs : List Handle} {h k l : Heap}

lemma HeapM.items?_of_elements (hv : h.Elements v vs) :
    (items? v : HeapM ε (Option (List Handle))) h = .ok (some vs) h := by
  rw [items?_eq hv, Walk.items?, if_pos rfl]

/-- An object that is neither a pair nor the empty list is no list. -/
lemma HeapM.items?_of_atom (hl : h.isLive v = true) (hp : h.pairAt v = none) (hv : v ≠ .emptyList) :
    (items? v : HeapM ε (Option (List Handle))) h = .ok none h := by
  have hw : h.walkSpine v = .ok ⟨[], some v⟩ := walkFrom_stop hl hp
  rw [items?_eq hw, Walk.items?, if_neg (by simpa using hv)]

namespace Outcome.FailsWith

lemma bind {x : EvalM α} {f : α → EvalM β} (hx : (x h).FailsWith e l) :
    ((x >>= f) h).FailsWith e l := by
  obtain ⟨k, hk, hu⟩ := hx
  exact ⟨k, bind_of_error hk, hu⟩

lemma rooted {f : Root → EvalM α} (hroom : h.roots.size < h.rootSlots)
    (ho : ArenaScheme.Orderly host W s (f ⟨h.roots.size⟩))
    (hf : (f ⟨h.roots.size⟩ { h with roots := h.roots.push v }).FailsWith e l) :
    ((HeapM.rooted v f) h).FailsWith e l := by
  obtain ⟨k, hk, hu⟩ := hf
  have hk' := ho { h with roots := h.roots.push v }
  rw [hk] at hk'
  have hsize : k.roots.size = h.roots.size + 1 := by rw [hk'.1.depth, Array.size_push]
  refine ⟨{ k with roots := k.roots.pop }, rooted_of_error hroom hk hsize, hu.trans ?_⟩
  rfl

end Outcome.FailsWith

namespace Template

/-- A stage of copying a template. -/
inductive Stage
  /-- A part is to be copied at a level. -/
  | part (template : Handle) (level : Nat)
  /-- A form is to be copied, or to be replaced by a value. -/
  | quotation (form : Handle) (level : Nat)
  /-- The rest of a list is to be copied onto the list in the slot `out`. -/
  | spine (out : Root) (level budget : Nat) (last : Option Handle) (rest : Handle)

/-- What remains to be done at a stage. -/
def Stage.action (kw : Keywords) (nested : Nested) (n : Nat) : Stage → EvalM Handle
  | part template level => copy kw nested n template level
  | quotation form level => copyQuotation kw nested (copy kw nested n) form level
  | spine out level budget last rest =>
    copySpine kw nested (copy kw nested n) out level budget last rest

/-- From a stage in the heap `h` the copying gets to the expression `inner`, which is evaluated in
the heap `k` and whose value is to be spliced in. -/
inductive Splices (kw : Keywords) (nested : Nested) : Nat → Stage → Heap → Handle → Heap → Prop
  | form {n level : Nat} {template head rest inner : Handle} {h k : Heap}
      (ht : h.object? template = some (.pair head rest)) (hq : kw.isQuotation head = true)
      (hs : Splices kw nested n (.quotation template level) h inner k) :
      Splices kw nested (n + 1) (.part template level) h inner k
  | list {n level : Nat} {template head rest inner : Handle} {h k : Heap}
      (ht : h.object? template = some (.pair head rest)) (hq : kw.isQuotation head = false)
      (hroom : h.roots.size < h.rootSlots)
      (hs : Splices kw nested n (.spine ⟨h.roots.size⟩ level n none template)
        { h with roots := h.roots.push .emptyList } inner k) :
      Splices kw nested (n + 1) (.part template level) h inner k
  | deeper {n level : Nat} {form rest template inner : Handle} {h k : Heap}
      (hf : h.object? form = some (.pair kw.quasiquote rest)) (ho : h.Elements rest [template])
      (hs : Splices kw nested n (.part template (level + 1)) h inner k) :
      Splices kw nested n (.quotation form level) h inner k
  | shallower {n level : Nat} {form tag rest template inner : Handle} {h k : Heap}
      (hf : h.object? form = some (.pair tag rest)) (ht : tag ≠ kw.quasiquote)
      (ho : h.Elements rest [template])
      (hs : Splices kw nested n (.part template level) h inner k) :
      Splices kw nested n (.quotation form (level + 1)) h inner k
  /-- The element at the front is to be spliced in. -/
  | here {n budget : Nat} {out : Root} {last : Option Handle}
      {rest item next operands inner : Handle} {h : Heap}
      (hr : h.object? rest = some (.pair item next)) (hq : kw.isQuotation item = false)
      (hi : h.object? item = some (.pair kw.unquoteSplicing operands))
      (ho : h.Elements operands [inner]) :
      Splices kw nested n (.spine out 0 (budget + 1) last rest) h inner h
  /-- It is in the element at the front. -/
  | element {n level budget : Nat} {out : Root} {last : Option Handle}
      {rest item next inner : Handle} {h k : Heap}
      (hr : h.object? rest = some (.pair item next)) (hq : kw.isQuotation item = false)
      (hi : isSplice kw level item h = .ok false h)
      (hs : Splices kw nested n (.part item level) h inner k) :
      Splices kw nested n (.spine out level (budget + 1) last rest) h inner k
  /-- It is in the tail of a dotted list. -/
  | tail {n level budget : Nat} {out : Root} {last : Option Handle} {rest item next inner : Handle}
      {h k : Heap}
      (hr : h.object? rest = some (.pair item next)) (hq : kw.isQuotation item = true)
      (hs : Splices kw nested n (.quotation rest level) h inner k) :
      Splices kw nested n (.spine out level (budget + 1) last rest) h inner k
  /-- It comes after an element that is copied. -/
  | afterElement {n level budget : Nat} {out : Root} {last : Option Handle}
      {rest item next v cell inner : Handle}
      {h h₁ h₂ k : Heap} (hr : h.object? rest = some (.pair item next))
      (hq : kw.isQuotation item = false)
      (hi : isSplice kw level item h = .ok false h) (hv : copy kw nested n item level h = .ok v h₁)
      (hp : push out last v h₁ = .ok cell h₂)
      (hs : Splices kw nested n (.spine out level budget (some cell) next) h₂ inner k) :
      Splices kw nested n (.spine out level (budget + 1) last rest) h inner k
  /-- It comes after another one that is spliced in. -/
  | afterSplice {n budget : Nat} {out : Root} {last last' : Option Handle}
      {rest item next operands expr v inner : Handle} {h h₁ h₂ k : Heap}
      (hr : h.object? rest = some (.pair item next)) (hq : kw.isQuotation item = false)
      (hi : h.object? item = some (.pair kw.unquoteSplicing operands))
      (ho : h.Elements operands [expr])
      (hv : nested expr h = .ok v h₁) (hp : splice out last v h₁ = .ok last' h₂)
      (hs : Splices kw nested n (.spine out 0 budget last' next) h₂ inner k) :
      Splices kw nested n (.spine out 0 (budget + 1) last rest) h inner k

/-- A round on an element that is to be spliced in. -/
lemma copySpine_splice {copier : Copier} {operands expr : Handle}
    (hr : h.object? rest = some (.pair item next)) (hq : kw.isQuotation item = false)
    (hi : h.object? item = some (.pair kw.unquoteSplicing operands))
    (ho : h.Elements operands [expr]) (out : Root) (last : Option Handle) :
    copySpine kw nested copier out 0 (budget + 1) last rest h =
      ((do splice out last (← nested expr)) >>= fun last =>
        copySpine kw nested copier out 0 budget last next) h := by
  have hsplice : isSplice kw 0 item h = .ok true h := by
    rw [isSplice, if_pos rfl, bind_of_ok (asPair_apply hi)]
    simp [Datum.pair?]
  rw [copySpine, bind_of_ok (asPair_apply hr)]
  dsimp only [Datum.pair?]
  rw [if_neg (by simp [hq]), bind_of_ok hsplice, if_pos rfl,
    bind_of_ok (cdr_apply (pairAt_eq_some.mpr hi)), bind_of_ok (items?_of_elements ho), bind_assoc]

/-- A round on an element that is to be copied. -/
lemma copySpine_element {copier : Copier} (hr : h.object? rest = some (.pair item next))
    (hq : kw.isQuotation item = false) (hi : isSplice kw level item h = .ok false h) (out : Root)
    (last : Option Handle) :
    copySpine kw nested copier out level (budget + 1) last rest h = (do
      let cell ← push out last (← copier item level)
      copySpine kw nested copier out level budget (some cell) next) h := by
  rw [copySpine, bind_of_ok (asPair_apply hr)]
  dsimp only [Datum.pair?]
  rw [if_neg (by simp [hq]), bind_of_ok hi, if_neg Bool.false_ne_true]

/-- If what `inner` gives cannot be spliced in, no stage on the way to it gives a copy. -/
lemma Splices.fails {stage : Stage} (hn : ∀ expr, Orderly host (fun _ => False) False (nested expr))
    (hs : Splices kw nested n stage h inner k)
    (hf : ∀ out last, ((do splice out last (← nested inner)) k).FailsWith e l) :
    (stage.action kw nested n h).FailsWith e l := by
  have hw : Watching host .anything .unfinished nested nested := .of_orderly hn
  -- by induction on the way: a stage fails as the next one does, and the slot of the copy is given
  -- up
  induction hs with
  | form ht hq _ ih =>
    rw [Stage.action, copy, bind_of_ok (asPair_apply ht)]
    dsimp only [Datum.pair?]
    rw [if_pos hq]
    exact ih hf
  | @list n level template _ _ _ h _ ht hq hroom _ ih =>
    rw [Stage.action, copy, bind_of_ok (asPair_apply ht)]
    dsimp only [Datum.pair?]
    rw [if_neg (by simp [hq])]
    have ho : Orderly host (h.roots.size = ·) False
        (copySpine kw nested (copy kw nested n) ⟨h.roots.size⟩ level n none template) :=
      (Watched.copySpine kw hw (Watched.copy kw hw n) rfl level n none template).orderly
    exact .rooted hroom ho (ih hf)
  | deeper hform ho _ ih =>
    rw [Stage.action, copyQuotation, bind_of_ok (asPair_apply hform)]
    dsimp only [Datum.pair?]
    rw [if_pos rfl, bind_of_ok (items?_of_elements ho)]
    exact .bind (ih hf)
  | shallower hform ht ho _ ih =>
    rw [Stage.action, copyQuotation, bind_of_ok (asPair_apply hform)]
    dsimp only [Datum.pair?]
    rw [if_neg ht, bind_of_ok (items?_of_elements ho)]
    exact .bind (ih hf)
  | here hr hq hi ho =>
    rw [Stage.action, copySpine_splice hr hq hi ho]
    exact .bind (hf _ _)
  | element hr hq hi _ ih =>
    rw [Stage.action, copySpine_element hr hq hi]
    exact .bind (ih hf)
  | tail hr hq _ ih =>
    rw [Stage.action, copySpine, bind_of_ok (asPair_apply hr)]
    dsimp only [Datum.pair?]
    rw [if_pos hq]
    exact .bind (ih hf)
  | afterElement hr hq hi hv hp _ ih =>
    rw [Stage.action, copySpine_element hr hq hi, bind_of_ok hv, bind_of_ok hp]
    exact ih hf
  | afterSplice hr hq hi ho hv hp _ ih =>
    rw [Stage.action, copySpine_splice hr hq hi ho, bind_of_ok ((bind_of_ok hv).trans hp)]
    exact ih hf

end Template

end ArenaScheme
