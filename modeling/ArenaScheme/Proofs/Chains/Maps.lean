/-
# Environments as chains of finite maps

A frame stands for a finite map: its two lists, side by side, are an association list, in which the
first match counts and which ends as soon as one of the lists does.  An environment stands for the
chain of the maps of its frames, and a symbol is looked up in one map after the other.

The searches of the interpreter find what a lookup in the chain finds.
-/
import ArenaScheme.Proofs.Seclusion.Locality
import ArenaScheme.Proofs.Protection.Constructors

namespace ArenaScheme

/-! ## Finite maps and chains of them -/

/-- Names and what they are bound to; the first match counts. -/
abbrev Bindings := List (Handle × Handle)

namespace Bindings

/-- Replace the first binding of a symbol. -/
def overwrite (symbol v : Handle) : Bindings → Bindings
  | [] => []
  | (name, x) :: l => if name = symbol then (name, v) :: l else (name, x) :: overwrite symbol v l

/-- Bind a symbol: replace its first binding, or else put one in front. -/
def bind (symbol v : Handle) (l : Bindings) : Bindings :=
  if (l.lookup symbol).isSome then overwrite symbol v l else (symbol, v) :: l

variable {symbol t v name x : Handle} {l : Bindings}

lemma lookup_cons : List.lookup t ((name, x) :: l) = if name = t then some x else l.lookup t := by
  by_cases he : name = t
  · simp [he]
  · have hne : (t == name) = false := by simpa using Ne.symm he
    rw [if_neg he, List.lookup_cons, hne]

lemma lookup_overwrite (l : Bindings) : List.lookup t (overwrite symbol v l) =
    if t = symbol then (l.lookup t).map fun _ => v else l.lookup t := by
  induction l with
  | nil => simp [overwrite]
  | cons b l ih =>
    obtain ⟨name, x⟩ := b
    unfold overwrite
    by_cases hn : name = symbol
    · subst hn
      rw [if_pos rfl, lookup_cons, lookup_cons]
      by_cases ht : name = t
      · subst ht
        simp
      · simp [ht, Ne.symm ht]
    · rw [if_neg hn, lookup_cons, lookup_cons, ih]
      by_cases ht : name = t
      · subst ht
        simp [hn]
      · simp [ht]

/-- A symbol that has been bound is bound to the new object, and others are bound as before. -/
lemma lookup_bind (l : Bindings) :
    List.lookup t (bind symbol v l) = if t = symbol then some v else l.lookup t := by
  unfold bind
  split
  · next hs =>
    obtain ⟨x, hx⟩ := Option.isSome_iff_exists.mp hs
    rw [lookup_overwrite]
    by_cases ht : t = symbol
    · rw [if_pos ht, if_pos ht, ht, hx]
      rfl
    · rw [if_neg ht, if_neg ht]
  · rw [lookup_cons]
    by_cases ht : symbol = t
    · rw [if_pos ht, if_pos ht.symm]
    · rw [if_neg ht, if_neg (Ne.symm ht)]

end Bindings

/-- Frames with their bindings, the innermost first. -/
abbrev Chain := List (Handle × Bindings)

namespace Chain

/-- What the nearest frame that binds the symbol binds it to. -/
def bound? (c : Chain) (symbol : Handle) : Option Handle := c.findSome? fun f => f.2.lookup symbol

/-- The nearest frame that binds the symbol. -/
def binder? (c : Chain) (symbol : Handle) : Option Handle :=
  (List.find? (fun f => (f.2.lookup symbol).isSome) c).map (·.1)

/-- Bind a symbol in one frame. -/
def bind (c : Chain) (f symbol v : Handle) : Chain :=
  c.map fun g => (g.1, if g.1 = f then g.2.bind symbol v else g.2)

/-- No frame before `f` binds the symbol. -/
def Nearest (c : Chain) (f symbol : Handle) : Prop :=
  ∃ inner l outer, c = inner ++ (f, l) :: outer ∧ ∀ g ∈ inner, g.2.lookup symbol = none

variable {c : Chain} {f g symbol t v : Handle} {l : Bindings}

lemma nearest_cons : Nearest ((g, l) :: c) f symbol ↔
    g = f ∨ l.lookup symbol = none ∧ c.Nearest f symbol := by
  constructor
  · rintro ⟨inner, l', outer, he, hn⟩
    cases inner with
    | nil => exact .inl (Prod.mk.inj (List.cons.inj he).1).1
    | cons b inner =>
      obtain ⟨rfl, rfl⟩ := List.cons.inj he
      exact .inr ⟨hn _ List.mem_cons_self, inner, l', outer, rfl,
        fun g hg => hn g (List.mem_cons_of_mem _ hg)⟩
  · rintro (rfl | ⟨hl, inner, l', outer, rfl, hn⟩)
    · exact ⟨[], l, c, rfl, by simp⟩
    · exact ⟨(g, l) :: inner, l', outer, rfl, List.forall_mem_cons.mpr ⟨hl, hn⟩⟩

lemma bound?_cons : bound? ((g, l) :: c) symbol = (l.lookup symbol).or (c.bound? symbol) := by
  rw [bound?, List.findSome?_cons, bound?]
  cases l.lookup symbol <;> rfl

lemma binder?_cons : binder? ((g, l) :: c) symbol =
    if (l.lookup symbol).isSome then some g else c.binder? symbol := by
  rw [binder?, List.find?_cons, binder?]
  cases l.lookup symbol <;> rfl

lemma bind_cons : bind ((g, l) :: c) f symbol v =
    (g, if g = f then l.bind symbol v else l) :: c.bind f symbol v := rfl

/-- A new binding is seen from where its frame is the nearest one that binds the symbol. -/
lemma bound?_bind_of_nearest (hn : c.Nearest f symbol) :
    (c.bind f symbol v).bound? symbol = some v := by
  induction c with
  | nil =>
    obtain ⟨inner, l, outer, he, -⟩ := hn
    simp at he
  | cons b c ih =>
    obtain ⟨g, l⟩ := b
    rw [bind_cons, bound?_cons]
    by_cases hg : g = f
    · rw [if_pos hg, Bindings.lookup_bind, if_pos rfl]
      rfl
    · obtain ⟨hl, hn⟩ := (nearest_cons.mp hn).resolve_left hg
      rw [if_neg hg, hl, ih hn]
      rfl

/-- From elsewhere it is not seen, and the bindings of other symbols are what they were. -/
lemma bound?_bind_of_not (hn : ¬ (t = symbol ∧ c.Nearest f symbol)) :
    (c.bind f symbol v).bound? t = c.bound? t := by
  induction c with
  | nil => rfl
  | cons b c ih =>
    obtain ⟨g, l⟩ := b
    rw [bind_cons, bound?_cons, bound?_cons]
    by_cases ht : t = symbol
    · rw [nearest_cons, not_and, not_or] at hn
      obtain ⟨hg, hl⟩ := hn ht
      rw [if_neg hg, ht]
      cases hx : l.lookup symbol with
      | some x => rfl
      | none =>
        subst ht
        rw [ih fun hc => hl ⟨hx, hc.2⟩]
    · rw [ih fun hc => ht hc.1]
      by_cases hg : g = f
      · rw [if_pos hg, Bindings.lookup_bind, if_neg ht]
      · rw [if_neg hg]

end Chain

/-! ## What a frame and an environment stand for -/

namespace Heap

/-- The two lists, side by side, are the association list. -/
inductive Zips (h : Heap) : Handle → Handle → Bindings → Prop
  | stop {names values : Handle} (hp : h.pairAt names = none ∨ h.pairAt values = none) :
      Zips h names values []
  | cons {names values name rest x others : Handle} {l : Bindings}
      (hn : h.pairAt names = some (name, rest)) (hv : h.pairAt values = some (x, others))
      (hz : Zips h rest others l) : Zips h names values ((name, x) :: l)

/-- The frame and its ancestors are the chain. -/
inductive Chains (h : Heap) : Handle → Chain → Prop
  | root {f names values : Handle} {l : Bindings}
      (hf : h.object? f = some (.frame none names values))
      (hz : h.Zips names values l) : Chains h f [(f, l)]
  | child {f p names values : Handle} {l : Bindings} {c : Chain}
      (hf : h.object? f = some (.frame (some p) names values)) (hz : h.Zips names values l)
      (hp : Chains h p c) : Chains h f ((f, l) :: c)

/-- The parents of a frame, one after the other, lead to a frame without a parent. -/
inductive Lineage (h : Heap) : Handle → Prop
  | root {f names values : Handle} (hf : h.object? f = some (.frame none names values)) :
      Lineage h f
  | child {f p names values : Handle} (hf : h.object? f = some (.frame (some p) names values))
      (hp : Lineage h p) : Lineage h f

/-- Every frame keeps its bindings to itself: its values are a proper list, none of whose pairs
belongs to the values of another frame or to the names of any frame; and its line of parents ends.
Its list of names may be any object. -/
structure Framed (h : Heap) : Prop where
  listed : ∀ f p names values, h.object? f = some (.frame p names values) → ∃ l, h.Spine l values
  apart : ∀ f g c, h.Binds f c → h.Binds g c → f = g
  unnamed : ∀ f g c p names values, h.Binds f c → h.object? g = some (.frame p names values) →
    ¬ h.Along names c
  lineage : ∀ f, h.IsFrame f → h.Lineage f

variable {h k : Heap} {e f g names values slot symbol t v : Handle} {l : Bindings} {c : Chain}
  {p : Option Handle} {cells extra : List Handle}

lemma exists_zips (hn : h.object? .emptyList = some .emptyList) (hs : h.Spine cells values)
    (names : Handle) : ∃ l, h.Zips names values l := by
  induction cells generalizing names values with
  | nil =>
    obtain rfl : values = .emptyList := hs
    exact ⟨[], .stop (.inr (by rw [pairAt, hn]; rfl))⟩
  | cons c cells ih =>
    obtain ⟨rfl, x, others, hp, hs⟩ := hs
    cases hpn : h.pairAt names with
    | none => exact ⟨[], .stop (.inl hpn)⟩
    | some np =>
      obtain ⟨l, hl⟩ := ih hs np.2
      exact ⟨(np.1, x) :: l, .cons hpn (pairAt_eq_some.mpr hp) hl⟩

/-- Every frame stands for a chain. -/
lemma Framed.exists_chain (hf : h.Framed) (hs : h.HasSentinels) (he : h.IsFrame e) :
    ∃ c, h.Chains e c := by
  have hline := hf.lineage e he
  clear he
  induction hline with
  | root hd =>
    obtain ⟨cells, hsp⟩ := hf.listed _ _ _ _ hd
    obtain ⟨l, hl⟩ := exists_zips hs.emptyList hsp _
    exact ⟨_, .root hd hl⟩
  | child hd _ ih =>
    obtain ⟨cells, hsp⟩ := hf.listed _ _ _ _ hd
    obtain ⟨l, hl⟩ := exists_zips hs.emptyList hsp _
    obtain ⟨c, hc⟩ := ih
    exact ⟨_, .child hd hl hc⟩

/-! ## Searches -/

/-- What a search of two lists comes to: the slot of the first match, if there is one. -/
lemma Zips.findsIn (hc : h.Closed) (hz : h.Zips names values l) (hn : h.isLive names = true)
    (hv : h.isLive values = true) (symbol : Handle) :
    (h.FindsIn symbol names values none ∧ l.lookup symbol = none) ∨
      ∃ slot x rest, h.FindsIn symbol names values (some slot) ∧ h.pairAt slot = some (x, rest) ∧
        l.lookup symbol = some x := by
  have htail : ∀ {u a b}, h.pairAt u = some (a, b) → h.isLive b = true := fun hp =>
    hc.child _ _ (pairAt_eq_some.mp hp) _ (by simp [Datum.children])
  induction hz with
  | stop hp => exact .inl ⟨.stop hn hv hp, rfl⟩
  | @cons names values name rest x others l hpn hpv _ ih =>
    rw [Bindings.lookup_cons]
    by_cases hs : name = symbol
    · subst hs
      rw [if_pos rfl]
      exact .inr ⟨values, x, others, .here hpn hpv, hpv, rfl⟩
    · rw [if_neg hs]
      refine (ih (htail hpn) (htail hpv)).imp (And.imp_left (.there hpn hs hpv)) ?_
      rintro ⟨slot, y, rest', hfind, hp, hl⟩
      exact ⟨slot, y, rest', .there hpn hs hpv hfind, hp, hl⟩

lemma FindsIn.mem (hn : h.object? .emptyList = some .emptyList)
    (hf : h.FindsIn symbol names values (some slot)) (hs : h.Spine cells values) : slot ∈ cells :=
  mem_of_slotIn hn _ hs (hf.slotIn_eq (Nat.lt_succ_self _))

/-- What a search of an environment says of the chain: a slot holds what the nearest frame that
binds the symbol binds it to. -/
def Locates (h : Heap) (c : Chain) (symbol : Handle) : Option Handle → Prop
  | none => c.bound? symbol = none
  | some slot => ∃ g p names values x rest, c.binder? symbol = some g ∧ c.bound? symbol = some x ∧
      h.object? g = some (.frame p names values) ∧ h.FindsIn symbol names values (some slot) ∧
      h.pairAt slot = some (x, rest)

/-- A search of one frame. -/
lemma Zips.search (hc : h.Closed) (hf : h.object? f = some (.frame p names values))
    (hz : h.Zips names values l) (symbol : Handle) :
    (h.FindsIn symbol names values none ∧ l.lookup symbol = none) ∨
      ∃ slot x rest, h.FindsIn symbol names values (some slot) ∧ h.pairAt slot = some (x, rest) ∧
        l.lookup symbol = some x :=
  hz.findsIn hc (hc.child _ _ hf _ (by simp [Datum.children]))
    (hc.child _ _ hf _ (by simp [Datum.children])) symbol

lemma Chains.finds (hc : h.Closed) (hch : h.Chains e c) (symbol : Handle) :
    ∃ found, h.Finds symbol e found ∧ h.Locates c symbol (found.map (·.2)) := by
  induction hch with
  | @root f names values l hf hz =>
    rcases hz.search hc hf symbol with ⟨hfind, hl⟩ | ⟨slot, x, rest, hfind, hp, hl⟩
    · exact ⟨none, .nowhere hf hfind, by simp [Locates, hl, Chain.bound?]⟩
    · refine ⟨_, .here hf hfind, f, none, names, values, x, rest, ?_, ?_, hf, hfind, hp⟩
      · simp [Chain.binder?_cons, hl]
      · simp [Chain.bound?_cons, hl]
  | @child f q names values l c hf hz _ ih =>
    rcases hz.search hc hf symbol with ⟨hfind, hl⟩ | ⟨slot, x, rest, hfind, hp, hl⟩
    · obtain ⟨found, hfound, hloc⟩ := ih
      refine ⟨found, .outward hf hfind hfound, ?_⟩
      cases found with
      | none => simpa [Locates, Chain.bound?_cons, hl] using hloc
      | some place => simpa [Locates, Chain.bound?_cons, Chain.binder?_cons, hl] using hloc
    · refine ⟨_, .here hf hfind, f, _, names, values, x, rest, ?_, ?_, hf, hfind, hp⟩
      · simp [Chain.binder?_cons, hl]
      · simp [Chain.bound?_cons, hl]

/-- The search of an environment finds what a lookup in the chain finds. -/
lemma Chains.nearestSlot_eq (hc : h.Closed) (hch : h.Chains e c) (symbol : Handle) :
    ∃ o, h.nearestSlot e symbol = .ok o ∧ h.Locates c symbol o := by
  obtain ⟨found, hfound, hl⟩ := hch.finds hc symbol
  exact ⟨_, hfound.nearestSlot_eq, hl⟩

end Heap

namespace HeapM

open Heap

variable {ε : Type} {h : Heap} {e symbol : Handle} {c : Chain}

lemma find?_eq (hc : h.Closed) (hch : h.Chains e c) (symbol : Handle) :
    (find? e symbol : HeapM ε (Option Handle)) h = .ok (c.bound? symbol) h := by
  obtain ⟨o, ho, hl⟩ := hch.nearestSlot_eq hc symbol
  simp only [HeapM.find?, bind_apply, inspect, ho]
  cases o with
  | none =>
    rw [show c.bound? symbol = none from hl]
    rfl
  | some slot =>
    obtain ⟨g, p, names, values, x, rest, -, hx, -, -, hp⟩ := hl
    exact (bind_of_ok (car_apply hp)).trans (by rw [hx]; rfl)

end HeapM

end ArenaScheme
