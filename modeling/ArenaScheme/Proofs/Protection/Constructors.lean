/-
# Compound constructors

Some constructors make several cells, and a collection may run before each of them.  What has been
made so far is kept as the tail of the next pair or in a root slot, and so are the operands; so
nothing is lost on the way, whether the caller holds the operands or not.

That decides when a constructor fails.  If it makes `n` cells, it fails if and only if these do not
fit beside all that can be reached from the roots and from the operands.
-/
import ArenaScheme.Proofs.Accessors
import ArenaScheme.Proofs.Reading.Layout
import ArenaScheme.Proofs.Seclusion.Searches
import ArenaScheme.Proofs.Protection.Rows

namespace ArenaScheme

open Heap HeapM

/-! ## Ends -/

/-- An action ends with a value and a heap as `P` says, or with an error and a heap as `E` says. -/
def Outcome.Finishes {ε α : Type} (P : α → Heap → Prop) (E : ε → Heap → Prop) : Outcome ε α → Prop
  | .ok a k => P a k
  | .error e k => E e k
  | .halt _ => False

section Finishes

variable {ε α β : Type} {P P' : α → Heap → Prop} {Q : β → Heap → Prop} {E E' : ε → Heap → Prop}
  {h : Heap}

lemma Outcome.Finishes.mono {o : Outcome ε α} (ho : o.Finishes P E) (hP : ∀ a k, P a k → P' a k)
    (hE : ∀ e k, E e k → E' e k) : o.Finishes P' E' := by
  cases o with
  | ok a k => exact hP a k ho
  | error e k => exact hE e k ho
  | halt _ => exact ho

/-- There is a value or an error. -/
lemma Outcome.Finishes.cases {o : Outcome ε α} (ho : o.Finishes P E) :
    (∃ a k, o = .ok a k ∧ P a k) ∨ ∃ e k, o = .error e k ∧ E e k := by
  cases o with
  | ok a k => exact .inl ⟨a, k, rfl, ho⟩
  | error e k => exact .inr ⟨e, k, rfl, ho⟩
  | halt _ => exact ho.elim

/-- It is said besides that it has ended so. -/
lemma Outcome.Finishes.self {o : Outcome ε α} (ho : o.Finishes P E) :
    o.Finishes (fun a k => o = .ok a k ∧ P a k) fun e k => o = .error e k ∧ E e k := by
  cases o with
  | ok a k => exact ⟨rfl, ho⟩
  | error e k => exact ⟨rfl, ho⟩
  | halt _ => exact ho

lemma finishes_bind {x : HeapM ε α} {f : α → HeapM ε β} (hx : (x h).Finishes P E)
    (hf : ∀ a k, P a k → (f a k).Finishes Q E) : ((x >>= f) h).Finishes Q E := by
  rw [bind_apply]
  revert hx
  cases x h with
  | ok a k => exact fun hP => hf a k hP
  | error _ _ => exact id
  | halt _ => exact id

/-- Holding an object in a slot of its own. -/
lemma finishes_rooted {v : Handle} {body : Root → HeapM ε α} (hn : h.roots.size < h.rootSlots)
    (hb : (body ⟨h.roots.size⟩ { h with roots := h.roots.push v }).Finishes
      (fun a k => k.roots.size = h.roots.size + 1 ∧ P a { k with roots := k.roots.pop })
      fun e k => k.roots.size = h.roots.size + 1 ∧ E e { k with roots := k.roots.pop }) :
    (rooted v body h).Finishes P E := by
  cases ho : body ⟨h.roots.size⟩ { h with roots := h.roots.push v } with
  | ok a k =>
    rw [ho] at hb
    rw [rooted_of_ok hn ho hb.1]
    exact hb.2
  | error e k =>
    rw [ho] at hb
    rw [rooted_of_error hn ho hb.1]
    exact hb.2
  | halt c =>
    rw [ho] at hb
    exact hb.elim

/-- Holding several objects. -/
lemma finishes_rootedAll {vs : List Handle} {body : HeapM ε α}
    (hn : h.roots.size + vs.length ≤ h.rootSlots)
    (hb : (body { h with roots := h.roots ++ vs.toArray }).Finishes
      (fun a k => k.roots = h.roots ++ vs.toArray ∧ P a { k with roots := h.roots })
      fun e k => k.roots = h.roots ++ vs.toArray ∧ E e { k with roots := h.roots }) :
    (rootedAll vs body h).Finishes P E := by
  induction vs generalizing h P E with
  | nil =>
    refine Outcome.Finishes.mono (by simpa [rootedAll] using hb) (fun a k hk => ?_) fun e k hk => ?_
    all_goals
      obtain ⟨hr, hk⟩ := hk
      rwa [← hr] at hk
  | cons v vs ih =>
    have hcons : h.roots.push v ++ vs.toArray = h.roots ++ (v :: vs).toArray := by
      apply Array.toList_inj.mp
      simp
    refine finishes_rooted (by simp only [List.length_cons] at hn; omega) (ih ?_ ?_)
    · simp only [List.length_cons] at hn
      simp only [Array.size_push]
      omega
    · dsimp only
      rw [hcons]
      refine hb.mono (fun a k hk => ?_) fun e k hk => ?_
      all_goals
        refine ⟨hk.1, by simp, ?_⟩
        rw [Array.pop_push]
        exact hk.2

end Finishes

/-- The outcome of an action that makes `n` cells beside those that can be reached from the roots
and from `extra`: it fails if and only if they do not fit, and then nothing that can be reached has
changed; otherwise it returns a value and a heap as `P` says. -/
structure Outcome.Takes (o : Outcome Handle Handle) (h : Heap) (n : Nat) (extra : List Handle)
    (P : Handle → Heap → Prop) : Prop where
  fails_iff : (∃ e k, o = .error e k) ↔ h.capacity < n + h.usedWith extra
  failure : ∀ e k, o = .error e k → e = .outOfMemory ∧ h.Saves extra k ∧ k.roots = h.roots
  success : n + h.usedWith extra ≤ h.capacity → ∃ v k, o = .ok v k ∧ P v k

lemma Outcome.Takes.of_finishes {o : Outcome Handle Handle} {h : Heap} {n : Nat}
    {extra : List Handle} {P : Handle → Heap → Prop}
    (ho : o.Finishes (fun v k => n + h.usedWith extra ≤ h.capacity ∧ P v k)
      fun e k => h.capacity < n + h.usedWith extra ∧ e = .outOfMemory ∧ h.Saves extra k ∧
        k.roots = h.roots) : o.Takes h n extra P := by
  cases o with
  | ok v k =>
    obtain ⟨hn, hP⟩ := ho
    exact ⟨by simp [Nat.not_lt.mpr hn], by simp, fun _ => ⟨v, k, rfl, hP⟩⟩
  | error e k =>
    obtain ⟨hn, he⟩ := ho
    refine ⟨by simp [hn], fun e' k' heq => ?_, fun hle => absurd hle (Nat.not_le.mpr hn)⟩
    obtain ⟨rfl, rfl⟩ := Outcome.error.inj heq
    exact he
  | halt c => exact ho.elim

variable {h k : Heap} {extra made vs ws cells : List Handle} {u v w last env symbol : Handle}

/-! ## Lists -/

/-- Making a pair in the course of an action. -/
lemma cons_finishes (ha : h.Adds extra made k) (hv : h.Reachable extra v ∨ v ∈ made)
    (hw : h.Reachable extra w ∨ w ∈ made) (hx : ∀ u ∈ extra, k.Reachable [v, w] u)
    (hm : ∀ u ∈ made, k.Reachable [v, w] u) :
    (cons v w k).Finishes
      (fun c l => h.Adds extra (c :: made) l ∧ l.object? c = some (.pair v w) ∧ l.roots = k.roots ∧
        k.Saves [v, w] l)
      fun e l => e = .outOfMemory ∧ h.Adds extra made l ∧ l.roots = k.roots ∧
        h.capacity ≤ h.usedWith extra + made.length := by
  rcases ha.alloc (d := .pair v w) rfl (by simp [Datum.children, hv, hw]) hx hm with
    ⟨c, l, hrun, hl⟩ | ⟨l, hrun, hl⟩ <;> rw [cons, hrun]
  · exact hl
  · exact ⟨rfl, hl⟩

/-- No object that there has been before refers to the new pair. -/
lemma withholds_of_cons {c : Handle} {l : Heap} (hw : k.WellFormed) (hv : k.isLive v = true)
    (hx : k.isLive w = true)
    (hm : k.Withholds made) (hrun : cons v w k = .ok c l) : l.Withholds (c :: made) := by
  rcases alloc_spec (d := .pair v w) hw rfl (by simp [Datum.children, hv, hx]) with
    ⟨c', l', hrun', -, hl⟩ | ⟨l', hrun', -⟩
  · obtain ⟨rfl, rfl⟩ := Outcome.ok.inj (hrun'.symm.trans hrun)
    exact hm.alloc hl
  · cases hrun'.symm.trans hrun

/-- Pairs for several objects that are held, the last of them first. -/
lemma foldrM_cons_finishes (ha : h.Adds extra [] k) (hx : ∀ v ∈ extra, k.Reachable [] v)
    (hvs : ∀ v ∈ vs, h.Reachable extra v) (hl : h.Reachable extra last) :
    (vs.foldrM cons last k).Finishes
      (fun v l => ∃ cells, h.Adds extra cells l ∧ l.Row last vs cells v ∧ l.roots = k.roots ∧
        (∀ v ∈ extra, l.Reachable [] v) ∧ ∀ made, k.Withholds made → l.Withholds (cells ++ made))
      fun e l => e = .outOfMemory ∧ ∃ made, h.Adds extra made l ∧ l.roots = k.roots ∧
        made.length < vs.length ∧ h.capacity ≤ h.usedWith extra + made.length := by
  induction vs with
  | nil => exact ⟨[], ha, .nil, rfl, hx, fun _ => id⟩
  | cons v vs ih =>
    obtain ⟨hv, hvs⟩ := List.forall_mem_cons.mp hvs
    rw [List.foldrM_cons]
    refine finishes_bind ((ih hvs).mono (fun _ _ => id) fun e l he => ?_) fun r m hm => ?_
    · obtain ⟨rfl, made, hl, hr, hlt, hle⟩ := he
      exact ⟨rfl, made, hl, hr, by rw [List.length_cons]; omega, hle⟩
    · obtain ⟨cells, hm, hrow, hr, hxm, hwm⟩ := hm
      have hcells : ∀ u ∈ cells, m.Reachable [v, r] u := (hrow.reachable (.of_extra (by simp))).1
      have hr' : h.Reachable extra r ∨ r ∈ cells := hrow.start.imp_left fun he : r = last => he ▸ hl
      refine (cons_finishes hm (.inl hv) hr' (fun u hu => .of_nil (hxm u hu)) hcells).self.mono
        (fun c l hc => ?_) fun e l he => ?_
      · obtain ⟨hrun, hc, hp, hrl, hs⟩ := hc
        refine ⟨c :: cells, hc, .cons hp (hrow.congr fun u hu => hs.kept u (hcells u hu)),
          hrl.trans hr, fun u hu => hs.nil.reachable (by simp) (hxm u hu), fun made hmade => ?_⟩
        exact withholds_of_cons hm.wellFormed (hm.isLive hv) (hr'.elim hm.isLive (hm.held r))
          (hwm made hmade) hrun
      · obtain ⟨-, rfl, he, hrl, hle⟩ := he
        exact ⟨rfl, cells, he, hrl.trans hr, by rw [hrow.length_eq, List.length_cons]; omega, hle⟩

/-- Slots for several objects. -/
lemma Heap.Adds.pushAll (ha : h.Adds extra made k) (hvs : ∀ v ∈ vs, h.Reachable extra v) :
    h.Adds extra made { k with roots := k.roots ++ vs.toArray } := by
  induction vs generalizing k with
  | nil => simpa using ha
  | cons v vs ih =>
    obtain ⟨hv, hvs⟩ := List.forall_mem_cons.mp hvs
    have hcons : k.roots ++ (v :: vs).toArray = k.roots.push v ++ vs.toArray := by
      apply Array.toList_inj.mp
      simp
    rw [hcons]
    exact ih (ha.push (.inl hv) (ha.isLive hv)) hvs

/-- A list takes as many cells as it has elements, and nothing else refers to these. -/
lemma list_finishes_withholding (hw : h.WellFormed) (hl : ∀ v ∈ vs, h.isLive v = true)
    (hroom : h.roots.size + vs.length ≤ h.rootSlots) :
    (list vs h).Finishes
      (fun v k => vs.length + h.usedWith vs ≤ h.capacity ∧ ∃ cells, h.Adds vs cells k ∧
        k.roots = h.roots ∧ k.Row .emptyList vs cells v ∧
        ∀ made, h.Withholds made → k.Withholds (cells ++ made))
      fun e k => h.capacity < vs.length + h.usedWith vs ∧ e = .outOfMemory ∧ h.Saves vs k ∧
        k.roots = h.roots := by
  have hvs : ∀ v ∈ vs, h.Reachable vs v := fun v => .of_extra
  have ha := (Adds.refl hw hl).pushAll hvs
  have hx : ∀ v ∈ vs, ({ h with roots := h.roots ++ vs.toArray } : Heap).Reachable [] v :=
    fun v hv => .anchor (.root (by simp [hv]))
  refine finishes_rootedAll hroom ((foldrM_cons_finishes ha hx hvs (.sentinel (by decide))).mono
    (fun v k hk => ?_) fun e k he => ?_)
  · obtain ⟨cells, hk, hrow, hr, -, hmade⟩ := hk
    have hle := hk.usedWith_add_length_le
    rw [hrow.length_eq] at hle
    exact ⟨hr, by omega, cells, hk.dropRoots, rfl, hrow.congr fun _ _ => rfl, hmade⟩
  · obtain ⟨rfl, made, he, hr, hlt, hle⟩ := he
    exact ⟨hr, by omega, rfl, he.toSaves.dropRoots, rfl⟩

/-- A list takes as many cells as it has elements. -/
lemma list_finishes (hw : h.WellFormed) (hl : ∀ v ∈ vs, h.isLive v = true)
    (hroom : h.roots.size + vs.length ≤ h.rootSlots) :
    (list vs h).Finishes
      (fun v k => vs.length + h.usedWith vs ≤ h.capacity ∧ ∃ cells, h.Adds vs cells k ∧
        k.roots = h.roots ∧ k.Row .emptyList vs cells v)
      fun e k => h.capacity < vs.length + h.usedWith vs ∧ e = .outOfMemory ∧ h.Saves vs k ∧
        k.roots = h.roots := by
  refine (list_finishes_withholding hw hl hroom).mono (fun v k hk => ?_) fun _ _ => id
  obtain ⟨hle, cells, hk, hr, hrow, -⟩ := hk
  exact ⟨hle, cells, hk, hr, hrow⟩

/-! ## Copies of lists -/

/-- The roots while a list is being copied: the list, and what there is of the copy. -/
lemma copyLoop_finishes {front back : Handle} (ha : h.Adds [front, back] cells k)
    (hr : k.roots = (h.roots.push front).push w) (hrow : k.Row back ws cells w)
    (hvs : ∀ v ∈ vs, h.Reachable [front, back] v) :
    ((vs.forM fun v => do
        store ⟨h.roots.size + 1⟩ (← cons v (← contents ⟨h.roots.size + 1⟩)) :
    EvalM Unit) k).Finishes
      (fun _ l => ∃ w cells, h.Adds [front, back] cells l ∧
        l.roots = (h.roots.push front).push w ∧ l.Row back (vs.reverse ++ ws) cells w)
      fun e l => e = .outOfMemory ∧ ∃ w made, h.Adds [front, back] made l ∧
        l.roots = (h.roots.push front).push w ∧ made.length < ws.length + vs.length ∧
        h.capacity ≤ h.usedWith [front, back] + made.length := by
  induction vs generalizing k w ws cells with
  | nil => exact ⟨w, cells, ha, hr, hrow⟩
  | cons v vs ih =>
    obtain ⟨hv, hvs⟩ := List.forall_mem_cons.mp hvs
    have hslot : k.roots[h.roots.size + 1]? = some w := by
      rw [hr, Array.getElem?_push, if_pos (by simp)]
    have hfront : k.roots[h.roots.size]? = some front := by
      rw [hr, Array.getElem?_push, if_neg (by simp), Array.getElem?_push, if_pos rfl]
    have hw : k.Reachable [v, w] w := .of_extra (by simp)
    obtain ⟨hcells, -, hback⟩ := hrow.reachable hw
    have hx : ∀ u ∈ [front, back], k.Reachable [v, w] u := by
      simpa using ⟨.of_slot hfront, hback⟩
    have hw' : h.Reachable [front, back] w ∨ w ∈ cells :=
      hrow.start.imp_left fun he : w = back => he ▸ .of_extra (by simp)
    rw [List.forM_eq_forM, List.forM_cons, bind_assoc,
      bind_of_ok (contents_apply hslot), bind_assoc]
    refine finishes_bind ((cons_finishes ha (.inl hv) hw' hx hcells).mono (fun _ _ => id)
      fun e l he => ?_) fun c l hc => ?_
    · obtain ⟨rfl, he, hrl, hle⟩ := he
      refine ⟨rfl, w, cells, he, hrl.trans hr, ?_, hle⟩
      rw [hrow.length_eq, List.length_cons]
      omega
    · obtain ⟨hc, hp, hrl, hs⟩ := hc
      have hsize : l.roots.size = h.roots.size + 2 := by simp [hrl, hr]
      have hset : l.roots.setIfInBounds (h.roots.size + 1) c = (h.roots.push front).push c := by
        rw [hrl, hr]
        refine Array.ext_getElem? fun i => ?_
        simp only [Array.getElem?_setIfInBounds, Array.getElem?_push, Array.size_push]
        split
        · next he => simp [← he]
        · next he => rw [if_neg (Ne.symm he), if_neg (Ne.symm he)]
      have hput := hc.put (i := h.roots.size + 1) (.inr List.mem_cons_self)
        (hc.held c List.mem_cons_self) (by omega)
      have hrow' : l.Row back (v :: ws) (c :: cells) c :=
        .cons hp (hrow.congr fun u hu => hs.kept u (hcells u hu))
      rw [bind_of_ok (store_apply (by omega) c)]
      refine (ih hput hset (hrow'.congr fun _ _ => rfl) hvs).mono
        (fun _ m hm => ?_) fun e m hm => ?_
      · simpa using hm
      · simpa [Nat.add_right_comm, Nat.add_assoc, Nat.add_comm 1] using hm

/-- A copy of a proper list takes as many cells as there are elements. -/
lemma append_finishes {front back : Handle} (hw : h.WellFormed) (hs : h.HasSentinels)
    (hb : h.isLive back = true) (hrow : h.Row .emptyList vs cells front)
    (hroom : h.roots.size + 2 ≤ h.rootSlots) :
    (append front back h).Finishes
      (fun v k => vs.length + h.usedWith [front, back] ≤ h.capacity ∧
        ∃ cells, h.Adds [front, back] cells k ∧ k.roots = h.roots ∧ k.Row back vs cells v)
      fun e k => h.capacity < vs.length + h.usedWith [front, back] ∧ e = .outOfMemory ∧
        h.Saves [front, back] k ∧ k.roots = h.roots := by
  have hf := hrow.isLive (isLive_of_object? hs.emptyList)
  have hlive : ∀ v ∈ [front, back], h.isLive v = true := by simp [hf, hb]
  have h0 := Adds.refl hw hlive
  rw [HeapM.append]
  by_cases he : front = .emptyList
  · subst he
    obtain ⟨rfl, -, -⟩ := hrow.unique hs.pairAt_emptyList hs.pairAt_emptyList .nil
    rw [if_pos rfl]
    have hle := h0.usedWith_add_length_le
    exact ⟨by simpa using hle, [], h0, rfl, .nil⟩
  rw [if_neg he, bind_of_ok (items?_of_row hs hrow)]
  have hvs : ∀ v ∈ vs.reverse, h.Reachable [front, back] v := fun v hv =>
    (hrow.reachable (.of_extra (by simp))).2.1 v (List.mem_reverse.mp hv)
  have h2 := (h0.push (.inl (.of_extra (by simp))) hf).push (v := back)
    (.inl (.of_extra (by simp))) hb
  refine finishes_rooted (by omega) (finishes_rooted (by simp; omega) ?_)
  simp only [Array.size_push]
  refine finishes_bind ((copyLoop_finishes h2 rfl .nil hvs).mono (fun _ _ => id) fun e l he => ?_)
    fun _ l hl => ?_
  · obtain ⟨rfl, w, made, he, hr, hlt, hle⟩ := he
    simp only [List.length_reverse, List.length_nil, Nat.zero_add] at hlt
    have hpop := he.toSaves.dropRoots
    simp only [hr, Array.size_push, Array.pop_push, true_and]
    exact ⟨by omega, hpop, trivial⟩
  · obtain ⟨w, cells', hl, hr, hrow'⟩ := hl
    rw [List.reverse_reverse, List.append_nil] at hrow'
    have hslot : l.roots[h.roots.size + 1]? = some w := by
      rw [hr, Array.getElem?_push, if_pos (by simp)]
    have hle := hl.usedWith_add_length_le
    rw [hrow'.length_eq] at hle
    have hpop := hl.dropRoots
    rw [contents_apply hslot]
    simp only [Outcome.Finishes, hr, Array.size_push, Array.pop_push, true_and]
    exact ⟨by omega, cells', hpop, hrow'.congr fun _ _ => rfl⟩

/-! ## Errors -/

/-- The error `e` is a new object of the kind and with the message; or there is no room for one, and
it is the object that all failures for want of memory share. -/
def Heap.Reports (h : Heap) (kind : ErrorKind) (message : String) (e : Handle) (k : Heap) : Prop :=
  k.roots = h.roots ∧
    ((1 + h.usedWith [] ≤ h.capacity ∧ h.Adds [] [e] k ∧ k.object? e = some (.error kind message)) ∨
      (h.capacity < 1 + h.usedWith [] ∧ h.Adds [] [] k ∧ e = .outOfMemory))

lemma Heap.Reports.saves {kind : ErrorKind} {message : String} {e : Handle}
    (hr : h.Reports kind message e k) : h.Saves [] k := by
  rcases hr.2 with ⟨-, ha, -⟩ | ⟨-, ha, -⟩ <;> exact ha.toSaves

lemma raise_finishes {α : Type} {kind : ErrorKind} (hw : h.WellFormed) (hk : kind ≠ .outOfMemory)
    (message : String) :
    ((raise kind message : EvalM α) h).Finishes (fun _ _ => False) (h.Reports kind message) := by
  rw [raise, bind_apply, makeError, if_neg hk, recover]
  rcases alloc_adds (d := .error kind message) hw rfl (by simp [Datum.children]) with
    ⟨e, l, hrun, ha, hd, hr⟩ | ⟨l, hrun, ha, hr, hall⟩ <;> rw [hrun]
  · have hle : h.usedWith [] + 1 ≤ h.capacity := ha.usedWith_add_length_le
    exact ⟨hr, .inl ⟨by omega, ha, hd⟩⟩
  · have h0 : h.Adds [] [] h := .refl hw (by simp)
    have hle := h0.capacity_le (by simp [Datum.children]) hall
    exact ⟨hr, .inr ⟨by simp only [List.length_nil] at hle; omega, ha, rfl⟩⟩

/-! ## New bindings -/

namespace Heap

/-- The frame `env` does not bind the symbol: looking for it there ends without a slot. -/
def Lacks (h : Heap) (env symbol : Handle) : Prop :=
  ∃ p names values, h.object? env = some (.frame p names values) ∧
    h.FindsIn symbol names values none

/-- `k` is `h` with a new first binding in the frame `env`, of two new cells.  Of what can be
reached from the roots, from the frame and from the object, nothing else has changed. -/
structure Prepends (h : Heap) (env symbol v : Handle) (k : Heap) : Prop where
  wellFormed : k.WellFormed
  frame : SameFrame h k
  binding : ∃ p names values c c', h.object? env = some (.frame p names values) ∧
    k.object? env = some (.frame p c c') ∧ k.object? c = some (.pair symbol names) ∧
    k.object? c' = some (.pair v values) ∧ c ≠ c' ∧
    ∀ u ∈ [c, c'], h.Collectible u.index ∧ ¬ h.Reachable [env, v] u
  kept : ∀ u, h.Reachable [env, v] u → u ≠ env → k.object? u = h.object? u

/-- Installing two new cells in a frame. -/
lemma Adds.prepends {p : Option Handle} {names values c c' : Handle} {m : Heap}
    (ha : h.Adds extra [c', c] m) (hx : ∀ u ∈ [env, v], h.Reachable extra u)
    (hr : m.roots = h.roots) (hd : h.object? env = some (.frame p names values))
    (hc : m.object? c = some (.pair symbol names)) (hc' : m.object? c' = some (.pair v values)) :
    h.Prepends env symbol v (m.setCell env.index (.frame p c c')) ∧
      ∀ u, h.Reachable extra u → u ≠ env →
        (m.setCell env.index (.frame p c c')).object? u = h.object? u := by
  have henv : h.Reachable extra env := hx env (by simp)
  have hdm : m.object? env = some (.frame p names values) := (ha.kept env henv).trans hd
  have hne : ∀ u ∈ [c', c], env ≠ u := by
    rintro u hu rfl
    exact (ha.fresh env hu).2 henv
  obtain ⟨hne', hne, -⟩ : env ≠ c' ∧ env ≠ c ∧ True := by simpa using hne
  have hkept : ∀ u, h.Reachable extra u → u ≠ env →
      (m.setCell env.index (.frame p c c')).object? u = h.object? u := fun u hu hue => by
    rw [object?_setCell_of_ne (Ne.symm hue), ha.kept u hu]
  refine ⟨⟨ha.wellFormed.setCell hdm (by simp [Datum.type]) rfl fun w hw => ?_,
    (ha.sameFrame hr).trans (.setCell ..),
    ⟨p, names, values, c, c', hd, ?_, ?_, ?_, ?_, fun u hu => ?_⟩,
    fun u hu => hkept u (hu.mono hx)⟩, hkept⟩
  · simp only [Datum.children, List.mem_append, List.mem_cons, List.not_mem_nil, or_false] at hw
    rcases hw with hw | rfl | rfl
    · exact ha.wellFormed.child env _ hdm w (by simp [Datum.children, hw])
    · exact ha.held w (by simp)
    · exact ha.held w (by simp)
  · rw [object?_setCell m (lt_size_of_object? hdm), if_pos rfl]
    rfl
  · rw [object?_setCell_of_ne hne, hc]
  · rw [object?_setCell_of_ne hne', hc']
  · rintro rfl
    simpa using ha.nodup
  · obtain ⟨hcol, hnew⟩ := ha.fresh u (by simp at hu ⊢; tauto)
    exact ⟨hcol, fun hu => hnew (hu.mono hx)⟩

lemma Lacks.localSlot_eq (hl : h.Lacks env symbol) : h.localSlot env symbol = .ok none := by
  obtain ⟨p, names, values, hd, hf⟩ := hl
  exact hf.localSlot_eq hd

end Heap

/-- A new binding takes two cells. -/
lemma define_unbound_finishes (hw : h.WellFormed) (hl : h.Lacks env symbol)
    (hsym : h.isLive symbol = true) (hv : h.isLive v = true)
    (hroom : h.roots.size + 3 ≤ h.rootSlots) :
    (define env symbol v h).Finishes
      (fun r k => 2 + h.usedWith [env, symbol, v] ≤ h.capacity ∧ r = v ∧
        h.Prepends env symbol v k ∧
        ∀ u, h.Reachable [env, symbol, v] u → u ≠ env → k.object? u = h.object? u)
      fun e k => h.capacity < 2 + h.usedWith [env, symbol, v] ∧ e = .outOfMemory ∧
        h.Saves [env, symbol, v] k ∧ k.roots = h.roots := by
  have hslot := hl.localSlot_eq
  obtain ⟨p, names, values, hd, -⟩ := hl
  have henv : h.Reachable [env, symbol, v] env := .of_extra (by simp)
  have hsr : h.Reachable [env, symbol, v] symbol := .of_extra (by simp)
  have hval : h.Reachable [env, symbol, v] v := .of_extra (by simp)
  have hnr : h.Reachable [env, symbol, v] names := .child henv hd (by simp [Datum.children])
  have hvr : h.Reachable [env, symbol, v] values := .child henv hd (by simp [Datum.children])
  have h0 : h.Adds [env, symbol, v] [] h := .refl hw (by simp [hv, hsym, isLive_of_object? hd])
  have h2 := (h0.push (.inl henv) (isLive_of_object? hd)).push (.inl hval) hv
  have hheld : ∀ {k : Heap} {l : Array Handle} {extra : List Handle},
      k.roots = (h.roots.push env).push v ++ l → k.Reachable extra symbol →
      ∀ u ∈ [env, symbol, v], k.Reachable extra u := by
    intro k l extra hr hs u hu
    have hslots : ∀ u ∈ [env, v], k.Reachable extra u := fun u hu =>
      .anchor (.root (by rw [hr]; simp at hu ⊢; tauto))
    rcases (by simpa using hu : u = env ∨ u = symbol ∨ u = v) with rfl | rfl | rfl
    exacts [hslots _ (by simp), hs, hslots _ (by simp)]
  simp only [define, bind_apply, inspect, hslot]
  refine finishes_rooted (by omega) (finishes_rooted (by simp; omega) ?_)
  simp only [Array.size_push]
  rw [bind_of_ok (frameParts_apply (h := { h with roots := (h.roots.push env).push v }) hd)]
  refine finishes_bind ((cons_finishes h2 (.inl hsr) (.inl hnr)
    (hheld (l := #[]) (by simp) (.of_extra (by simp))) (by simp)).mono (fun _ _ => id)
      fun e l he => ?_) fun c l hc => ?_
  · obtain ⟨rfl, he, hr, hle⟩ := he
    simp only [hr, Array.size_push, Array.pop_push, true_and]
    simp only [List.length_nil] at hle
    exact ⟨by omega, he.toSaves.dropRoots, trivial⟩
  · obtain ⟨hc, hp, hr, hs⟩ := hc
    have hc3 := hc.push (v := c) (.inr (by simp)) (isLive_of_object? hp)
    refine finishes_rooted (by rw [hr, hc.rootSlots]; simp; omega) ?_
    dsimp only
    have hslot {extra : List Handle} :
        ({ l with roots := l.roots.push c } : Heap).Reachable extra c :=
      .anchor (.root (by simp))
    -- the new pair is held, and with it the symbol
    refine finishes_bind ((cons_finishes hc3 (.inl hval) (.inl hvr)
      (hheld (l := #[c]) (by simp [hr]) (hslot.head hp)) ?_).mono (fun _ _ => id)
        fun e m he => ?_) fun c' m hm => ?_
    · intro u hu
      obtain rfl := List.mem_singleton.mp hu
      exact hslot
    · obtain ⟨rfl, he, hrm, hle⟩ := he
      simp only [List.length_singleton] at hle
      have hdrop := he.toSaves.dropRoots
      simp only [hrm, hr, Array.size_push, Array.pop_push, true_and]
      exact ⟨by omega, hdrop, trivial⟩
    · obtain ⟨hm, hp', hrm, hs'⟩ := hm
      have hdm : m.object? env = some (.frame p names values) := (hm.kept env henv).trans hd
      have hpm : m.object? c = some (.pair symbol names) := (hs'.kept c hslot).trans hp
      have hle := hm.usedWith_add_length_le
      simp only [List.length_cons, List.length_nil] at hle
      have hpre := hm.dropRoots.prepends (by simp [henv, hval]) rfl hd hpm hp'
      rw [bind_of_ok (setBindings_apply hdm c c')]
      simp only [Outcome.Finishes, pure_apply, Heap.setCell, hrm, hr, Array.size_push,
        Array.pop_push, true_and]
      exact ⟨by omega, hpre⟩

namespace Heap

/-- A symbol in the table needs no one to hold it. -/
lemma WellFormed.reachable_symbol {name : String} (hw : h.WellFormed)
    (hsym : h.findSymbol name = some symbol) : h.Reachable extra symbol := by
  obtain ⟨hcol, hname⟩ := hw.table name symbol hsym
  exact .of_not_collectible (lt_size_of_object? hname) hcol

lemma WellFormed.usedWith_symbol {name : String} (hw : h.WellFormed)
    (hsym : h.findSymbol name = some symbol) :
    h.usedWith [env, symbol, v] = h.usedWith [env, v] := by
  have hsub : ∀ u ∈ [env, symbol, v], h.Reachable [env, v] u := by
    simp [hw.reachable_symbol hsym, Reachable.of_extra]
  have hsup : ∀ u ∈ [env, v], h.Reachable [env, symbol, v] u := by
    simp [Reachable.of_extra]
  exact Nat.le_antisymm (usedWith_le_of_reachable rfl fun _ _ hu => hu.mono hsub)
    (usedWith_le_of_reachable rfl fun _ _ hu => hu.mono hsup)

end Heap

/-- The symbol of a new binding takes no room if it is in the table. -/
lemma define_finishes {name : String} (hw : h.WellFormed) (hl : h.Lacks env symbol)
    (hsym : h.findSymbol name = some symbol) (hv : h.isLive v = true)
    (hroom : h.roots.size + 3 ≤ h.rootSlots) :
    (define env symbol v h).Finishes
      (fun r k => 2 + h.usedWith [env, v] ≤ h.capacity ∧ r = v ∧ h.Prepends env symbol v k)
      fun e k => h.capacity < 2 + h.usedWith [env, v] ∧ e = .outOfMemory ∧ h.Saves [env, v] k ∧
        k.roots = h.roots := by
  have hlive : h.isLive symbol = true := isLive_of_object? (hw.table name symbol hsym).2
  refine (define_unbound_finishes hw hl hlive hv hroom).mono (fun r k hk => ?_) fun e k he => ?_
  · rw [hw.usedWith_symbol hsym] at hk
    exact ⟨hk.1, hk.2.1, hk.2.2.1⟩
  · rw [hw.usedWith_symbol hsym] at he
    obtain ⟨hlt, ho, hs, hr⟩ := he
    exact ⟨hlt, ho, hs.mono fun u hu => .of_extra (by simp at hu ⊢; tauto), hr⟩

/-! ## Operands need no protection -/

/-- Compound constructors protect their operands.  Let there be free root slots, however full the
arena is, and let the operands be live, whether anything else refers to them or not.

* A list of some objects takes as many cells as there are objects, and it has exactly these elements
  in order.
* A copy of a proper list takes as many cells as the list has elements, and ends in the object that
  it is put in front of; the list itself is as it was.
* A definition of a symbol that the frame does not bind, the search for it having an end, takes two
  cells, and changes the two lists of the frame.  The symbol counts as an operand; if it has been
  interned, it takes no room.

Each of them fails if and only if these cells do not fit beside what can be reached from the roots
and from the operands.  Whether it fails or not, the root stack is as it was, and so is everything
that can be reached, but for the frame in which a definition takes place. -/
theorem constructors_protect_operands (hw : h.WellFormed) (hs : h.HasSentinels) :
    (∀ vs, (∀ v ∈ vs, h.isLive v = true) → h.roots.size + vs.length ≤ h.rootSlots →
      (list vs h).Takes h vs.length vs fun v k => ∃ cells, h.Adds vs cells k ∧ k.roots = h.roots ∧
        k.Row .emptyList vs cells v) ∧
    (∀ front back vs spine, h.Row .emptyList vs spine front → h.isLive back = true →
      h.roots.size + 2 ≤ h.rootSlots →
      (append front back h).Takes h vs.length [front, back] fun v k => ∃ cells,
        h.Adds [front, back] cells k ∧ k.roots = h.roots ∧ k.Row back vs cells v ∧
          k.Row .emptyList vs spine front) ∧
    ∀ env symbol v, h.Lacks env symbol → h.isLive symbol = true → h.isLive v = true →
      h.roots.size + 3 ≤ h.rootSlots →
      (define env symbol v h).Takes h 2 [env, symbol, v] (fun r k => r = v ∧
        h.Prepends env symbol v k ∧
          ∀ u, h.Reachable [env, symbol, v] u → u ≠ env → k.object? u = h.object? u) ∧
      ∀ name, h.findSymbol name = some symbol →
        h.usedWith [env, symbol, v] = h.usedWith [env, v] := by
  refine ⟨fun vs hl hroom => .of_finishes (list_finishes hw hl hroom),
    fun front back vs spine hrow hb hroom => .of_finishes
      ((append_finishes hw hs hb hrow hroom).mono (fun v k hk => ?_) fun _ _ => id),
    fun env symbol v hl hsym hv hroom =>
      ⟨.of_finishes (define_unbound_finishes hw hl hsym hv hroom),
        fun name hname => hw.usedWith_symbol hname⟩⟩
  obtain ⟨hle, cells, hk, hr, hrow'⟩ := hk
  exact ⟨hle, cells, hk, hr, hrow', hrow.saved hk.toSaves (.of_extra (by simp))⟩

/-- The only collectible cell is a pair that nothing refers to, and there is one symbol. -/
def crowded : Heap where
  cells := #[.emptyList, .bool true, .bool false, .error .outOfMemory "out of memory",
    .pair .emptyList .emptyList, rootFrame, .symbol "x"]
  capacity := 1
  free := none
  freeCount := 0
  collections := 0
  roots := #[]
  rootSlots := 8
  symbols := (∅ : Std.TreeMap String Handle).insert "x" ⟨6⟩
  baseEnv := ⟨5⟩
  currentEnv := ⟨5⟩
  audited := true

lemma wellFormed_crowded : crowded.WellFormed where
  toClosed := by decide
  free := ⟨[], .of_list rfl .nil (by decide) rfl⟩
  table := table_of_insert rfl ⟨by decide, rfl⟩

lemma hasSentinels_crowded : crowded.HasSentinels :=
  .of_take rfl

/-- In that heap there is room for a list of one sentinel, no room for a copy of the pair, and none
for a definition. -/
theorem constructors_protect_operands_crowded :
    crowded.WellFormed ∧ crowded.HasSentinels ∧ crowded.isLive .trueObject = true ∧
    crowded.Row .emptyList [.emptyList] [⟨4⟩] ⟨4⟩ ∧ crowded.Lacks ⟨5⟩ ⟨6⟩ ∧
    crowded.findSymbol "x" = some ⟨6⟩ ∧
    (list [.trueObject] crowded).Takes crowded 1 [.trueObject] (fun v k => ∃ cells,
      crowded.Adds [.trueObject] cells k ∧ k.roots = #[] ∧
        k.Row .emptyList [.trueObject] cells v) ∧
    (append ⟨4⟩ .trueObject crowded).Takes crowded 1 [⟨4⟩, .trueObject] (fun v k => ∃ cells,
      crowded.Adds [⟨4⟩, .trueObject] cells k ∧ k.roots = #[] ∧
        k.Row .trueObject [.emptyList] cells v ∧ k.Row .emptyList [.emptyList] [⟨4⟩] ⟨4⟩) ∧
    (define ⟨5⟩ ⟨6⟩ .trueObject crowded).Takes crowded 2 [⟨5⟩, ⟨6⟩, .trueObject] (fun r k =>
      r = .trueObject ∧ crowded.Prepends ⟨5⟩ ⟨6⟩ .trueObject k ∧
        ∀ u, crowded.Reachable [⟨5⟩, ⟨6⟩, .trueObject] u → u ≠ ⟨5⟩ →
          k.object? u = crowded.object? u) ∧
    crowded.usedWith [⟨5⟩, ⟨6⟩, .trueObject] = crowded.usedWith [⟨5⟩, .trueObject] := by
  have hrow : crowded.Row .emptyList [.emptyList] [⟨4⟩] ⟨4⟩ := .cons rfl .nil
  have hlacks : crowded.Lacks ⟨5⟩ ⟨6⟩ :=
    ⟨none, .emptyList, .emptyList, rfl, .stop rfl rfl (.inl rfl)⟩
  have hsym : crowded.findSymbol "x" = some ⟨6⟩ := Std.TreeMap.getElem?_insert_self
  obtain ⟨hlist, happend, hdefine⟩ :=
    constructors_protect_operands wellFormed_crowded hasSentinels_crowded
  obtain ⟨htakes, hinterned⟩ := hdefine ⟨5⟩ ⟨6⟩ .trueObject hlacks rfl rfl (by decide)
  exact ⟨wellFormed_crowded, hasSentinels_crowded, rfl, hrow, hlacks, hsym,
    hlist [.trueObject] (by decide) (by decide),
    happend ⟨4⟩ .trueObject _ _ hrow rfl (by decide), htakes, hinterned "x" hsym⟩

/-- A frame whose names and values are circular lists that `x` is not on, and two free cells. -/
def circling : Heap where
  cells := #[.emptyList, .bool true, .bool false, .error .outOfMemory "out of memory",
    .pair .emptyList ⟨4⟩, .pair .emptyList ⟨5⟩, .frame (some ⟨9⟩) ⟨4⟩ ⟨5⟩, .free none (some 8),
    .free (some 7) none, rootFrame, .symbol "x"]
  capacity := 5
  free := some 7
  freeCount := 2
  collections := 0
  roots := #[]
  rootSlots := 8
  symbols := (∅ : Std.TreeMap String Handle).insert "x" ⟨10⟩
  baseEnv := ⟨9⟩
  currentEnv := ⟨9⟩
  audited := true

lemma wellFormed_circling : circling.WellFormed where
  toClosed := by decide
  free := ⟨[7, 8], .of_list ⟨rfl, some 8, rfl, rfl, none, rfl, rfl⟩ (by decide) (by decide) rfl⟩
  table := table_of_insert rfl ⟨by decide, rfl⟩

/-- One collectible cell is a symbol that has not been interned, and the other one is free. -/
def tagged : Heap where
  cells := #[.emptyList, .bool true, .bool false, .error .outOfMemory "out of memory",
    .symbol "y", .free none none, rootFrame, .symbol "x"]
  capacity := 2
  free := some 5
  freeCount := 1
  collections := 0
  roots := #[]
  rootSlots := 8
  symbols := (∅ : Std.TreeMap String Handle).insert "x" ⟨7⟩
  baseEnv := ⟨6⟩
  currentEnv := ⟨6⟩
  audited := true

lemma wellFormed_tagged : tagged.WellFormed where
  toClosed := by decide
  free := ⟨[5], .of_list ⟨rfl, none, rfl, rfl⟩ (by decide) (by decide) rfl⟩
  table := table_of_insert rfl ⟨by decide, rfl⟩

/-- The search for a binding has to have an end: in circular lists, there is no answer although
there is room for two cells.  A symbol that has not been interned takes room besides.  And cells
that are not collectible do not count, however many of them can be reached. -/
theorem define_circling_tagged :
    (circling.WellFormed ∧ circling.HasSentinels ∧ circling.findSymbol "x" = some ⟨10⟩ ∧
      circling.object? ⟨6⟩ = some (.frame (some ⟨9⟩) ⟨4⟩ ⟨5⟩) ∧
      (∀ slot, ¬ circling.FindsIn ⟨10⟩ ⟨4⟩ ⟨5⟩ (some slot)) ∧
      circling.roots.size + 3 ≤ circling.rootSlots ∧
      2 + circling.usedWith [⟨6⟩, .trueObject] ≤ circling.capacity ∧
      define ⟨6⟩ ⟨10⟩ .trueObject circling = .halt .endlessSearch) ∧
    tagged.WellFormed ∧ tagged.HasSentinels ∧ tagged.roots.size + 3 ≤ tagged.rootSlots ∧
      2 + tagged.usedWith [⟨6⟩, .trueObject] ≤ tagged.capacity ∧
      (tagged.object? ⟨4⟩ = some (.symbol "y") ∧ tagged.Lacks ⟨6⟩ ⟨4⟩ ∧
        ∃ e k, define ⟨6⟩ ⟨4⟩ .trueObject tagged = .error e k) ∧
      tagged.findSymbol "x" = some ⟨7⟩ ∧ tagged.Lacks ⟨6⟩ ⟨7⟩ ∧
        (∃ reached : List Handle, reached.Nodup ∧
          (∀ u ∈ reached, tagged.Reachable [⟨6⟩, .trueObject] u) ∧
          tagged.capacity < 2 + reached.length) ∧
        ∃ k, define ⟨6⟩ ⟨7⟩ .trueObject tagged = .ok .trueObject k := by
  have hcircling : circling.usedWith [⟨6⟩, .trueObject] + 2 ≤ 5 :=
    usedWith_add_freeCount_le wellFormed_circling (by decide)
  have hnot : ∀ slot, ¬ circling.FindsIn ⟨10⟩ ⟨4⟩ ⟨5⟩ (some slot) := fun slot hf =>
    nomatch hf.slotIn_eq (show circling.cells.size < 12 by decide)
  have hlacks : ∀ symbol, tagged.Lacks ⟨6⟩ symbol := fun symbol =>
    ⟨none, .emptyList, .emptyList, rfl, .stop rfl rfl (.inl rfl)⟩
  have hsym : tagged.findSymbol "x" = some ⟨7⟩ := Std.TreeMap.getElem?_insert_self
  have hnone : {i | tagged.Collectible i ∧ tagged.Reachable [⟨6⟩, .trueObject] ⟨i⟩} = ∅ :=
    Set.eq_empty_iff_forall_notMem.mpr fun _ hi =>
      Marking.not_collectible_of_reachable (by decide) (by decide) hi.2 hi.1
  have hused : tagged.usedWith [⟨6⟩, .trueObject] = 0 := by rw [usedWith, hnone, Set.ncard_empty]
  have hspent : 1 ≤ tagged.usedWith [⟨6⟩, ⟨4⟩, .trueObject] :=
    (Set.ncard_pos ((finite_collectible tagged).subset fun i hi => hi.1)).mpr
      ⟨4, by decide, .of_extra (by simp)⟩
  refine ⟨⟨wellFormed_circling, .of_take rfl, Std.TreeMap.getElem?_insert_self, rfl, hnot,
      by decide, show 2 + circling.usedWith [⟨6⟩, .trueObject] ≤ 5 by omega, rfl⟩,
    wellFormed_tagged, .of_take rfl, by decide, by rw [hused]; decide,
    ⟨rfl, hlacks _, ?_⟩, hsym, hlacks _,
    ⟨[⟨0⟩, ⟨6⟩, ⟨7⟩], by decide, fun u hu => ?_, by decide⟩, ?_⟩
  · obtain ⟨_, _, -, hle, -⟩ | ⟨e, k, hrun, -⟩ := (define_unbound_finishes (v := .trueObject)
      wellFormed_tagged (hlacks ⟨4⟩) rfl rfl (by decide)).cases
    · have hroom : 2 + tagged.usedWith [⟨6⟩, ⟨4⟩, .trueObject] ≤ 2 := hle
      omega
    · exact ⟨e, k, hrun⟩
  · have hout : ∀ u ∈ ([⟨0⟩, ⟨6⟩, ⟨7⟩] : List Handle),
        u.index < tagged.cells.size ∧ ¬ tagged.Collectible u.index := by decide
    exact .of_not_collectible (hout u hu).1 (hout u hu).2
  · obtain ⟨_, k, hrun, -, rfl, -⟩ | ⟨_, _, -, hlt, -⟩ := (define_finishes (v := .trueObject)
      wellFormed_tagged (hlacks ⟨7⟩) hsym rfl (by decide)).cases
    · exact ⟨k, hrun⟩
    · have hfull : 2 < 2 + tagged.usedWith [⟨6⟩, .trueObject] := hlt
      omega

end ArenaScheme
