/-
# Every history of a heap keeps it well formed

A host works on a heap through a fixed set of operations.  It must not hand an operation the handle
of a cell that has been reclaimed, and that is all it has to observe: whatever sequence of
operations it performs on a new heap, be they successful or not, the heap stays well formed, until
an operation halts.

A failure leaves a heap to go on with; a halt leaves none.  Halts have their causes in misuse, such
as looking into an object of the wrong type, or in the bounds of the root stack.  No history leads
to a halt that would show damage of the arena itself.
-/
import ArenaScheme.Environment
import ArenaScheme.Proofs.Allocation

namespace ArenaScheme

/-- A cause of a halt other than damage of the arena, which a corrupt free list or a dangling
reference would show. -/
def Halt.Lawful : Halt → Prop
  | .corruptFreeList .. | .danglingReference .. => False
  | _ => True

/-- A cause that looking at objects may have: one of them is of the wrong type, or is none at all,
or there is no end of them. -/
def Halt.Observed : Halt → Prop
  | .mismatch .. | .outOfRange .. | .endlessSearch => True
  | _ => False

lemma Halt.Observed.lawful {c : Halt} (hc : c.Observed) : c.Lawful := by
  cases c <;> trivial

/-- The heap that an action leaves is well formed; what the action returns is as stated; and if it
halts, the arena is not to blame. -/
def Outcome.Sound {ε α : Type} (o : Outcome ε α) (returned : α → Heap → Prop) : Prop :=
  match o with
  | .ok a h => h.WellFormed ∧ returned a h
  | .error _ h => h.WellFormed
  | .halt c => c.Lawful

namespace Heap

open HeapM

variable {ε ε' α β : Type} {h : Heap}

/-! ## Combining actions -/

lemma sound_bind {x : HeapM ε α} {f : α → HeapM ε β} {Q : α → Heap → Prop} {R : β → Heap → Prop}
    (hx : (x h).Sound Q)
    (hf : ∀ a h', h'.WellFormed → Q a h' → (f a h').Sound R) : ((x >>= f) h).Sound R := by
  rw [bind_apply]
  cases hxh : x h with
  | ok a h' =>
    rw [hxh] at hx
    exact hf a h' hx.1 hx.2
  | error e h' => rw [hxh] at hx; exact hx
  | halt c => rw [hxh] at hx; exact hx

lemma sound_pure (hw : h.WellFormed) {a : α} {Q : α → Heap → Prop} (ha : Q a h) :
    ((pure a : HeapM ε α) h).Sound Q := ⟨hw, ha⟩

/-- A failure is no damage either. -/
lemma sound_recover {x : HeapM ε α} {f : ε → α} {Q : α → Heap → Prop} (hx : (x h).Sound Q) :
    ((recover x f : HeapM ε' α) h).Sound fun _ _ => True := by
  unfold recover
  cases hxh : x h with
  | ok a h' => rw [hxh] at hx; exact ⟨hx.1, trivial⟩
  | error e h' => rw [hxh] at hx; exact ⟨hx, trivial⟩
  | halt c => rw [hxh] at hx; exact hx

/-! ## The root stack -/

lemma sound_acquire (hw : h.WellFormed) {v : Handle} (hv : h.isLive v = true) :
    ((acquire v : HeapM ε Root) h).Sound fun root h' =>
      root = ⟨h.roots.size⟩ ∧ h' = { h with roots := h.roots.push v } := by
  unfold acquire
  split
  · exact ⟨hw.push hv, rfl, rfl⟩
  · exact trivial

lemma sound_release (hw : h.WellFormed) (root : Root) :
    ((release root : HeapM ε Handle) h).Sound fun _ h' =>
      h' = { h with roots := h.roots.pop } := by
  unfold release
  split
  · split
    · exact ⟨hw.pop, rfl⟩
    · exact trivial
  · exact trivial

lemma sound_contents (hw : h.WellFormed) (root : Root) :
    ((contents root : HeapM ε Handle) h).Sound fun v h' =>
      h' = h ∧ h.roots[root.slot]? = some v := by
  unfold contents
  split
  · next v hv => exact ⟨hw, rfl, hv⟩
  · exact trivial

lemma sound_store (hw : h.WellFormed) (root : Root) {v : Handle} (hv : h.isLive v = true) :
    ((store root v : HeapM ε Unit) h).Sound fun _ h' =>
      h' = { h with roots := h.roots.setIfInBounds root.slot v } := by
  unfold store
  split
  · exact ⟨hw.put hv _, rfl⟩
  · exact trivial

/-- Holding an object in a slot while an action runs. -/
lemma sound_rooted (hw : h.WellFormed) {v : Handle} (hv : h.isLive v = true)
    {body : Root → HeapM ε α} {Q : α → Heap → Prop}
    (hb : (body ⟨h.roots.size⟩ { h with roots := h.roots.push v }).Sound fun a h' =>
      Q a { h' with roots := h'.roots.pop }) : ((rooted v body) h).Sound Q := by
  refine sound_bind (sound_acquire hw hv) ?_
  rintro _ _ - ⟨rfl, rfl⟩
  unfold ensuring
  cases hbh : body ⟨h.roots.size⟩ { h with roots := h.roots.push v } with
  | ok a h' =>
    rw [hbh] at hb
    have hr : (((do let _ ← release ⟨h.roots.size⟩) : HeapM ε Unit) h').Sound fun _ h'' =>
        h'' = { h' with roots := h'.roots.pop } :=
      sound_bind (sound_release hb.1 _) fun _ _ hw' e => sound_pure hw' e
    revert hr
    dsimp only
    cases ((do let _ ← release ⟨h.roots.size⟩) : HeapM ε Unit) h' with
    | ok _ h'' => exact fun hr => ⟨hr.1, hr.2 ▸ hb.2⟩
    | error _ h'' => exact id
    | halt c => exact id
  | error e h' =>
    rw [hbh] at hb
    have hr : (((do let _ ← release ⟨h.roots.size⟩) : HeapM ε Unit) h').Sound fun _ _ => True :=
      sound_bind (sound_release hb _) fun _ _ hw' _ => sound_pure hw' trivial
    revert hr
    dsimp only
    cases ((do let _ ← release ⟨h.roots.size⟩) : HeapM ε Unit) h' with
    | ok _ h'' => exact And.left
    | error _ h'' => exact id
    | halt c => exact id
  | halt c => rw [hbh] at hb; exact hb

/-! ## Making objects -/

/-- A live handle, and a heap in which all that could be reached is there as before. -/
def Made (h : Heap) (v : Handle) (h' : Heap) : Prop :=
  h'.isLive v = true ∧ SameFrame h h' ∧ ∀ w, h.Reachable [] w → h'.object? w = h.object? w

lemma sound_alloc (hw : h.WellFormed) {d : Datum} (hf : d.isFree = false)
    (hc : ∀ v ∈ d.children, h.isLive v = true) : ((alloc d) h).Sound h.Made := by
  rcases alloc_spec hw hf hc with ⟨v, h', hrun, hw', ha⟩ | ⟨h', hrun, hw', -⟩
  · rw [hrun]
    exact ⟨hw', isLive_of_object? ha.new, ha.frame, fun w hr => ha.kept w hr.of_nil⟩
  · rw [hrun]
    exact hw'

lemma sound_cons (hw : h.WellFormed) {a b : Handle} (ha : h.isLive a = true)
    (hb : h.isLive b = true) : ((HeapM.cons a b) h).Sound h.Made := by
  refine sound_alloc hw rfl fun v hv => ?_
  rcases List.mem_pair.mp hv with rfl | rfl
  · exact ha
  · exact hb

lemma sound_makeError (hw : h.WellFormed) (kind : ErrorKind) (message : String) :
    ((makeError kind message : HeapM ε Handle) h).Sound fun _ _ => True := by
  unfold makeError
  split
  · exact ⟨hw, trivial⟩
  · exact sound_recover (sound_alloc hw rfl (by simp [Datum.children]))

lemma sound_raise (hw : h.WellFormed) (kind : ErrorKind) (message : String)
    {Q : α → Heap → Prop} : ((raise kind message : EvalM α) h).Sound Q :=
  sound_bind (sound_makeError hw kind message) fun _ _ hw' _ => hw'

/-! ## Looking at objects -/

lemma read_cases (h : Heap) (v : Handle) :
    (∃ d, h.cells[v.index]? = some d ∧ h.read v = .ok d) ∨
      ∃ c : Halt, c.Observed ∧ h.read v = .error c := by
  unfold read
  split
  · next d hd => exact .inl ⟨d, hd, rfl⟩
  · next hn => exact .inr ⟨.outOfRange h.cells.size v.index, trivial, rfl⟩

lemma sound_expect (hw : h.WellFormed) (wanted : DatumType) (part : Datum → Option α) (v : Handle)
    (hp : ∀ p n, part (.free p n) = none) :
    ((expect wanted part v : HeapM ε α) h).Sound fun a h' =>
      h' = h ∧ ∃ d, h.object? v = some d ∧ part d = some a := by
  simp only [expect, datum, bind_apply, inspect]
  rcases h.read_cases v with ⟨d, hd, hr⟩ | ⟨c, hc, hr⟩ <;> rw [hr]
  · dsimp only
    cases hpd : part d with
    | none => exact trivial
    | some a =>
      refine ⟨hw, rfl, d, object?_eq_some.mpr ⟨hd, ?_⟩, hpd⟩
      rw [← Bool.not_eq_true]
      intro hf
      obtain ⟨p, n, rfl⟩ := Datum.isFree_iff.mp hf
      simp [hp] at hpd
  · exact hc.lawful

lemma sound_inspect (hw : h.WellFormed) {f : Heap → Except Halt α}
    (hf : ∀ c, f h = .error c → c.Lawful) :
    ((inspect f : HeapM ε α) h).Sound fun _ h' => h' = h := by
  unfold inspect
  cases hfh : f h with
  | ok a => exact ⟨hw, rfl⟩
  | error c => exact hf c hfh

lemma observed_read {v : Handle} {c : Halt} (hc : h.read v = .error c) : c.Observed := by
  rcases h.read_cases v with ⟨d, -, hr⟩ | ⟨c', hl, hr⟩ <;> rw [hr] at hc
  · simp at hc
  · exact Except.error.inj hc ▸ hl

lemma observed_slotIn {symbol : Handle} (n : Nat) (names values : Handle) {c : Halt}
    (hc : h.slotIn symbol n names values = .error c) : c.Observed := by
  induction n generalizing names values with
  | zero => exact Except.error.inj hc ▸ trivial
  | succ n ih =>
    simp only [slotIn, bind, Except.bind] at hc
    cases hn : h.read names with
    | error c' => rw [hn] at hc; exact Except.error.inj hc ▸ observed_read hn
    | ok d =>
      cases hv : h.read values with
      | error c' => rw [hn, hv] at hc; exact Except.error.inj hc ▸ observed_read hv
      | ok e =>
        rw [hn, hv] at hc
        dsimp only at hc
        split at hc
        · split at hc
          · simp at hc
          · exact ih _ _ hc
        · simp at hc

lemma observed_frameAt {v : Handle} {c : Halt} (hc : h.frameAt v = .error c) : c.Observed := by
  unfold frameAt at hc
  split at hc
  · simp at hc
  · exact Except.error.inj hc ▸ trivial
  · next c' hr => exact Except.error.inj hc ▸ observed_read hr

lemma observed_localSlot {frame symbol : Handle} {c : Halt}
    (hc : h.localSlot frame symbol = .error c) : c.Observed := by
  simp only [localSlot, bind, Except.bind] at hc
  split at hc
  · next c' hf => exact Except.error.inj hc ▸ observed_frameAt hf
  · exact observed_slotIn _ _ _ hc

lemma observed_slotFrom {symbol : Handle} (n : Nat) (env : Handle) {c : Halt}
    (hc : h.slotFrom symbol n env = .error c) : c.Observed := by
  induction n generalizing env with
  | zero => exact Except.error.inj hc ▸ trivial
  | succ n ih =>
    simp only [slotFrom, bind, Except.bind] at hc
    split at hc
    · next c' hl => exact Except.error.inj hc ▸ observed_localSlot hl
    · split at hc
      · simp at hc
      · split at hc
        · next c' hf => exact Except.error.inj hc ▸ observed_frameAt hf
        · split at hc
          · exact ih _ hc
          · simp at hc

lemma observed_walkFrom (n : Nat) (slow fast : Handle) (seen : Array Handle) {c : Halt}
    (hc : h.walkFrom n slow fast seen = .error c) : c.Observed := by
  induction n generalizing slow fast seen with
  | zero => simp [walkFrom] at hc
  | succ n ih =>
    simp only [walkFrom, bind, Except.bind] at hc
    split at hc
    · next c' hr => exact Except.error.inj hc ▸ observed_read hr
    split at hc
    · split at hc
      · next c' hr => exact Except.error.inj hc ▸ observed_read hr
      split at hc
      · split at hc
        · next c' hr =>
          unfold Heap.cdr at hr
          split at hr
          · simp at hr
          · exact Except.error.inj hc ▸ Except.error.inj hr ▸ trivial
          · next c'' hr' => exact Except.error.inj hc ▸ Except.error.inj hr ▸ observed_read hr'
        · split at hc
          · simp at hc
          · exact ih _ _ _ hc
      · simp at hc
    · simp at hc

/-! ## Changing objects -/

lemma sound_overwrite (hw : h.WellFormed) {v : Handle} {d d' : Datum} (hv : h.object? v = some d)
    (hs : d.type ≠ .symbol) (hf : d'.isFree = false)
    (hc : ∀ w ∈ d'.children, h.isLive w = true) :
    ((overwrite v d' : HeapM ε Unit) h).Sound fun _ _ => True :=
  ⟨hw.setCell hv hs hf hc, trivial⟩

lemma sound_setCar (hw : h.WellFormed) {pair v : Handle} (hv : h.isLive v = true) :
    ((HeapM.setCar pair v : HeapM ε Unit) h).Sound fun _ _ => True := by
  refine sound_bind (sound_expect hw _ _ _ fun _ _ => rfl) ?_
  rintro ⟨a, b⟩ h' hw' ⟨rfl, d, hd, hp⟩
  obtain rfl : d = .pair a b := by cases d <;> simp_all [Datum.pair?]
  refine sound_overwrite hw' hd (by simp [Datum.type]) rfl fun w hw'' => ?_
  rcases List.mem_pair.mp hw'' with rfl | rfl
  · exact hv
  · exact hw'.child _ _ hd _ (by simp [Datum.children])

lemma sound_setCdr (hw : h.WellFormed) {pair v : Handle} (hv : h.isLive v = true) :
    ((HeapM.setCdr pair v : HeapM ε Unit) h).Sound fun _ _ => True := by
  refine sound_bind (sound_expect hw _ _ _ fun _ _ => rfl) ?_
  rintro ⟨a, b⟩ h' hw' ⟨rfl, d, hd, hp⟩
  obtain rfl : d = .pair a b := by cases d <;> simp_all [Datum.pair?]
  refine sound_overwrite hw' hd (by simp [Datum.type]) rfl fun w hw'' => ?_
  rcases List.mem_pair.mp hw'' with rfl | rfl
  · exact hw'.child _ _ hd _ (by simp [Datum.children])
  · exact hv

/-! ## Lists -/

lemma Made.reachable {h h' : Heap} {u v : Handle} (hm : h.Made u h') (hv : h.Reachable [] v) :
    h'.Reachable [] v := by
  obtain ⟨-, hfr, hkept⟩ := hm
  induction hv with
  | anchor hv =>
    refine .anchor ?_
    cases hv with
    | sentinel hv => exact .sentinel hv
    | permanent hr hs => exact .permanent (hfr.regionEnd ▸ hr) (hfr.size ▸ hs)
    | root hv => exact .root (hfr.roots ▸ hv)
    | base => exact hfr.baseEnv ▸ .base
    | current => exact hfr.currentEnv ▸ .current
    | extra hv => simp at hv
  | child hu hd hc ih => exact .child ih ((hkept _ hu).trans hd) hc

lemma Made.isLive {h h' : Heap} {u v : Handle} (hw : h.WellFormed) (hm : h.Made u h')
    (hv : h.Reachable [] v) : h'.isLive v = true := by
  rw [isLive_eq_isSome, hm.2.2 v hv, ← isLive_eq_isSome]
  exact hw.isLive_of_reachable (by simp) hv

lemma Reachable.of_root {h : Heap} {v : Handle} (hv : v ∈ h.roots.toList) : h.Reachable [] v :=
  .anchor (.root hv)

/-- Making pairs for objects that are held in root slots. -/
lemma sound_foldrM_cons (hw : h.WellFormed) {vs : List Handle} (hvs : ∀ v ∈ vs, v ∈ h.roots.toList)
    {last : Handle} (hl : h.isLive last = true) :
    ((vs.foldrM HeapM.cons last : EvalM Handle) h).Sound fun v h' =>
      h'.isLive v = true ∧ h'.roots = h.roots := by
  induction vs with
  | nil => exact sound_pure hw ⟨hl, rfl⟩
  | cons v vs ih =>
    rw [List.foldrM_cons]
    refine sound_bind (ih fun w hm => hvs w (by simp [hm])) ?_
    rintro rest h' hw' ⟨hrest, hr⟩
    have hv : h'.isLive v = true := hw'.root v (hr ▸ hvs v (by simp))
    have hc := sound_cons hw' hv hrest
    revert hc
    cases (HeapM.cons v rest) h' with
    | ok u h'' => exact fun hc => ⟨hc.1, hc.2.1, hc.2.2.1.roots.trans hr⟩
    | error _ _ => exact id
    | halt _ => exact id

lemma sound_rootedAll (hw : h.WellFormed) {vs : List Handle} (hvs : ∀ v ∈ vs, h.isLive v = true)
    {body : HeapM ε α} {P : α → Heap → Prop} (us : List Handle)
    (hP : ∀ a (h' : Heap), P a h' → P a { h' with roots := h'.roots.pop })
    (hus : ∀ v ∈ us, v ∈ vs ∨ v ∈ h.roots.toList)
    (hb : ∀ h' : Heap, h'.WellFormed → (∀ v ∈ us, v ∈ h'.roots.toList) → (body h').Sound P) :
    ((rootedAll vs body) h).Sound P := by
  induction vs generalizing h with
  | nil => exact hb h hw fun v hv => (hus v hv).resolve_left (by simp)
  | cons v vs ih =>
    refine sound_rooted hw (hvs v (by simp)) ?_
    have := ih (h := { h with roots := h.roots.push v }) (hw.push (hvs v (by simp)))
      (fun w hm => hvs w (by simp [hm])) fun w hm => by
        rcases hus w hm with hm | hm
        · rcases List.mem_cons.mp hm with rfl | hm
          · exact .inr (by simp)
          · exact .inl hm
        · exact .inr (by simp [Array.mem_toList_iff.mp hm])
    revert this
    cases rootedAll vs body { h with roots := h.roots.push v } with
    | ok a h' => exact fun hp => ⟨hp.1, hP a h' hp.2⟩
    | error _ _ => exact id
    | halt _ => exact id

lemma isLive_emptyList (hw : h.WellFormed) : h.isLive .emptyList = true := by
  refine hw.outside _ ?_ (fun hm => absurd hm.1 (by decide))
  have := hw.layout
  have : regionStart ≤ h.regionEnd := Nat.le_add_right ..
  exact Nat.lt_of_lt_of_le (show 0 < regionStart by decide) (by omega)

lemma sound_list (hw : h.WellFormed) {vs : List Handle} (hvs : ∀ v ∈ vs, h.isLive v = true) :
    ((HeapM.list vs) h).Sound fun v h' => h'.isLive v = true := by
  refine sound_rootedAll hw hvs vs (fun _ _ hv => hv) (fun v hv => .inl hv) ?_
  intro h' hw' hr
  have hc := sound_foldrM_cons hw' hr (isLive_emptyList hw')
  revert hc
  cases (vs.foldrM HeapM.cons Handle.emptyList : EvalM Handle) h' with
  | ok u h'' => exact fun hc => ⟨hc.1, hc.2.1⟩
  | error _ _ => exact id
  | halt _ => exact id

/-- `v` can be reached from `u` through the children of objects. -/
inductive Leads (h : Heap) (u : Handle) : Handle → Prop
  | refl : Leads h u u
  | child {w v : Handle} {d : Datum} (hw : Leads h u w) (hd : h.object? w = some d)
      (hv : v ∈ d.children) : Leads h u v

lemma Leads.reachable {extra : List Handle} {u v : Handle} (hl : h.Leads u v)
    (hu : h.Reachable extra u) : h.Reachable extra v := by
  induction hl with
  | refl => exact hu
  | child _ hd hv ih => exact .child ih hd hv

lemma Leads.congr {h' : Heap} (hc : h'.cells = h.cells) {u v : Handle} (hl : h.Leads u v) :
    h'.Leads u v := by
  induction hl with
  | refl => exact .refl
  | child _ hd hv ih => exact .child ih (by rwa [object?, hc, ← object?]) hv

lemma Made.leads {h' : Heap} {u v w : Handle} (hm : h.Made w h') (hl : h.Leads u v)
    (hu : h.Reachable [] u) : h'.Leads u v := by
  induction hl with
  | refl => exact .refl
  | child hw hd hv ih => exact .child ih ((hm.2.2 _ (hw.reachable hu)).trans hd) hv

lemma leads_pair {u v a b : Handle} (hl : h.Leads u v) (hc : h.cells[v.index]? = some (.pair a b)) :
    h.Leads u a ∧ h.Leads u b := by
  have hd : h.object? v = some (.pair a b) := object?_eq_some.mpr ⟨hc, rfl⟩
  exact ⟨.child hl hd (by simp [Datum.children]), .child hl hd (by simp [Datum.children])⟩

/-- A walk down a spine meets nothing but what the spine leads to. -/
lemma leads_walkFrom {u : Handle} (n : Nat) {slow fast : Handle} {seen : Array Handle} {w : Walk}
    (hw : h.walkFrom n slow fast seen = .ok w) (hf : h.Leads u fast)
    (hs : ∀ v ∈ seen.toList, h.Leads u v) : ∀ v ∈ w.visited, h.Leads u v := by
  induction n generalizing slow fast seen with
  | zero =>
    obtain rfl := Except.ok.inj hw
    exact hs
  | succ n ih =>
    simp only [walkFrom, bind, Except.bind] at hw
    split at hw
    · simp at hw
    next d hr =>
    split at hw
    · next first second =>
      obtain ⟨h1, h2⟩ := leads_pair hf (cells_of_read hr)
      split at hw
      · simp at hw
      next e hr2 =>
      split at hw
      · next head fast' =>
        obtain ⟨h3, h4⟩ := leads_pair h2 (cells_of_read hr2)
        have hs' : ∀ v ∈ ((seen.push first).push head).toList, h.Leads u v := by
          intro v hv
          simp only [Array.toList_push, List.mem_append, List.mem_singleton] at hv
          rcases hv with (hv | rfl) | rfl
          · exact hs v hv
          · exact h1
          · exact h3
        split at hw
        · simp at hw
        · split at hw
          · obtain rfl := Except.ok.inj hw
            exact hs'
          · exact ih hw h4 hs'
      · obtain rfl := Except.ok.inj hw
        intro v hv
        simp only [Array.toList_push, List.mem_append, List.mem_singleton] at hv
        rcases hv with hv | rfl
        · exact hs v hv
        · exact h1
    · obtain rfl := Except.ok.inj hw
      exact hs

/-- Putting copies of the pairs of a list in front of what a root slot holds; the list itself is
held in another slot. -/
lemma sound_forM_copy (hw : h.WellFormed) (front : Handle) (i : Nat) {result : Root}
    (hi : h.roots[i]? = some front) (hne : i ≠ result.slot) {vs : List Handle}
    (hvs : ∀ v ∈ vs, h.Leads front v) :
    ((vs.forM fun v => do store result (← HeapM.cons v (← contents result)) : EvalM PUnit) h).Sound
      fun _ _ => True := by
  induction vs generalizing h with
  | nil => exact sound_pure hw trivial
  | cons v vs ih =>
    rw [List.forM_eq_forM, List.forM_cons, ← List.forM_eq_forM]
    have hfront : h.Reachable [] front :=
      .of_root (Array.mem_toList_iff.mpr (Array.mem_of_getElem? hi))
    refine sound_bind (Q := fun _ h' => h'.roots[i]? = some front ∧ ∀ v ∈ vs, h'.Leads front v) ?_
      fun _ h' hw' ⟨hi', hvs'⟩ => ih hw' hi' hvs'
    refine sound_bind (sound_contents hw result) ?_
    rintro rest _ - ⟨rfl, hrest⟩
    have hv := hw.isLive_of_reachable (by simp) ((hvs v (by simp)).reachable hfront)
    refine sound_bind (sound_cons hw hv (hw.isLive_root hrest)) fun u h' hw' hm => ?_
    have hs := sound_store (ε := Handle) hw' result hm.1
    revert hs
    cases (store result u : EvalM Unit) h' with
    | ok a h'' =>
      rintro ⟨hw'', rfl⟩
      refine ⟨hw'', ?_, fun w hm' => ?_⟩
      · rw [Array.getElem?_setIfInBounds_ne hne.symm, hm.2.1.roots]
        exact hi
      · exact .congr (by rfl) (hm.leads (hvs w (by simp [hm'])) hfront)
    | error _ _ => exact id
    | halt _ => exact id

lemma sound_append (hw : h.WellFormed) {front back : Handle} (hf : h.isLive front = true)
    (hb : h.isLive back = true) : ((HeapM.append front back) h).Sound fun _ _ => True := by
  unfold HeapM.append
  split
  · exact sound_pure hw trivial
  refine sound_bind (Q := fun vs h' => h' = h ∧ ∀ v ∈ vs.getD [], h.Leads front v) ?_ ?_
  · simp only [HeapM.items?, HeapM.walkSpine, bind_apply, inspect]
    cases hwk : h.walkSpine front with
    | error c => exact (observed_walkFrom _ _ _ _ hwk).lawful
    | ok w =>
      refine ⟨hw, rfl, fun v hv => ?_⟩
      simp only [Walk.items?] at hv
      split at hv
      · exact leads_walkFrom _ hwk .refl (by simp) v hv
      · simp at hv
  rintro vs h - ⟨rfl, hvs⟩
  cases vs with
  | none => exact sound_raise hw _ _
  | some vs =>
    refine sound_rooted hw hf (sound_rooted (hw.push hf) hb ?_)
    refine sound_bind (Q := fun _ _ => True) ?_ ?_
    · refine sound_forM_copy ((hw.push hf).push hb) front h.roots.size ?_ ?_ fun v hv => ?_
      · rw [Array.getElem?_push, if_neg (by simp), Array.getElem?_push, if_pos rfl]
      · simp
      · exact .congr (by rfl) (hvs v (by simpa using hv))
    · intro _ h' hw' _
      have hc := sound_contents (ε := Handle) hw' ⟨(h.roots.push front).size⟩
      revert hc
      cases (contents ⟨(h.roots.push front).size⟩ : EvalM Handle) h' with
      | ok a h'' => exact fun hc => ⟨hc.1, trivial⟩
      | error _ _ => exact id
      | halt _ => exact id

/-! ## Environments -/

lemma sound_frameParts (hw : h.WellFormed) (env : Handle) :
    ((frameParts env : HeapM ε _) h).Sound fun parts h' =>
      h' = h ∧ h.object? env = some (.frame parts.1 parts.2.1 parts.2.2) := by
  have hp := sound_expect (ε := ε) hw .environment Datum.frame? env fun _ _ => rfl
  revert hp
  unfold frameParts
  cases (expect .environment Datum.frame? env : HeapM ε _) h with
  | ok parts h' =>
    rintro ⟨hw', rfl, d, hd, hp⟩
    refine ⟨hw', rfl, ?_⟩
    obtain ⟨p, n, v⟩ := parts
    cases d <;> simp_all [Datum.frame?]
  | error _ _ => exact id
  | halt _ => exact id

lemma sound_setBindings (hw : h.WellFormed) {env names values : Handle}
    (hn : h.isLive names = true) (hv : h.isLive values = true) :
    ((setBindings env names values : EvalM Unit) h).Sound fun _ _ => True := by
  refine sound_bind (sound_frameParts hw env) ?_
  rintro ⟨parent, ns, vs⟩ _ - ⟨rfl, hd⟩
  refine sound_overwrite hw hd (by simp [Datum.type]) rfl fun w hm => ?_
  simp only [Datum.children, List.mem_append, Option.mem_toList] at hm
  rcases hm with hm | hm
  · exact hw.child _ _ hd w (by simp [Datum.children, hm])
  · rcases List.mem_pair.mp hm with rfl | rfl
    · exact hn
    · exact hv

lemma sound_define (hw : h.WellFormed) {env symbol v : Handle} (he : h.isLive env = true)
    (hs : h.isLive symbol = true) (hv : h.isLive v = true) :
    ((HeapM.define env symbol v) h).Sound fun _ _ => True := by
  refine sound_bind (sound_inspect hw fun _ hc => (observed_localSlot hc).lawful) ?_
  rintro slot h - rfl
  cases slot with
  | some slot =>
    exact sound_bind (sound_setCar hw hv) fun _ _ hw' _ => sound_pure hw' trivial
  | none =>
    refine sound_rooted hw he (sound_rooted (hw.push he) hv ?_)
    have hw2 := (hw.push he).push hv
    generalize h2def : ({ h with roots := (h.roots.push env).push v } : Heap) = h2 at *
    have henv : h2.Reachable [] env := .of_root (by simp [← h2def])
    have hval : h2.Reachable [] v := .of_root (by simp [← h2def])
    have hsym : h2.isLive symbol = true := by rw [← h2def]; exact hs
    refine sound_bind (sound_frameParts hw2 env) ?_
    rintro ⟨parent, names, values⟩ h2 - ⟨rfl, hd⟩
    have hlists : ∀ w, w = names ∨ w = values → h2.Reachable [] w := fun w hm =>
      .child henv hd (by rcases hm with rfl | rfl <;> simp [Datum.children])
    have hnames := hw2.isLive_of_reachable (by simp) (hlists names (.inl rfl))
    refine sound_bind (sound_cons hw2 hsym hnames) fun names' h3 hw3 hm3 => ?_
    have hval3 : h3.isLive v = true := hm3.isLive hw2 hval
    have hvalues3 : h3.isLive values = true := hm3.isLive hw2 (hlists values (.inr rfl))
    refine sound_rooted hw3 hm3.1 ?_
    refine sound_bind (sound_cons (hw3.push hm3.1) hval3 hvalues3) fun values' h4 hw4 hm4 => ?_
    have hn4 : h4.isLive names' = true := hm4.isLive (hw3.push hm3.1) (.of_root (by simp))
    exact sound_bind (sound_setBindings hw4 hn4 hm4.1) fun _ h5 hw5 _ => sound_pure hw5 trivial

lemma sound_symbolName (hw : h.WellFormed) (symbol : Handle) :
    ((symbolName symbol : HeapM ε String) h).Sound fun _ h' => h' = h := by
  have hp := sound_expect (ε := ε) hw .symbol Datum.symbol? symbol fun _ _ => rfl
  revert hp
  unfold symbolName
  cases (expect .symbol Datum.symbol? symbol : HeapM ε _) h with
  | ok s h' => exact fun hp => ⟨hp.1, hp.2.1⟩
  | error _ _ => exact id
  | halt _ => exact id

lemma sound_unbound (hw : h.WellFormed) (symbol : Handle) {Q : α → Heap → Prop} :
    ((unbound symbol : EvalM α) h).Sound Q :=
  sound_bind (sound_symbolName hw symbol) fun _ _ hw' _ => sound_raise hw' _ _

lemma sound_assign (hw : h.WellFormed) {env symbol v : Handle} (hv : h.isLive v = true) :
    ((HeapM.assign env symbol v) h).Sound fun _ _ => True := by
  refine sound_bind (sound_inspect hw fun _ hc => (observed_slotFrom _ _ hc).lawful) ?_
  rintro slot _ - rfl
  cases slot with
  | some slot =>
    exact sound_bind (sound_setCar hw hv) fun _ _ hw' _ => sound_pure hw' trivial
  | none => exact sound_unbound hw symbol

lemma sound_lookup (hw : h.WellFormed) (env symbol : Handle) :
    ((HeapM.lookup env symbol) h).Sound fun _ _ => True := by
  refine sound_bind (Q := fun _ _ => True) ?_ fun found h' hw' _ => ?_
  · refine sound_bind (sound_inspect hw fun _ hc => (observed_slotFrom _ _ hc).lawful) ?_
    rintro slot _ - rfl
    cases slot with
    | none => exact sound_pure hw trivial
    | some slot =>
      refine sound_bind (Q := fun _ _ => True) ?_ fun _ _ hw' _ => sound_pure hw' trivial
      refine sound_bind (sound_expect hw _ _ _ fun _ _ => rfl) ?_
      rintro _ _ hw' -
      exact sound_pure hw' trivial
  · cases found with
    | some v => exact sound_pure hw' trivial
    | none => exact sound_unbound hw' symbol

/-! ## Histories -/

/-- What a host can do with a heap.  What an operation returns is up to the host to keep. -/
inductive Operation
  | cons (car cdr : Handle)
  | makeInt (n : Int64)
  | makeReal (x : Flonum)
  | makeChar (byte : UInt8)
  | makeString (s : String)
  | makeClosure (env params body : Handle)
  | makeFrame (parent : Option Handle) (names values : Handle)
  | makeError (kind : ErrorKind) (message : String)
  | makeForeign (name : String) (code : Native)
  | intern (name : String)
  | list (vs : List Handle)
  | append (front back : Handle)
  | setCar (pair v : Handle)
  | setCdr (pair v : Handle)
  | acquire (v : Handle)
  | release (root : Root)
  | put (root : Root) (v : Handle)
  | setCurrentEnv (env : Handle)
  | pushFrame (names values : Handle)
  | popFrame
  | define (env symbol v : Handle)
  | assign (env symbol v : Handle)
  | lookup (env symbol : Handle)
  | collect
  | reset

namespace Operation

/-- The handles that an operation is given. -/
def handles : Operation → List Handle
  | cons a b | append a b | setCar a b | setCdr a b | pushFrame a b | lookup a b => [a, b]
  | makeClosure a b c | define a b c | assign a b c => [a, b, c]
  | makeFrame parent names values => parent.toList ++ [names, values]
  | list vs => vs
  | acquire v | put _ v | setCurrentEnv v => [v]
  | makeInt _ | makeReal _ | makeChar _ | makeString _ | makeError .. | makeForeign .. | intern _
  | release _ | popFrame | collect | reset => []

/-- Carry out an operation. -/
def perform : Operation → EvalM Unit
  | cons a b => do let _ ← HeapM.cons a b
  | makeInt n => do let _ ← HeapM.makeInt n
  | makeReal x => do let _ ← HeapM.makeReal x
  | makeChar b => do let _ ← HeapM.makeChar b
  | makeString s => do let _ ← HeapM.makeString s
  | makeClosure env params body => do let _ ← HeapM.makeClosure env params body
  | makeFrame parent names values => do let _ ← HeapM.makeFrame parent names values
  | makeError kind message => do let _ ← HeapM.makeError kind message
  | makeForeign name code => do let _ ← HeapM.makeForeign name code
  | intern name => do let _ ← HeapM.intern name
  | list vs => do let _ ← HeapM.list vs
  | append front back => do let _ ← HeapM.append front back
  | setCar pair v => HeapM.setCar pair v
  | setCdr pair v => HeapM.setCdr pair v
  | acquire v => do let _ ← HeapM.acquire v
  | release root => do let _ ← HeapM.release root
  | put root v => HeapM.store root v
  | setCurrentEnv env => HeapM.setCurrentEnv env
  | pushFrame names values => do let _ ← HeapM.pushFrame names values
  | popFrame => HeapM.popFrame
  | define env symbol v => do let _ ← HeapM.define env symbol v
  | assign env symbol v => do let _ ← HeapM.assign env symbol v
  | lookup env symbol => do let _ ← HeapM.lookup env symbol
  | collect => do let _ ← HeapM.collect
  | reset => HeapM.reset

end Operation

/-- The heaps that a host can bring about, starting from a new heap of the given sizes, audited or
not.  An operation is given handles of objects only.  It may return or fail, but not halt. -/
inductive Attained (s : Sizing) : Heap → Prop
  | new : Attained s (ofSizing s)
  | audited : Attained s (ofSizing s).audit
  | returned {h h' : Heap} (op : Operation) (ha : Attained s h)
      (hv : ∀ v ∈ op.handles, h.isLive v = true) (hr : op.perform h = .ok () h') : Attained s h'
  | failed {h h' : Heap} {e : Handle} (op : Operation) (ha : Attained s h)
      (hv : ∀ v ∈ op.handles, h.isLive v = true) (hr : op.perform h = .error e h') : Attained s h'

lemma sound_discard {x : EvalM α} {Q : α → Heap → Prop} (hx : (x h).Sound Q) :
    ((do let _ ← x) h : Outcome Handle Unit).Sound fun _ _ => True :=
  sound_bind hx fun _ _ hw' _ => sound_pure hw' trivial

lemma setCurrentEnv_apply (env : Handle) (h : Heap) :
    (HeapM.setCurrentEnv env : HeapM ε Unit) h =
      if h.audited then
        match h.read env with
        | .ok d => if d.type = .environment then .ok () { h with currentEnv := env }
          else .halt .currentNotFrame
        | .error c => .halt c
      else .ok () { h with currentEnv := env } := by
  cases ha : h.audited with
  | false => simp [HeapM.setCurrentEnv, bind_apply, observe, switchEnv, change, ha]
  | true =>
    cases hr : h.read env with
    | error c =>
      simp [HeapM.setCurrentEnv, hasType, typeOf, datum, inspect, bind_apply, observe, ha, hr]
    | ok d =>
      by_cases ht : d.type = .environment <;>
        simp [HeapM.setCurrentEnv, hasType, typeOf, datum, inspect, bind_apply, observe, switchEnv,
          change, HeapM.halt, ha, hr, ht]

lemma sound_setCurrentEnv (hw : h.WellFormed) {env : Handle} (he : h.isLive env = true) :
    ((HeapM.setCurrentEnv env : EvalM Unit) h).Sound fun _ _ => True := by
  rw [setCurrentEnv_apply]
  split
  · rcases h.read_cases env with ⟨d, hd, hr⟩ | ⟨c, hc, hr⟩ <;> rw [hr]
    · dsimp only
      split
      · exact ⟨hw.switchEnv he, trivial⟩
      · exact trivial
    · exact hc.lawful
  · exact ⟨hw.switchEnv he, trivial⟩

lemma sound_pushFrame (hw : h.WellFormed) {names values : Handle} (hn : h.isLive names = true)
    (hv : h.isLive values = true) : ((HeapM.pushFrame names values) h).Sound fun _ _ => True := by
  refine sound_bind (Q := fun env h' => env = h.currentEnv ∧ h' = h) ⟨hw, rfl, rfl⟩ ?_
  rintro _ _ - ⟨rfl, rfl⟩
  refine sound_bind (sound_alloc hw rfl fun w hm => ?_) fun frame h' hw' hm => ?_
  · simp only [Datum.children, Option.toList_some, List.mem_append, List.mem_cons,
      List.not_mem_nil, or_false] at hm
    rcases hm with rfl | rfl | rfl
    · exact hw.current
    · exact hn
    · exact hv
  · exact ⟨hw'.switchEnv hm.1, trivial⟩

lemma sound_popFrame (hw : h.WellFormed) :
    ((HeapM.popFrame : EvalM Unit) h).Sound fun _ _ => True := by
  refine sound_bind (Q := fun env h' => env = h.currentEnv ∧ h' = h) ⟨hw, rfl, rfl⟩ ?_
  rintro _ h - ⟨rfl, rfl⟩
  refine sound_bind (sound_frameParts hw h.currentEnv) ?_
  rintro ⟨parent, names, values⟩ h - ⟨rfl, hd⟩
  cases parent with
  | none => exact trivial
  | some parent =>
    exact ⟨hw.switchEnv (hw.child _ _ hd _ (by simp [Datum.children])), trivial⟩

lemma sound_collect (hw : h.WellFormed) :
    ((HeapM.collect : EvalM Collection) h).Sound fun _ h' => h'.roots = h.roots := by
  obtain ⟨c, h', hrun, hcoll⟩ := collectKeeping_spec hw.toClosed [] (by simp)
  have hrun' : h.collect = .ok (c, h') := hrun
  simp only [HeapM.collect, attempt, hrun']
  exact ⟨hcoll.wellFormed hw (by simp), hcoll.frame.roots⟩

lemma WellFormed.audit (hw : h.WellFormed) (b : Bool) :
    ({ h with audited := b } : Heap).WellFormed :=
  ⟨⟨hw.layout, hw.outside, hw.child, hw.root, hw.base, hw.current⟩,
    hw.free.imp fun _ hl => ⟨hl.list, hl.nodup, hl.mem_iff, hl.count⟩, hw.table⟩

lemma sound_reset (hw : h.WellFormed) : ((HeapM.reset : EvalM Unit) h).Sound fun _ _ => True := by
  refine sound_bind (Q := fun depth h' => depth = h.roots.size ∧ h' = h) ⟨hw, rfl, rfl⟩ ?_
  rintro depth h' - ⟨rfl, rfl⟩
  split
  · exact sound_bind (sound_collect hw) fun _ h' _ _ =>
      ⟨(wellFormed_ofSizing h'.sizing).audit h'.audited, trivial⟩
  · exact trivial

/-- No operation damages the arena: the step of the induction over histories. -/
lemma sound_perform (hw : h.WellFormed) (op : Operation)
    (hv : ∀ v ∈ op.handles, h.isLive v = true) : (op.perform h).Sound fun _ _ => True := by
  have leaf : ∀ {d : Datum}, d.isFree = false → d.children = [] →
      ((do let _ ← alloc d) h : Outcome Handle Unit).Sound fun _ _ => True :=
    fun hf hc => sound_discard (sound_alloc hw hf (by simp [hc]))
  cases op with
  | cons a b => exact sound_discard (sound_cons hw (hv a (by simp [Operation.handles]))
      (hv b (by simp [Operation.handles])))
  | makeInt n => exact leaf rfl rfl
  | makeReal x => exact leaf rfl rfl
  | makeChar b => exact leaf rfl rfl
  | makeString s => exact leaf rfl rfl
  | makeClosure env params body => exact sound_discard (sound_alloc hw rfl hv)
  | makeFrame parent names values => exact sound_discard (sound_alloc hw rfl hv)
  | makeError kind message => exact sound_discard (sound_makeError hw kind message)
  | makeForeign name code => exact ⟨hw.addPermanent rfl (by simp [Datum.children]), trivial⟩
  | intern name => exact ⟨(hw.intern name).1, trivial⟩
  | list vs => exact sound_discard (sound_list hw hv)
  | append front back => exact sound_discard (sound_append hw (hv _ (by simp [Operation.handles]))
      (hv _ (by simp [Operation.handles])))
  | setCar pair v => exact sound_setCar hw (hv _ (by simp [Operation.handles]))
  | setCdr pair v => exact sound_setCdr hw (hv _ (by simp [Operation.handles]))
  | acquire v => exact sound_discard (sound_acquire hw (hv _ (by simp [Operation.handles])))
  | release root => exact sound_discard (sound_release hw root)
  | put root v =>
    have hs := sound_store (ε := Handle) hw root (hv v (by simp [Operation.handles]))
    revert hs
    simp only [Operation.perform]
    cases (store root v : EvalM Unit) h with
    | ok _ _ => exact fun hs => ⟨hs.1, trivial⟩
    | error _ _ => exact id
    | halt _ => exact id
  | setCurrentEnv env => exact sound_setCurrentEnv hw (hv _ (by simp [Operation.handles]))
  | pushFrame names values => exact sound_discard (sound_pushFrame hw
      (hv _ (by simp [Operation.handles])) (hv _ (by simp [Operation.handles])))
  | popFrame => exact sound_popFrame hw
  | define env symbol v => exact sound_discard (sound_define hw (hv _ (by simp [Operation.handles]))
      (hv _ (by simp [Operation.handles])) (hv _ (by simp [Operation.handles])))
  | assign env symbol v =>
    exact sound_discard (sound_assign hw (hv _ (by simp [Operation.handles])))
  | lookup env symbol => exact sound_discard (sound_lookup hw env symbol)
  | collect => exact sound_discard (sound_collect hw)
  | reset => exact sound_reset hw

lemma Attained.invariant {s : Sizing} {h : Heap} (ha : Attained s h) : h.WellFormed := by
  induction ha with
  | new => exact wellFormed_ofSizing s
  | audited => exact (wellFormed_ofSizing s).audit true
  | returned op _ hv hr ih =>
    have hs := sound_perform ih op hv
    rw [hr] at hs
    exact hs.1
  | failed op _ hv hr ih =>
    have hs := sound_perform ih op hv
    rw [hr] at hs
    exact hs

/-- Every heap that a host can bring about is well formed: its free list is duplicate-free and
consistently linked and runs exactly through the free cells, which are collectible cells and as many
as the heap says; and no object, root slot or named frame refers to a free cell. -/
theorem attained_wellFormed {s : Sizing} {h : Heap} (ha : Attained s h) :
    h.WellFormed ∧ h.freeCount + h.liveCount = h.capacity :=
  ⟨ha.invariant, ha.invariant.freeCount_add_liveCount⟩

theorem attained_wellFormed_loop : ∃ h, Attained ⟨2, 1⟩ h ∧ h.freeCount = 0 ∧
    h.object? ⟨4⟩ = some (.pair .trueObject ⟨4⟩) ∧ h.WellFormed ∧
    h.freeCount + h.liveCount = h.capacity := by
  -- a pair in a root slot that becomes its own tail, and a second pair that takes the last cell
  have ha : Attained ⟨2, 1⟩ _ := .returned (.cons .emptyList .emptyList)
    (.returned (.setCdr ⟨4⟩ ⟨4⟩) (.returned (.acquire ⟨4⟩)
      (.returned (.cons .trueObject .emptyList) .new (by decide) rfl) (by decide) rfl)
      (by decide) rfl) (by decide) rfl
  exact ⟨_, ha, rfl, rfl, attained_wellFormed ha⟩

/-- A halt in the history of a heap is never a sign of a damaged arena. -/
theorem Attained.lawful_halt {s : Sizing} {h : Heap} (ha : Attained s h) {op : Operation}
    (hv : ∀ v ∈ op.handles, h.isLive v = true) {c : Halt} (hr : op.perform h = .halt c) :
    c.Lawful := by
  have := sound_perform ha.invariant op hv
  rw [hr] at this
  exact this

end Heap

end ArenaScheme
