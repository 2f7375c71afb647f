/-
# Changes that keep bindings hidden

Each elementary change of a heap preserves the invariant, whereby the veil may change too.  A new
pair is a draft at first; it is shown by taking the veil off it.  Replacing the head of a pair by an
open object is always harmless, replacing the tail is if the pair is a draft or open, and a draft in
front of the list of values of a frame may become a binding of it.

How a heap comes from another one is put down in `Advance`: what has been open is open still, what
has been a frame is one, and certain cells are as they were.
-/
import ArenaScheme.Proofs.Seclusion.Heaps

namespace ArenaScheme

namespace Heap

variable {h k : Heap} {C : Set Handle} {V W : Veil} {l : List Handle} {a b c f u v : Handle}
  {d : Datum}

/-- No collection has been run. -/
def Unswept (h : Heap) : Prop := h.collections = 0

/-! ## Taking a cell into use -/

/-- Lists stay as they are when a vacant cell is filled. -/
lemma Spine.fresh (hl : h.Spine l u) (hn : h.object? v = none) (hr : h.Rewritten v d k) :
    k.Spine l u := by
  refine hl.congr fun c _ x y hp => ⟨x, ?_⟩
  have hne : c ≠ v := by
    rintro rfl
    rw [hn] at hp
    simp at hp
  rw [hr.other hne]
  exact hp

/-- Filling a vacant cell.  The list of values of a new frame has to consist of drafts. -/
lemma Decent.fresh (hs : h.Sealed V) (hn : h.object? v = none) (hr : h.Rewritten v d k)
    (hchildren : ∀ c ∈ d.children, ∃ e, h.object? c = some e)
    (hparts : ∀ c ∈ d.parts, ¬ h.Hidden V.cells c)
    (hW : ∀ c ∈ W.cells, c ∈ V.cells ∨ c = v ∧ ∃ a b, d = .pair a b) (hslots : W.slots = V.slots)
    (hframe : ∀ p n w, d = .frame p n w → (∃ q, p = some q ∧ h.IsFrame q) ∧
      ∃ l, h.Spine l w ∧ ∀ c ∈ l, c ∈ V.cells ∧ c ∉ W.cells)
    (hclosure : ∀ e p b, d = .closure e p b → h.IsFrame e) : Decent V W h v d k := by
  have hlive : ∀ {u}, (∃ e, h.object? u = some e) → u ≠ v := by
    rintro _ ⟨e, he⟩ rfl
    rw [hn] at he
    simp at he
  have hnil : k.object? .emptyList = some .emptyList := by
    rw [hr.other (hlive ⟨_, hs.emptyList⟩)]
    exact hs.emptyList
  have hbinds : ∀ f c, k.Binds f c → h.Binds f c ∨ f = v ∧ c ∈ V.cells ∧ c ∉ W.cells := by
    rintro f c ⟨p, n, w, l, hf, hl, hc⟩
    by_cases he : f = v
    · subst he
      rw [hr.self] at hf
      obtain ⟨-, l', hl', hV⟩ := hframe p n w (Option.some.inj hf)
      obtain rfl := hl.unique hnil (hl'.fresh hn hr)
      exact .inr ⟨rfl, hV c hc⟩
    · rw [hr.other he] at hf
      obtain ⟨l', hl'⟩ := hs.listed f p n w hf
      obtain rfl := hl.unique hnil (hl'.fresh hn hr)
      exact .inl ⟨p, n, w, l, hf, hl', hc⟩
  refine ⟨hr, .inl hn, hchildren, hparts, fun u hu hh => ?_, hbinds, fun f p n w hf => ?_,
    fun c hc => ?_, hslots, fun p n w hd _ => (hframe p n w hd).1, hclosure⟩
  · induction hh with
    | draft hc =>
      rcases hW _ hc with hc | ⟨he, -⟩
      · exact .draft hc
      · exact absurd he (hlive hu)
    | @binding f c hb =>
      rcases hbinds f c hb with hb | ⟨-, hc, -⟩
      · exact .binding hb
      · exact .draft hc
    | tail hp _ ih =>
      rw [hr.other (hlive hu)] at hp
      exact .tail hp (ih (hs.attached _ _ hp _ (by simp [Datum.children])))
  · by_cases he : f = v
    · subst he
      rw [hr.self] at hf
      obtain ⟨-, l, hl, -⟩ := hframe p n w (Option.some.inj hf)
      exact ⟨l, hl.fresh hn hr⟩
    · rw [hr.other he] at hf
      obtain ⟨l, hl⟩ := hs.listed f p n w hf
      exact ⟨l, hl.fresh hn hr⟩
  · rcases hW c hc with hc | ⟨he, hd⟩
    · exact .inl hc
    · exact .inr ⟨he, hn, hd⟩

/-! ## Replacing the contents of a cell -/

/-- Replacing head and tail of a pair. -/
lemma Decent.setPair (hs : h.Sealed V) {a' b' : Handle} (hp : h.object? v = some (.pair a b))
    (ha : h.Open V.cells a') (hb : b' = b ∨ (∃ e, h.object? b' = some e) ∧
      (v ∈ V.cells ∨ h.Open V.cells v ∧ h.Open V.cells b')) :
    Decent V V h v (.pair a' b') (h.setCell v.index (.pair a' b')) := by
  have hr : h.Rewritten v (.pair a' b') (h.setCell v.index (.pair a' b')) := .setCell hp rfl
  have hb' : ∃ e, h.object? b' = some e := by
    rcases hb with rfl | ⟨hb, -⟩
    · exact hs.attached v _ hp _ (by simp [Datum.children])
    · exact hb
  -- a binding keeps its tail, since it is neither a draft nor open
  have hspine : ∀ {f p n w l}, h.object? f = some (.frame p n w) → h.Spine l w →
      (h.setCell v.index (.pair a' b')).Spine l w := by
    intro f p n w l hf hl
    refine hl.congr fun c hc x y hxy => ?_
    by_cases he : c = v
    · subst he
      rw [hp] at hxy
      obtain ⟨rfl, rfl⟩ := Datum.pair.inj (Option.some.inj hxy)
      have hbound : h.Binds f c := ⟨p, n, w, l, hf, hl, hc⟩
      rcases hb with rfl | ⟨-, hV | ⟨ho, -⟩⟩
      · exact ⟨a', hr.self⟩
      · exact absurd hV (hs.undrafted f c hbound)
      · exact absurd (.binding hbound) ho.not_hidden
    · exact ⟨x, by rw [hr.other he]; exact hxy⟩
  have hframe : ∀ {f p n w}, (h.setCell v.index (.pair a' b')).object? f = some (.frame p n w) →
      h.object? f = some (.frame p n w) := by
    intro f p n w hf
    by_cases he : f = v
    · subst he
      rw [hr.self] at hf
      simp at hf
    · rwa [hr.other he] at hf
  have hnil : (h.setCell v.index (.pair a' b')).object? .emptyList = some .emptyList := by
    have hne : Handle.emptyList ≠ v := by
      rintro rfl
      rw [hs.emptyList] at hp
      simp at hp
    rw [hr.other hne]
    exact hs.emptyList
  have hbinds : ∀ f c, (h.setCell v.index (.pair a' b')).Binds f c → h.Binds f c := by
    rintro f c ⟨p, n, w, l, hf, hl, hc⟩
    obtain ⟨l', hl'⟩ := hs.listed f p n w (hframe hf)
    obtain rfl := hl.unique hnil (hspine (hframe hf) hl')
    exact ⟨p, n, w, l, hframe hf, hl', hc⟩
  refine ⟨hr, .inr (.inl ⟨a, b, a', b', hp, rfl⟩), fun c hc => ?_, fun c hc => ?_,
    fun u hu hh => ?_, fun f c hc => .inl (hbinds f c hc), fun f p n w hf => ?_, fun c hc =>
      .inl hc, rfl, by simp,
    by simp⟩
  · simp only [Datum.children, List.mem_cons, List.not_mem_nil, or_false] at hc
    rcases hc with rfl | rfl
    · exact ha.live
    · exact hb'
  · simp only [Datum.parts, List.mem_singleton] at hc
    subst hc
    exact ha.not_hidden
  · induction hh with
    | draft hc => exact .draft hc
    | binding hc => exact .binding (hbinds _ _ hc)
    | @tail u x y hu' _ ih =>
      by_cases he : u = v
      · subst he
        rw [hr.self] at hu'
        obtain ⟨rfl, rfl⟩ := Datum.pair.inj (Option.some.inj hu')
        have hh := ih hb'
        rcases hb with rfl | ⟨-, hV | ⟨-, ho⟩⟩
        · exact .tail hp hh
        · exact .draft hV
        · exact absurd hh ho.not_hidden
      · rw [hr.other he] at hu'
        exact .tail hu' (ih (hs.attached _ _ hu' _ (by simp [Datum.children])))
  · obtain ⟨l, hl⟩ := hs.listed f p n w (hframe hf)
    exact ⟨l, hspine (hframe hf) hl⟩

/-- Putting a name and a draft in front of the two lists of a frame. -/
lemma Decent.rebind (hs : h.Sealed V) {p : Option Handle} {n w n' w' : Handle}
    (hf : h.object? v = some (.frame p n w)) (hn : h.Open V.cells n')
    (hw : h.object? w' = some (.pair a w)) (hw' : w' ∈ V.cells) (hW : W.cells ⊆ V.cells)
    (hnot : w' ∉ W.cells) (hslots : W.slots = V.slots) :
    Decent V W h v (.frame p n' w') (h.setCell v.index (.frame p n' w')) := by
  have hr : h.Rewritten v (.frame p n' w') (h.setCell v.index (.frame p n' w')) := .setCell hf rfl
  have hspine : ∀ {l u}, h.Spine l u → (h.setCell v.index (.frame p n' w')).Spine l u := by
    intro l u hl
    refine hl.congr fun c _ x y hxy => ⟨x, ?_⟩
    have hne : c ≠ v := by
      rintro rfl
      rw [hf] at hxy
      simp at hxy
    rw [hr.other hne]
    exact hxy
  have hne : Handle.emptyList ≠ v := by
    rintro rfl
    rw [hs.emptyList] at hf
    simp at hf
  have hnil : (h.setCell v.index (.frame p n' w')).object? .emptyList = some .emptyList := by
    rw [hr.other hne]
    exact hs.emptyList
  obtain ⟨l, hl⟩ := hs.listed v p n w hf
  have hnew : h.Spine (w' :: l) w' := ⟨rfl, a, w, hw, hl⟩
  have hbinds : ∀ f c, (h.setCell v.index (.frame p n' w')).Binds f c →
      h.Binds f c ∨ f = v ∧ c ∈ V.cells ∧ c ∉ W.cells := by
    rintro f c ⟨p', m, x, l', hf', hl', hc⟩
    by_cases he : f = v
    · subst he
      rw [hr.self] at hf'
      obtain ⟨rfl, rfl, rfl⟩ := Datum.frame.inj (Option.some.inj hf')
      obtain rfl := hl'.unique hnil (hspine hnew)
      rcases List.mem_cons.mp hc with rfl | hc
      · exact .inr ⟨rfl, hw', hnot⟩
      · exact .inl ⟨_, _, _, l, hf, hl, hc⟩
    · rw [hr.other he] at hf'
      obtain ⟨l'', hl''⟩ := hs.listed f p' m x hf'
      obtain rfl := hl'.unique hnil (hspine hl'')
      exact .inl ⟨p', m, x, l', hf', hl'', hc⟩
  refine ⟨hr, .inr (.inr ⟨p, n, w, n', w', hf, rfl⟩), fun c hc => ?_, fun c hc => ?_,
    fun u hu hh => ?_, hbinds, fun f p' m x hf' => ?_, fun c hc => .inl (hW hc), hslots,
    fun p' m x he hv => ?_, by simp⟩
  · simp only [Datum.children, List.mem_append, List.mem_cons, List.not_mem_nil, or_false] at hc
    rcases hc with hc | rfl | rfl
    · exact hs.attached v _ hf c (by simp only [Datum.children, List.mem_append]; exact .inl hc)
    · exact hn.live
    · exact ⟨_, hw⟩
  · simp only [Datum.parts, List.mem_append, List.mem_singleton] at hc
    rcases hc with hc | rfl
    · exact hs.parts v _ hf c (by simp only [Datum.parts, List.mem_append]; exact .inl hc)
    · exact hn.not_hidden
  · induction hh with
    | draft hc => exact .draft (hW hc)
    | @binding f c hb =>
      rcases hbinds f c hb with hb | ⟨-, hc, -⟩
      · exact .binding hb
      · exact .draft hc
    | @tail u x y hu' _ ih =>
      have hne : u ≠ v := by
        rintro rfl
        rw [hr.self] at hu'
        simp at hu'
      rw [hr.other hne] at hu'
      exact .tail hu' (ih (hs.attached _ _ hu' _ (by simp [Datum.children])))
  · by_cases he : f = v
    · subst he
      rw [hr.self] at hf'
      obtain ⟨rfl, rfl, rfl⟩ := Datum.frame.inj (Option.some.inj hf')
      exact ⟨_, hspine hnew⟩
    · rw [hr.other he] at hf'
      obtain ⟨l', hl'⟩ := hs.listed f p' m x hf'
      exact ⟨l', hspine hl'⟩
  · rw [hf] at hv
    simp at hv

end Heap

end ArenaScheme
