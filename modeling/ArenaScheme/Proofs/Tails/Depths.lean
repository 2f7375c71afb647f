/-
# The deepest root stack

An action that occupies root slots comes to its end if the root stack may be long enough, and
overflows it otherwise.  `o.Peaks s d P` says this of the outcome `o` of an action on a heap that
may have `s` slots: with `d` slots and more it returns a value and a heap as `P` says, and with
fewer the stack overflows.  So `d` is how deep the stack gets, no more and no less.

Of two actions one after the other the deeper one decides.  Holding an object in a slot takes as
many slots as there are then, and a nested evaluation takes two: one for the frame to return to, and
one for the expression.
-/
import ArenaScheme.Proofs.Tails.Turns
import ArenaScheme.Proofs.Templates.Evaluation

namespace ArenaScheme

open Heap HeapM Evaluator

/-- With `d` root slots the action returns a value and a heap as `P` says, and with fewer it
overflows the root stack; there are `s`. -/
def Outcome.Peaks {ε α : Type} (o : Outcome ε α) (s d : Nat) (P : α → Heap → Prop) : Prop :=
  if d ≤ s then ∃ a k, o = .ok a k ∧ P a k else o = .halt (.rootOverflow s)

section Peaks

variable {ε ε' α β : Type} {o : Outcome ε α} {h k : Heap} {s d d' n : Nat} {a : α}
  {P Q : α → Heap → Prop} {R : β → Heap → Prop}

namespace Outcome.Peaks

lemma mono (ho : o.Peaks s d P) (hq : ∀ a k, P a k → Q a k) : o.Peaks s d Q := by
  unfold Peaks at ho ⊢
  split at ho
  · next hd =>
    obtain ⟨a, k, ho, hp⟩ := ho
    rw [if_pos hd]
    exact ⟨a, k, ho, hq a k hp⟩
  · next hd =>
    rw [if_neg hd]
    exact ho

/-- If there are enough slots there is a value. -/
lemma exists_ok (ho : o.Peaks s d P) (hd : d ≤ s) : ∃ a k, o = .ok a k ∧ P a k := by
  rwa [Peaks, if_pos hd] at ho

end Outcome.Peaks

/-- What occupies no slot overflows no stack. -/
lemma peaks_of_ok (ho : o = .ok a k) (hp : P a k) : o.Peaks s 0 P := by
  rw [Outcome.Peaks, if_pos (Nat.zero_le s)]
  exact ⟨a, k, ho, hp⟩

lemma peaks_bind {x : HeapM ε α} {f : α → HeapM ε β} (hx : (x h).Peaks s d P)
    (hf : ∀ a k, P a k → (f a k).Peaks s d' R) : ((x >>= f) h).Peaks s (max d d') R := by
  unfold Outcome.Peaks at hx hf ⊢
  split at hx
  · next hd =>
    obtain ⟨a, k, hx, hp⟩ := hx
    have hk := hf a k hp
    rw [bind_of_ok hx]
    by_cases hd' : d' ≤ s
    · rw [if_pos hd'] at hk
      rwa [if_pos (Nat.max_le.mpr ⟨hd, hd'⟩)]
    · rw [if_neg hd'] at hk
      rwa [if_neg fun hm => hd' (Nat.max_le.mp hm).2]
  · next hd =>
    rw [if_neg fun hm => hd (Nat.max_le.mp hm).1]
    exact bind_of_halt hx

/-- An action that occupies no slot, and then another one. -/
lemma peaks_bind_of_ok {x : HeapM ε α} {f : α → HeapM ε β} (hx : x h = .ok a k)
    (hf : (f a k).Peaks s d R) : ((x >>= f) h).Peaks s d R := by
  rwa [bind_of_ok hx]

lemma peaks_recover {x : HeapM ε α} {f : ε → α} (hx : (x h).Peaks s d P) :
    (recover x f h : Outcome ε' α).Peaks s d P := by
  unfold Outcome.Peaks at hx ⊢
  split at hx
  · next hd =>
    obtain ⟨a, k, hx, hp⟩ := hx
    rw [if_pos hd]
    exact ⟨a, k, by rw [recover, hx], hp⟩
  · next hd =>
    rw [if_neg hd, recover, hx]

/-- Holding an object in a slot of its own. -/
lemma peaks_rooted {v : Handle} {body : Root → HeapM ε α} (hs : h.rootSlots = s)
    (hb : (body ⟨h.roots.size⟩ { h with roots := h.roots.push v }).Peaks s d
      fun a k => k.roots.size = h.roots.size + 1 ∧ P a { k with roots := k.roots.pop }) :
    (rooted v body h).Peaks s (max (h.roots.size + 1) d) P := by
  by_cases hroom : h.roots.size < h.rootSlots
  · unfold Outcome.Peaks at hb ⊢
    split at hb
    · next hd =>
      obtain ⟨a, k, hb, hk, hp⟩ := hb
      rw [if_pos (Nat.max_le.mpr ⟨hs ▸ hroom, hd⟩)]
      exact ⟨a, _, rooted_of_ok hroom hb hk, hp⟩
    · next hd =>
      rw [if_neg fun hm => hd (Nat.max_le.mp hm).2, rooted, bind_of_ok (acquire_apply hroom v),
        ensuring, hb]
  · rw [Outcome.Peaks, if_neg fun hm => hroom (hs ▸ (Nat.max_le.mp hm).1), rooted, bind_of_halt]
    rw [acquire, if_neg hroom, hs]

/-- Returning to the frame that was current. -/
lemma peaks_keepingEnv {x : EvalM α} (hs : h.rootSlots = s)
    (hx : (x { h with roots := h.roots.push h.currentEnv }).Peaks s d fun a k =>
      k.roots.size = h.roots.size + 1 ∧ k.IsFrame h.currentEnv ∧
        P a { k with roots := k.roots.pop, currentEnv := h.currentEnv }) :
    (keepingEnv x h).Peaks s (max (h.roots.size + 1) d) P := by
  refine peaks_bind_of_ok (show (HeapM.currentEnv : EvalM Handle) h = .ok h.currentEnv h from rfl)
    (peaks_rooted hs ?_)
  unfold Outcome.Peaks at hx ⊢
  split at hx
  · next hd =>
    obtain ⟨a, k, hx, hk, ⟨p, names, values, hf⟩, hp⟩ := hx
    rw [if_pos hd]
    refine ⟨a, { k with currentEnv := h.currentEnv }, ?_, hk, hp⟩
    rw [ensuring, hx]
    dsimp only
    rw [setCurrentEnv_frame hf]
  · next hd =>
    rw [if_neg hd, ensuring, hx]

end Peaks

/-! ## Evaluations -/

variable {ctx : Context} {h k : Heap} {s d d' n budget : Nat} {focus : Focus} {expr u v : Handle}
  {P : Handle → Heap → Prop}

/-- The last turn. -/
lemma peaks_loop_done (hv : h.roots[n]? = some u)
    (hs : (step ctx (nestedEval ctx budget) budget focus u h).Peaks s d
      fun r k => ∃ v, r = .done v ∧ P v k) : (loop ctx (budget + 1) ⟨n⟩ focus h).Peaks s d P := by
  rw [loop_succ, turn, ← Nat.max_zero d, bind_assoc]
  refine peaks_bind_of_ok (contents_apply hv) ?_
  rw [bind_assoc]
  refine peaks_bind hs fun r k hr => ?_
  obtain ⟨v, rfl, hp⟩ := hr
  exact peaks_of_ok rfl hp

/-- A turn after which there is another one. -/
lemma peaks_loop_again (hv : h.roots[n]? = some u)
    (hs : (step ctx (nestedEval ctx budget) budget focus u h).Peaks s d fun r k =>
      ∃ focus v, r = Focus.next focus v ∧ n < k.roots.size ∧
        (loop ctx budget ⟨n⟩ focus { k with roots := k.roots.setIfInBounds n v }).Peaks s d' P) :
    (loop ctx (budget + 1) ⟨n⟩ focus h).Peaks s (max d d') P := by
  rw [loop_succ, turn, bind_assoc]
  refine peaks_bind_of_ok (contents_apply hv) ?_
  rw [bind_assoc]
  refine peaks_bind hs fun r k hr => ?_
  obtain ⟨focus, v, rfl, hn, hk⟩ := hr
  cases focus <;> exact peaks_bind_of_ok (bind_of_ok (store_apply hn v)) hk

/-- An evaluation takes a slot for the expression. -/
lemma peaks_runWith (hs : h.rootSlots = s)
    (hl : (loop ctx budget ⟨h.roots.size⟩ .expr { h with roots := h.roots.push expr }).Peaks s d
      fun v k => k.roots.size = h.roots.size + 1 ∧ P v { k with roots := k.roots.pop }) :
    (runWith (loop ctx budget) expr h).Peaks s (max (h.roots.size + 1) d) P :=
  peaks_rooted hs hl

/-- A nested one takes another slot for the frame to return to. -/
lemma peaks_nestedEval (hs : h.rootSlots = s)
    (hl : (loop ctx budget ⟨h.roots.size + 1⟩ .expr
      { h with roots := (h.roots.push h.currentEnv).push expr }).Peaks s d fun v k =>
        k.roots.size = h.roots.size + 2 ∧ k.IsFrame h.currentEnv ∧
          P v { k with roots := k.roots.pop.pop, currentEnv := h.currentEnv }) :
    (nestedEval ctx budget expr h).Peaks s (max (h.roots.size + 2) d) P := by
  have hd : max (h.roots.size + 2) d = max (h.roots.size + 1) (max (h.roots.size + 1 + 1) d) := by
    omega
  rw [hd]
  refine peaks_keepingEnv hs ?_
  have hsize : (h.roots.push h.currentEnv).size = h.roots.size + 1 := Array.size_push _
  rw [← hsize]
  refine peaks_runWith (h := { h with roots := h.roots.push h.currentEnv }) hs ?_
  rw [hsize]
  refine hl.mono fun v k hk => ?_
  obtain ⟨hk, hf, hp⟩ := hk
  exact ⟨hk, by simp only [Array.size_pop]; omega, hf, hp⟩

/-- So does one from outside, whose failure would be a value. -/
lemma peaks_eval {ε : Type} (hs : h.rootSlots = s) (hf : h.IsFrame h.currentEnv)
    (hl : (loop ctx budget ⟨h.roots.size + 1⟩ .expr
      { h with roots := (h.roots.push h.currentEnv).push expr }).Peaks s d fun v k =>
        k.roots.size = h.roots.size + 2 ∧ k.IsFrame h.currentEnv ∧
          P v { k with roots := k.roots.pop.pop, currentEnv := h.currentEnv }) :
    (Evaluator.eval ctx budget expr h : Outcome ε Handle).Peaks s (max (h.roots.size + 2) d) P := by
  obtain ⟨p, names, values, hf⟩ := hf
  have heval : Evaluator.eval (ε := ε) ctx budget expr h = recover (keepingEnv (do
      setCurrentEnv h.currentEnv
      run ctx budget expr)) id h := rfl
  have hd : max (h.roots.size + 2) d = max (h.roots.size + 1) (max (h.roots.size + 1 + 1) d) := by
    omega
  rw [heval, hd]
  refine peaks_recover (peaks_keepingEnv hs ?_)
  refine peaks_bind_of_ok
    (setCurrentEnv_frame (h := { h with roots := h.roots.push h.currentEnv }) hf) ?_
  have hsize : (h.roots.push h.currentEnv).size = h.roots.size + 1 := Array.size_push _
  rw [← hsize]
  refine peaks_runWith (h := { h with roots := h.roots.push h.currentEnv }) hs ?_
  rw [hsize]
  refine hl.mono fun v k hk => ?_
  obtain ⟨hk, hf, hp⟩ := hk
  exact ⟨hk, by simp only [Array.size_pop]; omega, hf, hp⟩

/-- Finding a value that is there already takes the two slots and nothing else. -/
lemma Heap.Means.peaks (hm : h.Means ctx.keywords expr v) (hw : h.WellFormed) (hh : h.HasSentinels)
    (hl : h.isLive expr = true) (hf : h.IsFrame h.currentEnv) (hs : h.rootSlots = s) :
    (Evaluator.nestedEval ctx (budget + 1) expr h).Peaks s (h.roots.size + 2) fun w k =>
      w = v ∧ k = h := by
  have h0 : h.Adds [expr] [] h := .refl hw (by simpa using hl)
  have h2 := (h0.push (.inl (.anchor .current)) hw.current).push (v := expr)
    (.inl (.of_extra List.mem_cons_self)) hl
  have hloop := (hm.saved h2.toSaves (.of_extra List.mem_cons_self)).loop budget h2.wellFormed
    (h2.hasSentinels hh) (getElem?_push_push h.roots h.currentEnv expr)
  rw [← Nat.max_zero (h.roots.size + 2)]
  refine peaks_nestedEval hs (peaks_of_ok hloop ⟨by simp, hf, rfl, ?_⟩)
  simp

end ArenaScheme
