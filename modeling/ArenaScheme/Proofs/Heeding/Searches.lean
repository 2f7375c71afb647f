/-
# What a search comes upon

Names are looked up by going down two lists in each of some frames, and a list is measured by
walking down its spine.  Such a search reads the objects that its beginning leads to, and no others.
So if a set of handles leads to nothing outside, then a search that starts in the set stays there;
and two heaps that agree on the set have the same search.
-/
import ArenaScheme.Proofs.Heeding.Rules
import ArenaScheme.Proofs.Seclusion.Objects

namespace ArenaScheme

namespace Heap

/-- What the objects of a set lead to is in the set. -/
def Encloses (h : Heap) (S : Handle → Prop) : Prop :=
  ∀ v d, S v → h.read v = .ok d → ∀ c ∈ d.children, S c

variable {h k : Heap} {S : Handle → Prop} {u v env symbol names values slow fast : Handle}
  {p : Option Handle} {found : Option Handle} {seen : Array Handle} {w : Walk} {d : Datum} {n : Nat}

namespace Encloses

/-- It is enough to know what objects lead to, since a free cell leads to nothing. -/
lemma of_objects (hs : ∀ v d, S v → h.object? v = some d → ∀ c ∈ d.children, S c) :
    h.Encloses S := by
  intro v d hv hr
  by_cases hf : d.isFree = true
  · obtain ⟨p, n, rfl⟩ := Datum.isFree_iff.mp hf
    exact fun c hc => absurd hc List.not_mem_nil
  · exact hs v d hv (object?_eq_some.mpr ⟨cells_of_read hr, by simpa using hf⟩)

lemma pair (hs : h.Encloses S) (hv : S v) {a b : Handle} (hr : h.read v = .ok (.pair a b)) :
    S a ∧ S b :=
  ⟨hs v _ hv hr a (by simp [Datum.children]), hs v _ hv hr b (by simp [Datum.children])⟩

lemma frame (hs : h.Encloses S) (hv : S v) (hr : h.read v = .ok (.frame p names values)) :
    (∀ q ∈ p, S q) ∧ S names ∧ S values := by
  have hparts := hs v _ hv hr
  exact ⟨fun q hq => hparts q (by simp [Datum.children, Option.mem_def.mp hq]),
    hparts _ (by simp [Datum.children]), hparts _ (by simp [Datum.children])⟩

/-! ## Where a search ends -/

/-- What a search of two lists finds is a pair of the second one. -/
lemma of_slotIn (hs : h.Encloses S) (hn : S names) (hv : S values)
    (hf : h.slotIn symbol n names values = .ok found) :
    spared S found := by
  induction n generalizing names values with
  | zero => cases hf
  | succ n ih =>
    simp only [slotIn, bind, Except.bind] at hf
    split at hf
    · cases hf
    next d hd =>
    split at hf
    · cases hf
    next e he =>
    split at hf
    · next name names' x rest =>
      split at hf
      · obtain rfl := Except.ok.inj hf
        exact fun c hc => Option.mem_some.mp hc ▸ hv
      · exact ih (hs.pair hn hd).2 (hs.pair hv he).2 hf
    · obtain rfl := Except.ok.inj hf
      exact fun _ hc => by cases hc

lemma of_frameAt (hs : h.Encloses S) (he : S env) (hf : h.frameAt env = .ok (p, names, values)) :
    (∀ q ∈ p, S q) ∧ S names ∧ S values := by
  unfold frameAt at hf
  split at hf
  · next hr =>
    obtain ⟨rfl, rfl, rfl⟩ : _ = p ∧ _ = names ∧ _ = values := by simpa using hf
    exact hs.frame he hr
  · cases hf
  · cases hf

lemma of_localSlot (hs : h.Encloses S) (he : S env) (hf : h.localSlot env symbol = .ok found) :
    spared S found := by
  simp only [localSlot, bind, Except.bind] at hf
  split at hf
  · cases hf
  next hframe =>
  obtain ⟨-, hn, hv⟩ := hs.of_frameAt he hframe
  exact hs.of_slotIn hn hv hf

lemma of_slotFrom (hs : h.Encloses S) (he : S env) (hf : h.slotFrom symbol n env = .ok found) :
    spared S found := by
  induction n generalizing env with
  | zero => cases hf
  | succ n ih =>
    simp only [slotFrom, bind, Except.bind] at hf
    split at hf
    · cases hf
    next hl =>
    split at hf
    · obtain rfl := Except.ok.inj hf
      exact hs.of_localSlot he hl
    split at hf
    · cases hf
    next hframe =>
    split at hf
    · exact ih ((hs.of_frameAt he hframe).1 _ rfl) hf
    · obtain rfl := Except.ok.inj hf
      exact fun _ hc => by cases hc

lemma of_walkSpine (hs : h.Encloses S) (hv : S v) (hw : h.walkSpine v = .ok w) : spared S w :=
  walkFrom_invariant (T := S) (S := S) (fun _ _ _ hu hp => hs.pair hu (read_of_object? hp)) _ hw hv
    (by simp)

/-! ## Heaps that agree -/

section Congruence

variable (hs : h.Encloses S) (hread : ∀ v, S v → k.read v = h.read v)
include hread

lemma frameAt_congr (he : S env) : k.frameAt env = h.frameAt env := by
  rw [frameAt, frameAt, hread env he]

include hs

lemma slotIn_congr (hn : S names) (hv : S values) :
    k.slotIn symbol n names values = h.slotIn symbol n names values := by
  induction n generalizing names values with
  | zero => rfl
  | succ n ih =>
    rw [slotIn, slotIn, hread names hn, hread values hv]
    cases hd : h.read names with
    | error c => rfl
    | ok d =>
      cases he : h.read values with
      | error c => rfl
      | ok e =>
        cases d with
        | pair a b =>
          cases e with
          | pair x y =>
            have hnext := ih (hs.pair hn hd).2 (hs.pair hv he).2
            simp only [bind, Except.bind, hnext]
          | _ => rfl
        | _ => rfl

lemma localSlot_congr (hsize : k.cells.size = h.cells.size) (he : S env) :
    k.localSlot env symbol = h.localSlot env symbol := by
  rw [localSlot, localSlot, frameAt_congr hread he, hsize]
  cases hf : h.frameAt env with
  | error c => rfl
  | ok parts =>
    obtain ⟨-, hn, hv⟩ := hs.of_frameAt he hf
    exact hs.slotIn_congr hread hn hv

lemma slotFrom_congr (hsize : k.cells.size = h.cells.size) (he : S env) :
    k.slotFrom symbol n env = h.slotFrom symbol n env := by
  induction n generalizing env with
  | zero => rfl
  | succ n ih =>
    rw [slotFrom, slotFrom, hs.localSlot_congr hread hsize he, frameAt_congr hread he]
    cases h.localSlot env symbol with
    | error c => rfl
    | ok slot =>
      cases slot with
      | some slot => rfl
      | none =>
        cases hf : h.frameAt env with
        | error c => rfl
        | ok parts =>
          obtain ⟨parent, names, values⟩ := parts
          cases parent with
          | none => rfl
          | some parent => exact ih ((hs.of_frameAt he hf).1 _ rfl)

lemma walkFrom_congr (hl : S slow) (hf : S fast) :
    k.walkFrom n slow fast seen = h.walkFrom n slow fast seen := by
  induction n generalizing slow fast seen with
  | zero => rfl
  | succ n ih =>
    have hcdr : k.cdr slow = h.cdr slow := by rw [Heap.cdr, Heap.cdr, hread slow hl]
    rw [walkFrom, walkFrom, hread fast hf, hcdr]
    cases hd : h.read fast with
    | error c => rfl
    | ok d =>
      cases d with
      | pair first second =>
        have hsecond := (hs.pair hf hd).2
        simp only [bind, Except.bind, hread second hsecond]
        cases he : h.read second with
        | error c => rfl
        | ok e =>
          cases e with
          | pair head fast' =>
            dsimp only
            cases hc : h.cdr slow with
            | error c => rfl
            | ok slow' =>
              have hnext : S slow' := by
                unfold Heap.cdr at hc
                split at hc
                · next hr => exact Except.ok.inj hc ▸ (hs.pair hl hr).2
                · cases hc
                · cases hc
              dsimp only
              rw [ih hnext (hs.pair hsecond he).2]
          | _ => rfl
      | _ => rfl

end Congruence

end Encloses

end Heap

end ArenaScheme
