/-
# Actions on the heap

Everything that works on objects is an action: a function from a heap to an outcome.  There are
three outcomes.  An action returns a value together with the heap it leaves; or it fails, with an
error and the heap it leaves, and then whatever was to follow it is skipped; or it halts, and then
there is no heap left to go on with.

The type of errors is a parameter.  Evaluation fails with the handle of an error object, reading
fails with a description of the fault, and an action that cannot fail works for any type of errors.
-/
import ArenaScheme.Heap.Collector

namespace ArenaScheme

/-- How an action ends. -/
inductive Outcome (ε α : Type) where
  | ok (value : α) (heap : Heap)
  | error (e : ε) (heap : Heap)
  | halt (cause : Halt)

/-- A computation that may change the heap. -/
def HeapM (ε α : Type) : Type := Heap → Outcome ε α

namespace HeapM

variable {ε ε' α β : Type}

/-- Return a value and leave the heap alone. -/
@[always_inline, inline]
protected def pure (a : α) : HeapM ε α := fun h => .ok a h

/-- Go on with the value of the first action, if it returns one. -/
@[always_inline, inline]
protected def bind (x : HeapM ε α) (f : α → HeapM ε β) : HeapM ε β := fun h =>
  match x h with
  | .ok a h => f a h
  | .error e h => .error e h
  | .halt c => .halt c

@[always_inline]
instance : Monad (HeapM ε) where
  pure := HeapM.pure
  bind := HeapM.bind

private theorem map_id_apply (x : HeapM ε α) (h : Heap) :
    HeapM.bind x (fun a => HeapM.pure (id a)) h = x h := by
  simp only [HeapM.bind, HeapM.pure, id]
  cases x h <;> rfl

private theorem bind_bind_apply {γ : Type} (x : HeapM ε α) (f : α → HeapM ε β)
    (g : β → HeapM ε γ) (h : Heap) :
    HeapM.bind (HeapM.bind x f) g h = HeapM.bind x (fun a => HeapM.bind (f a) g) h := by
  simp only [HeapM.bind]
  cases x h <;> rfl

instance : LawfulMonad (HeapM ε) :=
  LawfulMonad.mk' (HeapM ε)
    (fun x => funext (map_id_apply x))
    (fun _ _ => rfl)
    (fun x f g => funext (bind_bind_apply x f g))

/-- Fail with an error. -/
@[always_inline, inline]
def fail (e : ε) : HeapM ε α := fun h => .error e h

/-- Stop for good. -/
@[always_inline, inline]
def halt (cause : Halt) : HeapM ε α := fun _ => .halt cause

/-- A value computed from the heap, which stays as it is. -/
@[always_inline, inline]
def observe (f : Heap → α) : HeapM ε α := fun h => .ok (f h) h

/-- A value computed from the heap, or a halt. -/
@[always_inline, inline]
def inspect (f : Heap → Except Halt α) : HeapM ε α := fun h =>
  match f h with
  | .ok a => .ok a h
  | .error c => .halt c

/-- Replace the heap. -/
@[always_inline, inline]
def change (f : Heap → Heap) : HeapM ε Unit := fun h => .ok () (f h)

/-- Replace the heap and return a value. -/
@[always_inline, inline]
def changeWith (f : Heap → α × Heap) : HeapM ε α := fun h =>
  let (a, h) := f h
  .ok a h

/-- Replace the heap and return a value, or halt. -/
@[always_inline, inline]
def attempt (f : Heap → Except Halt (α × Heap)) : HeapM ε α := fun h =>
  match f h with
  | .ok (a, h) => .ok a h
  | .error c => .halt c

/-- Turn a failure into a value. -/
@[always_inline, inline]
def recover (x : HeapM ε α) (f : ε → α) : HeapM ε' α := fun h =>
  match x h with
  | .ok a h => .ok a h
  | .error e h => .ok (f e) h
  | .halt c => .halt c

/-- Describe a failure in other terms. -/
@[always_inline, inline]
def mapError (x : HeapM ε α) (f : ε → ε') : HeapM ε' α := fun h =>
  match x h with
  | .ok a h => .ok a h
  | .error e h => .error (f e) h
  | .halt c => .halt c

/-- Run `cleanup` after an action whether it returns or fails. -/
@[always_inline, inline]
def ensuring (x : HeapM ε α) (cleanup : HeapM ε Unit) : HeapM ε α := fun h =>
  match x h with
  | .ok a h => (match cleanup h with
    | .ok _ h => .ok a h
    | .error e h => .error e h
    | .halt c => .halt c)
  | .error e h => (match cleanup h with
    | .ok _ h => .error e h
    | .error e h => .error e h
    | .halt c => .halt c)
  | .halt c => .halt c

@[simp] theorem pure_apply (a : α) (h : Heap) : (pure a : HeapM ε α) h = .ok a h := rfl

theorem bind_apply (x : HeapM ε α) (f : α → HeapM ε β) (h : Heap) :
    (x >>= f) h = match x h with
      | .ok a h => f a h
      | .error e h => .error e h
      | .halt c => .halt c := rfl

theorem bind_of_ok {x : HeapM ε α} {f : α → HeapM ε β} {h h' : Heap} {a : α}
    (hx : x h = .ok a h') : (x >>= f) h = f a h' := by
  rw [bind_apply, hx]

theorem bind_of_error {x : HeapM ε α} {f : α → HeapM ε β} {h h' : Heap} {e : ε}
    (hx : x h = .error e h') : (x >>= f) h = .error e h' := by
  rw [bind_apply, hx]

theorem bind_of_halt {x : HeapM ε α} {f : α → HeapM ε β} {h : Heap} {c : Halt}
    (hx : x h = .halt c) : (x >>= f) h = .halt c := by
  rw [bind_apply, hx]

end HeapM

/-- Evaluation and the construction of objects fail with the handle of an error object. -/
abbrev EvalM := HeapM Handle

end ArenaScheme
