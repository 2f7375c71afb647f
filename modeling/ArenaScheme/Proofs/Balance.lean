/-
# Evaluation is balanced

However an evaluation ends, with a value or with an error raised at any depth, the root stack is as
it was, slot by slot, and names are looked up where they were looked up before.  The machine may be
in any state whatever: no assumption is made on the heap.  All that is demanded of the procedures of
the host is that they do not disturb the root stack; they may leave another current frame behind.

The same holds for the reader and for the operations that hold intermediate objects in root slots.

While a step is under way, names are looked up in one and the same frame, the one that was current
when it began, in all the parts of its expression that it has evaluated.  So when a part enters a
closure, or another environment, or fails in the middle of that, no other part can see it.
-/
import ArenaScheme.Proofs.Discipline.Activations

namespace ArenaScheme

open HeapM

/-- The root stack and the current frame are those of `h`. -/
def Heap.Balanced (h k : Heap) : Prop := k.roots = h.roots ∧ k.currentEnv = h.currentEnv

/-- Everything that is balanced when it is run on the heap `h`. -/
structure Undisturbed (ctx : Context) (h : Heap) : Prop where
  evaluate : ∀ {ε : Type} budget expr env,
    (Evaluator.evaluate ctx budget expr env h : Outcome ε Handle).Leaving h.Balanced
  nested : ∀ budget expr, (Evaluator.nestedEval ctx budget expr h).Leaving h.Balanced
  run : ∀ budget text, (Interpreter.run ctx budget text h).Leaving h.Balanced
  read : ∀ scan, (HeapM.read scan h).Leaving h.Balanced
  expand : ∀ kw operands, (Let.expand kw operands h).Leaving h.Balanced
  list : ∀ vs, (list vs h).Leaving h.Balanced
  append : ∀ front back, (append front back h).Leaving h.Balanced
  define : ∀ env symbol v, (define env symbol v h).Leaving h.Balanced
  /-- A turn asks for evaluations with the frame that is current when it begins, and with no
  other. -/
  turn : ∀ (a : Activation) sites site, a.heap = h → a.Asks ctx sites site →
    site.heap.currentEnv = h.currentEnv

variable {ε α : Type} {ctx : Context}

lemma Orderly.balanced (host : Array HostProcedure) [Blame ε] {x : HeapM ε α}
    (hx : Orderly host (fun _ => False) False x) (h : Heap) : (x h).Leaving h.Balanced :=
  (hx h).leaving.mono fun _ hr => ⟨hr.roots, hr.env id⟩

theorem undisturbed (hb : HostBalanced ctx.host) (h : Heap) : Undisturbed ctx h where
  evaluate {ε} budget expr env := by
    -- a failed evaluation returns its error, so any type of errors will do
    let _ : Blame ε := ⟨fun _ _ => True, fun _ h => h⟩
    exact Orderly.balanced ctx.host (.evaluate hb budget expr env) h
  nested budget expr := Orderly.balanced ctx.host (.nestedEval hb budget expr) h
  run budget text := Orderly.balanced ctx.host (.run hb budget text) h
  read scan := Orderly.balanced ctx.host (.read scan) h
  expand kw operands := Orderly.balanced ctx.host (.expand kw operands) h
  list vs := Orderly.balanced ctx.host (.list vs) h
  append front back := Orderly.balanced ctx.host (.append front back) h
  define env symbol v := Orderly.balanced ctx.host (.define env symbol v) h
  turn a sites site ha hs := ha ▸ (hs.origin hb).1

/-- A procedure of the host that looks names up in its arguments from now on. -/
def relocating : HostProcedure := fun args h => .ok args { h with currentEnv := args }

/-- A heap with an expression that calls `relocating` without arguments. -/
def relocated : Heap :=
  { Heap.ofSizing ⟨3, 8⟩ with
    cells := #[.emptyList, .bool true, .bool false, .exhausted, .pair ⟨8⟩ .emptyList,
      .free none (some 6), .free (some 5) none, Heap.rootFrame, .foreign "relocate" (.host 0)]
    free := some 5
    freeCount := 2
    roots := #[⟨4⟩] }

def relocatedContext : Context where
  keywords := ⟨⟨9⟩, ⟨10⟩, ⟨11⟩, ⟨12⟩, ⟨13⟩, ⟨14⟩, ⟨15⟩, ⟨16⟩, ⟨17⟩, ⟨18⟩, ⟨19⟩, ⟨20⟩,
    ⟨21⟩, ⟨22⟩, ⟨23⟩, ⟨24⟩, ⟨25⟩⟩
  host := #[relocating]

theorem undisturbed_relocated : HostBalanced relocatedContext.host ∧
    ∃ k, (Evaluator.evaluate relocatedContext 3 ⟨4⟩ ⟨7⟩ relocated : Outcome Handle Handle) =
      .ok .emptyList k ∧ relocated.Balanced k := by
  have hb : HostBalanced relocatedContext.host := fun p hp args h => by
    obtain rfl : p = relocating := by simpa [relocatedContext] using hp
    exact .ok rfl
  have hu : Undisturbed relocatedContext relocated := undisturbed hb relocated
  obtain ⟨k, hk⟩ := Outcome.value?_eq_some.mp (show (Evaluator.evaluate relocatedContext 3 ⟨4⟩ ⟨7⟩
    relocated : Outcome Handle Handle).value? = some .emptyList by decide +kernel)
  have he := hu.evaluate (ε := Handle) 3 ⟨4⟩ ⟨7⟩
  rw [hk] at he
  cases he with
  | ok he => exact ⟨hb, k, hk, he⟩

end ArenaScheme
