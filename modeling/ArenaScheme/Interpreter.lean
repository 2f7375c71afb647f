/-
# The interpreter

A heap becomes a running machine when the keywords are interned and the built-in procedures are
bound in the base frame.  From then on, texts are read and evaluated on it datum by datum: a datum
is read only after the one before it has been evaluated.
-/
import ArenaScheme.Eval.Evaluator
import ArenaScheme.Printer
import ArenaScheme.Reader

namespace ArenaScheme

namespace Interpreter

open HeapM

/-! ## Setting up -/

/-- Bind the name of a foreign procedure to it in the base frame. -/
def bindForeign (name : String) (code : Native) : EvalM Unit := do
  let symbol ← intern name
  let procedure ← makeForeign name code
  let _ ← define (← baseEnv) symbol procedure

/-- Intern the keywords and bind the built-in procedures. -/
def install (host : Array HostProcedure) : HeapM Failure Context := do
  let keywords ← Keywords.intern
  reporting (Builtin.all.forM fun b => bindForeign b.name (.builtin b))
  return ⟨keywords, host⟩

/-- Make a procedure of the host known to programs. -/
def defineHost (name : String) (slot : Nat) : HeapM Failure Unit :=
  reporting (bindForeign name (.host slot))

/-- Start over with an empty heap of the same sizes. -/
def restart (host : Array HostProcedure) : HeapM Failure Context := do
  reset
  install host

/-! ## Running texts -/

/-- Read the first datum of a text from a position on, without evaluating it. -/
def read (text : String) (pos : Nat) : HeapM Failure (Option Handle) := do
  let reading ← mapError (HeapM.read (Scan.ofString text pos)) (·.failure)
  return reading.map (·.datum)

/-- Run at most the given number of data of a scan; the root slot `last` holds the latest value. -/
def runData (ctx : Context) (budget : Nat) (last : Root) : Nat → Scan → HeapM Failure Handle
  | 0, _ => halt .unfinished
  | data + 1, scan => do
    match ← mapError (HeapM.read scan) (·.failure) with
    | none => contents last
    | some reading =>
      let v ← Evaluator.eval ctx budget reading.datum
      if ← hasType .error v then fail (← failureOf v)
      else
        store last v
        runData ctx budget last data reading.rest

/-- Read and evaluate all data of a text; the result is the value of the last, or the empty list
if there is none.  The first failure ends the run.  A datum takes at least one token. -/
def run (ctx : Context) (budget : Nat) (text : String) : HeapM Failure Handle := do
  let scan := Scan.ofString text 0
  rooted .emptyList fun last => runData ctx budget last (scan.lexemes.length + 1) scan

/-! ## Reports -/

/-- What becomes of one datum of a text. -/
inductive Report
  /-- It has a value, of that type and with that printed form; of a real also the value itself. -/
  | value (type : DatumType) (text : String) (real : Option Flonum)
  /-- Its evaluation failed with an error object of that printed form. -/
  | failed (failure : Failure) (text : String)
  /-- It could not be read. -/
  | unreadable (failure : Failure)

/-- Describe a value. -/
def describe {ε : Type} (v : Handle) : HeapM ε Report := do
  let text ← HeapM.print v
  match ← datum v with
  | .error kind message => return .failed (.ofError kind message) text
  | d => return .value d.type text d.real?

/-- Evaluate one datum in the current environment and describe the result. -/
def report {ε : Type} (ctx : Context) (budget : Nat) (expr : Handle) : HeapM ε Report := do
  describe (← Evaluator.eval ctx budget expr)

/-- The reports on the data of a text, in order, and the heap afterwards.  A halt leaves the reports
that came before it. -/
structure Transcript where
  reports : List Report
  ending : Except Halt Heap

/-- Read and evaluate at most the given number of data of a scan.  A failed evaluation does not
keep the next datum from being evaluated, but a failed reading ends the transcript. -/
def reportData (ctx : Context) (budget : Nat) :
    Nat → Scan → List Report → Heap → Transcript
  | 0, _, reports, h => ⟨reports.reverse, .ok h⟩
  | data + 1, scan, reports, h =>
    match HeapM.read scan h with
    | .halt cause => ⟨reports.reverse, .error cause⟩
    | .error failed h => ⟨(.unreadable failed.failure :: reports).reverse, .ok h⟩
    | .ok none h => ⟨reports.reverse, .ok h⟩
    | .ok (some reading) h =>
      match report (ε := Empty) ctx budget reading.datum h with
      | .halt cause => ⟨reports.reverse, .error cause⟩
      | .ok report h => reportData ctx budget data reading.rest (report :: reports) h

/-- Read and evaluate the data of a text one by one. -/
def reportAll (ctx : Context) (budget : Nat) (text : String) (h : Heap) : Transcript :=
  let scan := Scan.ofString text 0
  reportData ctx budget (scan.lexemes.length + 1) scan [] h

end Interpreter

end ArenaScheme
