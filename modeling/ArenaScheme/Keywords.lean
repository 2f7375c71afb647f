/-
# Keywords

A special form is recognised by the symbol at its head.  The symbols of all keywords are interned
once, when a machine is made, and after that a keyword is recognised by comparing handles.
-/
import ArenaScheme.Heap.Symbols

namespace ArenaScheme

/-- The symbols of the keywords. -/
structure Keywords where
  quote : Handle
  quasiquote : Handle
  unquote : Handle
  unquoteSplicing : Handle
  conditional : Handle
  sequence : Handle
  clauses : Handle
  otherwise : Handle
  definition : Handle
  assignment : Handle
  conjunction : Handle
  disjunction : Handle
  binding : Handle
  lambda : Handle
  apply : Handle
  eval : Handle
  theEnvironment : Handle
deriving DecidableEq, Repr

/-- Intern all keywords. -/
def Keywords.intern {ε : Type} : HeapM ε Keywords := do
  let quote ← HeapM.intern "quote"
  let quasiquote ← HeapM.intern "quasiquote"
  let unquote ← HeapM.intern "unquote"
  let unquoteSplicing ← HeapM.intern "unquote-splicing"
  let conditional ← HeapM.intern "if"
  let sequence ← HeapM.intern "begin"
  let clauses ← HeapM.intern "cond"
  let otherwise ← HeapM.intern "else"
  let definition ← HeapM.intern "define"
  let assignment ← HeapM.intern "set!"
  let conjunction ← HeapM.intern "and"
  let disjunction ← HeapM.intern "or"
  let binding ← HeapM.intern "let"
  let lambda ← HeapM.intern "lambda"
  let apply ← HeapM.intern "apply"
  let eval ← HeapM.intern "eval"
  let theEnvironment ← HeapM.intern "the-environment"
  return {
    quote, quasiquote, unquote, unquoteSplicing, conditional, sequence, clauses, otherwise,
    definition, assignment, conjunction, disjunction, binding, lambda, apply, eval,
    theEnvironment }

/-- Whether a symbol marks a nested quotation within a template. -/
def Keywords.isQuotation (kw : Keywords) (v : Handle) : Bool :=
  v == kw.quasiquote || v == kw.unquote || v == kw.unquoteSplicing

end ArenaScheme
