/-
# Templates

A quasiquoted template is copied, and what is unquoted in it is replaced by its value.  Templates
nest: within a nested quasiquotation, unquoted parts belong to the nested template, and only those
that unquote out of all of them are evaluated.  The level counts the nested quasiquotations around
a part.

The spine of a list is copied in a loop that extends the copy at its end.  The elements of a list
whose turn it is to be spliced in are copied one by one.
-/
import ArenaScheme.Eval.Step

namespace ArenaScheme

namespace Template

open HeapM

/-- How to copy a part of a template at a level. -/
abbrev Copier := Handle → Nat → EvalM Handle

/-- Extend a list at its last pair, or start it in its root slot. -/
def link (out : Root) (last : Option Handle) (v : Handle) : EvalM Unit :=
  match last with
  | some pair => setCdr pair v
  | none => store out v

/-- Copy a nested quotation, or replace an unquoted part by its value. -/
def copyQuotation (kw : Keywords) (nested : Nested) (copy : Copier) (form : Handle)
    (level : Nat) : EvalM Handle := do
  match ← asPair form with
  | none => return form
  | some (head, rest) =>
    if head = kw.quasiquote then
      match ← items? rest with
      | some [inner] => list [kw.quasiquote, ← copy inner (level + 1)]
      | _ => wrongOperands "quasiquote" 1
    else
      match ← items? rest, level with
      | some [inner], 0 => nested inner
      | some [inner], outer + 1 => list [head, ← copy inner outer]
      | _, _ => wrongOperands "unquote" 1

/-- Extend a list by one element; the new last pair is returned. -/
def push (out : Root) (last : Option Handle) (v : Handle) : EvalM Handle := do
  let cell ← cons v .emptyList
  link out last cell
  return cell

/-- Extend a list by copies of the pairs of another one. -/
def splice (out : Root) (last : Option Handle) (spliced : Handle) : EvalM (Option Handle) := do
  match ← items? spliced with
  | none => raise .wrongType "cannot splice an improper list"
  | some vs =>
    rooted spliced fun _ =>
      vs.foldlM (fun last v => return some (← push out last v)) last

/-- Whether an element of a list is to be spliced into it. -/
def isSplice (kw : Keywords) (level : Nat) (item : Handle) : EvalM Bool := do
  if level = 0 then
    match ← asPair item with
    | some (tag, _) => return tag == kw.unquoteSplicing
    | none => return false
  else return false

/-- Copy the rest of a list onto what is in the root slot `out`. -/
def copySpine (kw : Keywords) (nested : Nested) (copy : Copier) (out : Root) (level : Nat) :
    Nat → Option Handle → Handle → EvalM Handle
  | 0, _, _ => halt .unfinished
  | budget + 1, last, rest => do
    match ← asPair rest with
    | none =>
      link out last rest
      contents out
    | some (item, next) =>
      if kw.isQuotation item then
        link out last (← copyQuotation kw nested copy rest level)
        contents out
      else if ← isSplice kw level item then
        match ← items? (← cdr item) with
        | some [inner] =>
          let last ← splice out last (← nested inner)
          copySpine kw nested copy out level budget last next
        | _ => wrongOperands "unquote-splicing" 1
      else
        let cell ← push out last (← copy item level)
        copySpine kw nested copy out level budget (some cell) next

/-- Copy a part of a template at a level. -/
def copy (kw : Keywords) (nested : Nested) : Nat → Copier
  | 0, _, _ => halt .unfinished
  | budget + 1, template, level => do
    match ← asPair template with
    | none => return template
    | some (head, _) =>
      if kw.isQuotation head then copyQuotation kw nested (copy kw nested budget) template level
      else
        rooted .emptyList fun out =>
          copySpine kw nested (copy kw nested budget) out level budget none template

end Template

end ArenaScheme
