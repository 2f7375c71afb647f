/-
# The law of templates

A finite template is a tree of pairs.  What it comes to is a matter of recursion on this tree and on
the level, the number of quasiquotations around a part:

* an atom stays;
* a nested quotation stays, and its operand is copied one level up or down;
* an expression that is unquoted out of all quasiquotations gives way to its value;
* an element that is spliced in gives way to the elements of its value;
* any other pair is copied part by part.

A quotation has one operand; anything else is malformed.

The law is stated for a list of answers, the values of the expressions in the order in which they
are needed, from left to right.  Either the answers are what it takes, and the result is a tree of
new pairs; or there is a first fault.
-/
import ArenaScheme.Eval.Quasiquote
import ArenaScheme.Proofs.Protection.Rows

namespace ArenaScheme

/-- A tree of pairs, with the objects that its parts are. -/
inductive Shape
  | atom (v : Handle)
  | pair (v : Handle) (head tail : Shape)
deriving DecidableEq, Repr

/-- What a part of a template is at a level. -/
inductive Part
  | atom (v : Handle)
  /-- A quotation that stays.  Its operand is copied at another level. -/
  | nest (tag : Handle) (operand : Shape) (level : Nat)
  /-- An expression whose value is put in its place. -/
  | value (expr : Handle)
  /-- An expression for the elements of whose value there is room before the rest of the list. -/
  | splice (expr : Handle) (rest : Shape)
  | pair (head tail : Shape)
  /-- A form that does not have one operand. -/
  | malformed (form : String)
deriving DecidableEq, Repr

namespace Shape

/-- The object. -/
def handle : Shape → Handle
  | atom v | pair v _ _ => v

/-- The number of its parts. -/
def size : Shape → Nat
  | atom _ => 1
  | pair _ head tail => head.size + tail.size + 1

/-- How deep elements are nested in elements. -/
def depth : Shape → Nat
  | atom _ => 0
  | pair _ head tail => max (head.depth + 1) tail.depth

/-- The element of a list of one element. -/
def operand? : Shape → Option Shape
  | pair _ x (atom last) => if last = .emptyList then some x else none
  | _ => none

/-- What it is at a level. -/
def part (kw : Keywords) : Shape → Nat → Part
  | atom v, _ => .atom v
  | pair _ head tail, level =>
    if kw.isQuotation head.handle then
      match tail.operand? with
      | none => .malformed (if head.handle = kw.quasiquote then "quasiquote" else "unquote")
      | some x =>
        if head.handle = kw.quasiquote then .nest head.handle x (level + 1)
        else
          match level with
          | 0 => .value x.handle
          | outer + 1 => .nest head.handle x outer
    else
      match level, head with
      | 0, pair _ tag operands =>
        if tag.handle = kw.unquoteSplicing then
          match operands.operand? with
          | none => .malformed "unquote-splicing"
          | some x => .splice x.handle tail
        else .pair head tail
      | _, _ => .pair head tail

/-- The cases of `part`. -/
inductive Sorts (kw : Keywords) : Shape → Nat → Part → Prop
  | atom {v : Handle} {level : Nat} : Sorts kw (.atom v) level (.atom v)
  | unsaid {v : Handle} {head tail : Shape} {level : Nat} (hq : kw.isQuotation head.handle = true)
      (ho : tail.operand? = none) :
      Sorts kw (.pair v head tail) level
        (.malformed (if head.handle = kw.quasiquote then "quasiquote" else "unquote"))
  | outward {v : Handle} {head tail x : Shape} {level : Nat}
      (hq : kw.isQuotation head.handle = true)
      (ho : tail.operand? = some x) (ht : head.handle = kw.quasiquote) :
      Sorts kw (.pair v head tail) level (.nest head.handle x (level + 1))
  | inward {v : Handle} {head tail x : Shape} {level : Nat} (hq : kw.isQuotation head.handle = true)
      (ho : tail.operand? = some x) (ht : head.handle ≠ kw.quasiquote) :
      Sorts kw (.pair v head tail) (level + 1) (.nest head.handle x level)
  | value {v : Handle} {head tail x : Shape} (hq : kw.isQuotation head.handle = true)
      (ho : tail.operand? = some x) (ht : head.handle ≠ kw.quasiquote) :
      Sorts kw (.pair v head tail) 0 (.value x.handle)
  | unspliced {v w : Handle} {tag operands tail : Shape} (hq : ¬ kw.isQuotation w = true)
      (ht : tag.handle = kw.unquoteSplicing) (ho : operands.operand? = none) :
      Sorts kw (.pair v (.pair w tag operands) tail) 0 (.malformed "unquote-splicing")
  | splice {v w : Handle} {tag operands tail x : Shape} (hq : ¬ kw.isQuotation w = true)
      (ht : tag.handle = kw.unquoteSplicing) (ho : operands.operand? = some x) :
      Sorts kw (.pair v (.pair w tag operands) tail) 0 (.splice x.handle tail)
  | pair {v : Handle} {head tail : Shape} {level : Nat} (hq : ¬ kw.isQuotation head.handle = true)
      (hs : level = 0 → ∀ w tag operands, head = .pair w tag operands →
        tag.handle ≠ kw.unquoteSplicing) :
      Sorts kw (.pair v head tail) level (.pair head tail)

variable {kw : Keywords} {s x : Shape} {level : Nat} {p : Part}

lemma sorts_of_part (hp : s.part kw level = p) : Sorts kw s level p := by
  subst hp
  unfold part
  split
  · exact .atom
  · split
    · next hq =>
      split
      · next ho => exact .unsaid hq ho
      · next ho =>
        split
        · next ht => exact .outward hq ho ht
        · next ht =>
          split
          · exact .value hq ho ht
          · exact .inward hq ho ht
    · next hq =>
      split
      · split
        · next ht =>
          split
          · next ho => exact .unspliced hq ht ho
          · next ho => exact .splice hq ht ho
        · next ht =>
          refine .pair hq fun _ w tag operands he => ?_
          obtain ⟨-, rfl, -⟩ := Shape.pair.inj he
          exact ht
      · next hn =>
        exact .pair hq fun h0 w tag operands he => absurd he (hn w tag operands h0)

lemma size_operand? (hx : s.operand? = some x) : x.size < s.size := by
  unfold operand? at hx
  split at hx
  · split at hx
    · obtain rfl := Option.some.inj hx
      simp only [size]
      omega
    · cases hx
  · cases hx

lemma depth_operand? (hx : s.operand? = some x) : x.depth < s.depth := by
  unfold operand? at hx
  split at hx
  · split at hx
    · obtain rfl := Option.some.inj hx
      simp only [depth]
      omega
    · cases hx
  · cases hx

/-- The parts that are copied are smaller. -/
lemma Sorts.size_lt (hs : Sorts kw s level p) :
    match p with
    | .nest _ x _ => x.size < s.size
    | .splice _ rest => rest.size < s.size
    | .pair head tail => head.size < s.size ∧ tail.size < s.size
    | _ => True := by
  cases hs with
  | outward _ ho _ | inward _ ho _ =>
    have hx := size_operand? ho
    simp only [size]
    omega
  | splice _ _ _ | pair _ _ =>
    simp only [size]
    omega
  | _ => trivial

end Shape

/-! ## Recursion on a template -/

/-- What is said about a template by recursion on its parts. -/
structure Interpretation (α : Type) where
  atom : Handle → α
  nest : Handle → α → α
  value : Handle → α
  splice : Handle → α → α
  pair : α → α → α
  malformed : String → α

namespace Shape

/-- What an interpretation says about a template at a level. -/
def fold {α : Type} (i : Interpretation α) (kw : Keywords) (s : Shape) (level : Nat) : α :=
  match hp : s.part kw level with
  | .atom v => i.atom v
  | .nest tag x l =>
    have : x.size < s.size := (sorts_of_part hp).size_lt
    i.nest tag (x.fold i kw l)
  | .value expr => i.value expr
  | .splice expr rest =>
    have : rest.size < s.size := (sorts_of_part hp).size_lt
    i.splice expr (rest.fold i kw level)
  | .pair head tail =>
    have : head.size < s.size ∧ tail.size < s.size := (sorts_of_part hp).size_lt
    i.pair (head.fold i kw level) (tail.fold i kw level)
  | .malformed form => i.malformed form
termination_by s.size

variable {α : Type} {i : Interpretation α} {s x head tail : Shape} {kw : Keywords}
  {v tag expr : Handle} {level l : Nat} {form : String}

lemma fold_atom (hp : s.part kw level = .atom v) : s.fold i kw level = i.atom v := by
  rw [fold]
  split <;> simp_all

lemma fold_nest (hp : s.part kw level = .nest tag x l) :
    s.fold i kw level = i.nest tag (x.fold i kw l) := by
  rw [fold]
  split <;> simp_all

lemma fold_value (hp : s.part kw level = .value expr) : s.fold i kw level = i.value expr := by
  rw [fold]
  split <;> simp_all

lemma fold_splice (hp : s.part kw level = .splice expr tail) :
    s.fold i kw level = i.splice expr (tail.fold i kw level) := by
  rw [fold]
  split <;> simp_all

lemma fold_pair (hp : s.part kw level = .pair head tail) :
    s.fold i kw level = i.pair (head.fold i kw level) (tail.fold i kw level) := by
  rw [fold]
  split <;> simp_all

lemma fold_malformed (hp : s.part kw level = .malformed form) :
    s.fold i kw level = i.malformed form := by
  rw [fold]
  split <;> simp_all

/-- What two interpretations say is related if it is related in each of the cases. -/
lemma fold_rel {β : Type} {j : Interpretation β} {R : α → β → Prop}
    (atom : ∀ v, R (i.atom v) (j.atom v))
    (nest : ∀ tag a b, R a b → R (i.nest tag a) (j.nest tag b))
    (value : ∀ expr, R (i.value expr) (j.value expr))
    (splice : ∀ expr a b, R a b → R (i.splice expr a) (j.splice expr b))
    (pair : ∀ a b c d, R a b → R c d → R (i.pair a c) (j.pair b d))
    (malformed : ∀ form, R (i.malformed form) (j.malformed form)) (s : Shape) (level : Nat) :
    R (s.fold i kw level) (s.fold j kw level) := by
  induction s, level using @fold.induct kw with
  | case1 s level v hp =>
    rw [fold_atom hp, fold_atom hp]
    exact atom v
  | case2 s level tag x l hp _ ih =>
    rw [fold_nest hp, fold_nest hp]
    exact nest _ _ _ ih
  | case3 s level expr hp =>
    rw [fold_value hp, fold_value hp]
    exact value expr
  | case4 s level expr rest hp _ ih =>
    rw [fold_splice hp, fold_splice hp]
    exact splice _ _ _ ih
  | case5 s level head tail hp _ ihh iht =>
    rw [fold_pair hp, fold_pair hp]
    exact pair _ _ _ _ ihh iht
  | case6 s level form hp =>
    rw [fold_malformed hp, fold_malformed hp]
    exact malformed form

end Shape

/-! ## The law -/

/-- A result: objects as they are, and new pairs around them. -/
inductive Built
  | same (v : Handle)
  | pair (head tail : Built)
deriving DecidableEq, Repr

/-- What the evaluation of an expression gave: a value, and the elements of the value if it is a
proper list. -/
structure Answer where
  expr : Handle
  value : Handle
  elements : Option (List Handle)
deriving DecidableEq, Repr

/-- Why a template comes to nothing. -/
inductive Flaw
  /-- A form of this name does not have one operand. -/
  | malformed (form : String)
  /-- The value of an expression is no proper list, and its elements are asked for. -/
  | improper (expr : Handle)
  /-- There is no value of an expression. -/
  | unanswered (expr : Handle)
deriving DecidableEq, Repr

/-- A result that depends on answers, which are used up from the first one on, as long as there is
no fault. -/
abbrev Asking (α : Type) := ExceptT Flaw (StateM (List Answer)) α

namespace Asking

/-- The next answer has to be one for the expression. -/
def ask (expr : Handle) : Asking Answer
  | answer :: answers =>
    if answer.expr = expr then (.ok answer, answers) else
      (.error (.unanswered expr), answer :: answers)
  | [] => (.error (.unanswered expr), [])

/-- It takes the answers `s`, no more and no less, to get `a`. -/
def Returns {α : Type} (x : Asking α) (s : List Answer) (a : α) : Prop :=
  ∀ rest, x (s ++ rest) = (.ok a, rest)

/-- The answers that are used up to get a result are for the expressions `used`, the first ones of
`es`.  They are all of them if there is no fault; and if an answer is missing, it is one for the
next expression. -/
def Heeds {α : Type} : Except Flaw α → List Handle → List Handle → Prop
  | .ok _, es, used => used = es
  | .error (.unanswered expr), es, used => used ++ [expr] <+: es
  | .error _, es, used => used <+: es

/-- The values it takes are those of the expressions `es`, in this order. -/
def Asks {α : Type} (x : Asking α) (es : List Handle) : Prop :=
  ∀ s, ∃ used, s = used ++ (x s).2 ∧ Heeds (x s).1 es (used.map Answer.expr)

/-- There is a fault when the answers `s` are used up. -/
def Fails {α : Type} (x : Asking α) (s : List Answer) (f : Flaw) : Prop := x s = (.error f, [])

variable {α β : Type} {x : Asking α} {g : α → Asking β} {s s' : List Answer} {a : α} {b : β}
  {f : Flaw} {answer : Answer} {expr : Handle} {es es' : List Handle}

lemma bind_apply (x : Asking α) (g : α → Asking β) (s : List Answer) :
    (x >>= g) s = ExceptT.bindCont g (x s).1 (x s).2 := rfl

lemma returns_pure (a : α) : Returns (pure a) [] a := fun _ => rfl

lemma Returns.bind (hx : Returns x s a) (hg : Returns (g a) s' b) :
    Returns (x >>= g) (s ++ s') b := by
  intro rest
  rw [List.append_assoc, bind_apply, hx]
  exact hg rest

lemma Returns.map (c : α → β) (hx : Returns x s a) :
    Returns (x >>= fun a => pure (c a)) s (c a) := by
  intro rest
  rw [bind_apply, hx]
  rfl

lemma Returns.fails (hx : Returns x s a) (hg : Fails (g a) s' f) : Fails (x >>= g) (s ++ s') f := by
  rw [Fails, bind_apply, hx]
  exact hg

lemma Fails.bind (hx : Fails x s f) : Fails (x >>= g) s f := by
  rw [Fails, bind_apply, show x s = (.error f, []) from hx]
  rfl

lemma asks_pure (a : α) : Asks (pure a) [] := fun _ => ⟨[], rfl, rfl⟩

lemma asks_malformed (form : String) (es : List Handle) :
    Asks (throw (.malformed form) : Asking α) es := fun _ => ⟨[], rfl, List.nil_prefix⟩

lemma asks_improper (expr : Handle) (es : List Handle) :
    Asks (throw (.improper expr) : Asking α) es := fun _ => ⟨[], rfl, List.nil_prefix⟩

lemma asks_ask (expr : Handle) : Asks (ask expr) [expr] := by
  rintro (_ | ⟨answer, s⟩)
  · exact ⟨[], rfl, List.prefix_refl [expr]⟩
  · rw [ask]
    split
    · next he => exact ⟨[answer], rfl, congrArg ([·]) he⟩
    · exact ⟨[], rfl, List.prefix_refl [expr]⟩

lemma Heeds.append {r : Except Flaw α} {used : List Handle} (hr : Heeds r es' used)
    (es : List Handle) :
    Heeds r (es ++ es') (es ++ used) := by
  match r with
  | .ok _ => exact congrArg _ hr
  | .error (.unanswered expr) =>
    rw [Heeds, List.append_assoc]
    exact (List.prefix_append_right_inj es).mpr hr
  | .error (.malformed _) | .error (.improper _) => exact (List.prefix_append_right_inj es).mpr hr

lemma Asks.bind (hx : Asks x es) (hg : ∀ a, Asks (g a) es') : Asks (x >>= g) (es ++ es') := by
  intro s
  obtain ⟨used, hs, hu⟩ := hx s
  rw [bind_apply]
  generalize (x s).1 = r at hu
  match r with
  | .error (.malformed _) | .error (.improper _) | .error (.unanswered _) =>
    exact ⟨used, hs, hu.trans (List.prefix_append es es')⟩
  | .ok a =>
    obtain ⟨used', hs', hu'⟩ := hg a (x s).2
    obtain rfl : used.map Answer.expr = es := hu
    refine ⟨used ++ used', ?_, ?_⟩
    · rw [List.append_assoc]
      exact hs.trans (congrArg _ hs')
    · rw [List.map_append]
      exact hu'.append _

lemma Asks.map (c : α → β) (hx : Asks x es) : Asks (x >>= fun a => pure (c a)) es := by
  have hbind := hx.bind fun a => asks_pure (c a)
  rwa [List.append_nil] at hbind

/-- It is the expressions `es` whose values it takes. -/
lemma Asks.of_returns (hx : Asks x es) (hr : Returns x s a) : s.map Answer.expr = es := by
  obtain ⟨used, hs, hu⟩ := hx s
  have hrun : x s = (.ok a, []) := by simpa using hr []
  rw [hrun, List.append_nil] at hs
  rw [hrun] at hu
  rw [hs]
  exact hu

/-- Until there is a fault, the answers are for the first of the expressions. -/
lemma Asks.of_fails (hx : Asks x es) (hf : Fails x s f) : s.map Answer.expr <+: es := by
  obtain ⟨used, hs, hu⟩ := hx s
  have hrun : x s = (.error f, []) := hf
  rw [hrun, List.append_nil] at hs
  rw [hrun] at hu
  rw [hs]
  cases f with
  | malformed _ | improper _ => exact hu
  | unanswered expr => exact (List.prefix_append _ [expr]).trans hu

/-- An answer that is missing is one for one of the expressions. -/
lemma Asks.mem_of_unanswered (hx : Asks x es) (hf : Fails x s (.unanswered expr)) : expr ∈ es := by
  obtain ⟨used, -, hu⟩ := hx s
  rw [show x s = (.error (.unanswered expr), []) from hf] at hu
  exact hu.subset (List.mem_append_right _ List.mem_cons_self)

lemma returns_ask (he : answer.expr = expr) : Returns (ask expr) [answer] answer :=
  fun _ => if_pos he

lemma fails_ask (expr : Handle) : Fails (ask expr) [] (.unanswered expr) := rfl

lemma fails_throw (f : Flaw) : Fails (throw f : Asking α) [] f := rfl

end Asking

open Asking

/-- What a template comes to. -/
def law : Interpretation (Asking Built) where
  atom v := return .same v
  nest tag x := do return .pair (.same tag) (.pair (← x) (.same .emptyList))
  value expr := do return .same (← ask expr).value
  splice expr rest := do
    match (← ask expr).elements with
    | none => throw (.improper expr)
    | some vs => return (vs.map .same).foldr .pair (← rest)
  pair head tail := do
    let head ← head
    return .pair head (← tail)
  malformed form := throw (.malformed form)

/-- The expressions whose values it takes, from left to right. -/
def expressions : Interpretation (List Handle) where
  atom _ := []
  nest _ x := x
  value expr := [expr]
  splice expr rest := expr :: rest
  pair head tail := head ++ tail
  malformed _ := []

/-- Bounds for the evaluation of expressions: how many cells the value takes, and how many elements
it has if it is a proper list. -/
structure Estimate where
  cells : Handle → Nat
  elements : Handle → Nat

/-- How many cells it takes to copy a template. -/
def Estimate.cost (est : Estimate) : Interpretation Nat where
  atom _ := 0
  nest _ x := x + 2
  value expr := est.cells expr
  splice expr rest := est.cells expr + est.elements expr + rest
  pair head tail := head + 1 + tail
  malformed _ := 0

namespace Asking

variable {x y : Asking Built} {s s' : List Answer} {t u : Built} {f : Flaw} {answer : Answer}
  {vs : List Handle} {tag expr : Handle}

lemma returns_nest (hx : Returns x s t) :
    Returns (law.nest tag x) s (.pair (.same tag) (.pair t (.same .emptyList))) :=
  hx.map fun t => Built.pair (.same tag) (.pair t (.same .emptyList))

lemma fails_nest (hx : Fails x s f) : Fails (law.nest tag x) s f := hx.bind

lemma returns_value (he : answer.expr = expr) :
    Returns (law.value expr) [answer] (.same answer.value) :=
  (returns_ask he).map fun answer : Answer => Built.same answer.value

lemma fails_value (expr : Handle) : Fails (law.value expr) [] (.unanswered expr) :=
  (fails_ask expr).bind

lemma returns_splice (he : answer.expr = expr) (hv : answer.elements = some vs)
    (hx : Returns x s t) :
    Returns (law.splice expr x) (answer :: s) ((vs.map .same).foldr .pair t) := by
  refine (returns_ask he).bind ?_
  rw [hv]
  exact hx.map fun t => (vs.map Built.same).foldr .pair t

lemma fails_splice_improper (he : answer.expr = expr) (hv : answer.elements = none) :
    Fails (law.splice expr x) [answer] (.improper expr) := by
  refine (returns_ask he).fails ?_
  rw [hv]
  exact fails_throw _

lemma fails_splice (he : answer.expr = expr) (hv : answer.elements = some vs) (hx : Fails x s f) :
    Fails (law.splice expr x) (answer :: s) f := by
  refine (returns_ask he).fails ?_
  rw [hv]
  exact hx.bind

lemma fails_splice_unanswered (expr : Handle) (x : Asking Built) :
    Fails (law.splice expr x) [] (.unanswered expr) := (fails_ask expr).bind

lemma returns_pair (hx : Returns x s t) (hy : Returns y s' u) :
    Returns (law.pair x y) (s ++ s') (.pair t u) := hx.bind (hy.map (Built.pair t))

lemma fails_head (hx : Fails x s f) : Fails (law.pair x y) s f := hx.bind

lemma fails_tail (hx : Returns x s t) (hy : Fails y s' f) : Fails (law.pair x y) (s ++ s') f :=
  hx.fails hy.bind

/-- The law takes the values of the expressions, from left to right. -/
lemma law_asks (kw : Keywords) (s : Shape) (level : Nat) :
    (s.fold law kw level).Asks (s.fold expressions kw level) := by
  refine Shape.fold_rel (R := fun (x : Asking Built) es => x.Asks es) (fun v => ?_)
    (fun tag x es hx => ?_)
    (fun expr => ?_) (fun expr x es hx => ?_) (fun x es y es' hx hy => ?_) (fun form => ?_) s level
  · exact asks_pure _
  · exact hx.map fun t => Built.pair (.same tag) (.pair t (.same .emptyList))
  · exact (asks_ask expr).map fun answer : Answer => Built.same answer.value
  · refine (asks_ask expr).bind fun answer => ?_
    cases answer.elements with
    | none => exact asks_improper _ _
    | some vs => exact hx.map fun t => (vs.map Built.same).foldr .pair t
  · exact hx.bind fun t => hy.map (Built.pair t)
  · exact asks_malformed _ _

end Asking

end ArenaScheme
