/-
# What is asked of arguments

A built-in procedure looks at the number of its arguments first, then for an error object among
them, and only then at anything else.  All that is done in the heap as it is: until the arguments
have passed both tests no object is made or changed.

So a call with a number of arguments that the procedure does not accept fails with an arity error,
whatever the arguments are, and a call with an error object among them fails with the first one.
The test for error objects is the one procedure that leaves out the second look.
-/
import ArenaScheme.Proofs.Protection.Constructors
import ArenaScheme.Eval.Application

namespace ArenaScheme

open Heap HeapM

/-- Whether a handle is that of an error object. -/
def Heap.isError (h : Heap) (v : Handle) : Bool := (h.object? v).any (·.type == .error)

/-- How many arguments a procedure accepts. -/
inductive Arity
  | exactly (n : Nat)
  | atLeast (n : Nat)
deriving DecidableEq, Repr

/-- Whether so many arguments are accepted. -/
def Arity.Admits : Arity → Nat → Prop
  | exactly n, given => given = n
  | atLeast n, given => n ≤ given

namespace Builtin

/-- The numbers of arguments that a procedure accepts. -/
def arity : Builtin → Arity
  | add | multiply | list => .atLeast 0
  | subtract | divide | compare _ => .atLeast 1
  | cons | setCar | setCdr | same => .exactly 2
  | car | cdr | length | test _ | isError | negate | raiseError => .exactly 1
  | collectGarbage => .exactly 0

/-- What is said of a number of arguments that is not accepted. -/
def countMessage (b : Builtin) (given : Nat) : Arity → String
  | .exactly n => b.name ++ " expects " ++ toString n ++ " argument(s), got " ++ toString given
  | .atLeast n =>
    b.name ++ " expects at least " ++ toString n ++ " argument(s), got " ++ toString given

end Builtin

variable {α β : Type} {h k : Heap} {b : Builtin} {args v e : Handle} {vs cells : List Handle}
  {wanted : Arity}

namespace Heap

lemma isError_of_object? {d : Datum} (hd : h.object? v = some d) :
    h.isError v = (d.type == .error) := by
  rw [isError, hd]
  rfl

/-- What is reported is an error object, also if there is no room for a new one. -/
lemma Reports.isError {kind : ErrorKind} {message : String} (hr : h.Reports kind message e k)
    (hs : h.HasSentinels) : k.isError e = true := by
  obtain ⟨-, ⟨-, -, hd⟩ | ⟨-, ha, rfl⟩⟩ := hr
  · rw [isError_of_object? hd]
    rfl
  · rw [isError_of_object? (ha.hasSentinels hs .outOfMemory (by decide))]
    rfl

/-- What a list is made of is live. -/
lemma Row.forall_isLive {last : Handle} (hr : h.Row last vs cells v) (hc : h.Closed) :
    ∀ x ∈ vs, h.isLive x = true := by
  induction hr with
  | nil => exact fun x hx => absurd hx List.not_mem_nil
  | @cons x _ _ _ _ hv _ ih =>
    exact List.forall_mem_cons.mpr ⟨hc.child _ _ hv x (by simp [Datum.children]), ih⟩

end Heap

namespace Builtin

/-! ## The arguments -/

/-- The arguments are the elements of the list. -/
lemma arguments_apply (hs : h.HasSentinels) (hr : h.Row .emptyList vs cells args) :
    (arguments args : EvalM (List Handle)) h = .ok vs h := by
  rw [arguments, bind_of_ok (items?_of_row hs hr)]
  rfl

/-- Whatever object stands for the list, the arguments are live. -/
lemma exists_arguments (hw : h.WellFormed) (hs : h.HasSentinels) (hl : h.isLive args = true) :
    ∃ vs, (arguments args : EvalM (List Handle)) h = .ok vs h ∧ ∀ v ∈ vs, h.isLive v = true := by
  by_cases hr : ∃ vs cells, h.Row .emptyList vs cells args
  · obtain ⟨vs, cells, hr⟩ := hr
    exact ⟨vs, arguments_apply hs hr, hr.forall_isLive hw.toClosed⟩
  · have hn : ∀ vs cells, ¬ h.Row .emptyList vs cells args :=
      fun vs cells hrow => hr ⟨vs, cells, hrow⟩
    refine ⟨[], ?_, by simp⟩
    rw [arguments, bind_of_ok (items?_of_not_row hw hs hl hn)]
    rfl

/-- The first error object among live objects is passed on. -/
lemma passErrors_apply (hl : ∀ v ∈ vs, h.isLive v = true) :
    passErrors vs h = match vs.find? h.isError with
      | some e => .error e h
      | none => .ok () h := by
  induction vs with
  | nil => rfl
  | cons v vs ih =>
    obtain ⟨hv, hl⟩ := List.forall_mem_cons.mp hl
    obtain ⟨d, hd⟩ := isLive_iff.mp hv
    rw [passErrors, List.forM_eq_forM, List.forM_cons, ← List.forM_eq_forM, List.find?_cons,
      isError_of_object? hd, bind_assoc, bind_of_ok (hasType_apply hd .error)]
    cases d.type == .error with
    | true => rfl
    | false => exact ih hl

/-! ## The order of the tests -/

/-- An action that tests arguments: it fails if it is not given as many as are wanted; and if it is,
then it fails with the first error object among them, and nothing has happened in the heap. -/
structure Tests (h : Heap) (vs : List Handle) (b : Builtin) (wanted : Arity)
    (x : EvalM α) : Prop where
  count : ¬ wanted.Admits vs.length →
    (x h).Finishes (fun _ _ => False) (h.Reports .arity (b.countMessage vs.length wanted))
  errors : wanted.Admits vs.length → ∀ e, vs.find? h.isError = some e → x h = .error e h

/-- Nothing that comes after the tests is of any matter. -/
lemma Tests.bind {x : EvalM α} {f : α → EvalM β} (hx : Tests h vs b wanted x) :
    Tests h vs b wanted (x >>= f) :=
  ⟨fun hn => finishes_bind (hx.count hn) fun _ _ hk => hk.elim,
    fun hy e he => bind_of_error (hx.errors hy e he)⟩

section Tests

variable (hw : h.WellFormed) (hs : h.HasSentinels) (hr : h.Row .emptyList vs cells args)
include hw hs hr

lemma count_anyArgument (hn : vs.length ≠ 1) :
    (b.anyArgument args h).Finishes (fun _ _ => False)
      (h.Reports .arity (b.countMessage vs.length (.exactly 1))) := by
  rw [anyArgument, bind_of_ok (arguments_apply hs hr)]
  match vs, hn with
  | [], _ | _ :: _ :: _, _ => exact raise_finishes hw (by decide) _

lemma tests_oneArgument : Tests h vs b (.exactly 1) (b.oneArgument args) := by
  refine ⟨fun hn => finishes_bind (count_anyArgument hw hs hr hn) fun _ _ hk => hk.elim,
    fun hy e he => ?_⟩
  obtain ⟨x, rfl⟩ := List.length_eq_one_iff.mp hy
  have hx : b.anyArgument args h = .ok x h := bind_of_ok (arguments_apply hs hr)
  rw [oneArgument, bind_of_ok hx]
  exact bind_of_error (by rw [passErrors_apply (hr.forall_isLive hw.toClosed), he])

lemma tests_twoArguments : Tests h vs b (.exactly 2) (b.twoArguments args) := by
  rw [twoArguments]
  refine ⟨fun hn => ?_, fun hy e he => ?_⟩
  · rw [bind_of_ok (arguments_apply hs hr)]
    match vs, hn with
    | [], _ | [_], _ | _ :: _ :: _ :: _, _ => exact raise_finishes hw (by decide) _
    | [_, _], hn => exact absurd rfl hn
  · obtain ⟨x, y, rfl⟩ := List.length_eq_two.mp hy
    rw [bind_of_ok (arguments_apply hs hr)]
    exact bind_of_error (by rw [passErrors_apply (hr.forall_isLive hw.toClosed), he])

lemma tests_noArgument : Tests h vs b (.exactly 0) (b.noArgument args) := by
  rw [noArgument]
  refine ⟨fun hn => ?_, fun hy e he => ?_⟩
  · rw [bind_of_ok (arguments_apply hs hr)]
    match vs, hn with
    | _ :: _, _ => exact raise_finishes hw (by decide) _
    | [], hn => exact absurd rfl hn
  · obtain rfl := List.length_eq_zero_iff.mp hy
    cases he

lemma tests_manyArguments (least : Nat) :
    Tests h vs b (.atLeast least) (b.manyArguments least args) := by
  rw [manyArguments]
  refine ⟨fun hn => ?_, fun hy e he => ?_⟩ <;> rw [bind_of_ok (arguments_apply hs hr)]
  · rw [if_pos (Nat.lt_of_not_le hn)]
    exact raise_finishes hw (by decide) _
  · rw [if_neg (Nat.not_lt.mpr hy)]
    exact bind_of_error (by rw [passErrors_apply (hr.forall_isLive hw.toClosed), he])

/-- All procedures but one begin with both tests. -/
lemma tests_call (hb : b ≠ .isError) : Tests h vs b b.arity (b.call args) := by
  cases b with
  | isError => exact absurd rfl hb
  | add | subtract | multiply | divide | compare _ =>
    exact (tests_manyArguments hw hs hr _).bind.bind
  | list => exact (tests_manyArguments hw hs hr _).bind
  | cons | setCar | setCdr | same => exact (tests_twoArguments hw hs hr).bind
  | car | cdr | length | test _ | negate | raiseError => exact (tests_oneArgument hw hs hr).bind
  | collectGarbage => exact (tests_noArgument hw hs hr).bind

end Tests

end Builtin

/-! ## Error objects -/

/-- Error objects pass through the procedures.  Let `b` be any procedure but the test for error
objects, and let it be called with a proper list of arguments.

* If it does not accept so many arguments then the call fails with an arity error, even if some of
  them are error objects.
* If it does, and one of them is an error object, wherever it stands and whatever the others are,
  then the call fails with the first one that is, and so does the application of the procedure to
  the list.  It is the same object, and the heap is left as it was. -/
theorem errors_pass_through (hw : h.WellFormed) (hs : h.HasSentinels)
    (hr : h.Row .emptyList vs cells args) (hb : b ≠ .isError) :
    (¬ b.arity.Admits vs.length → (b.call args h).Finishes (fun _ _ => False)
      (h.Reports .arity (b.countMessage vs.length b.arity))) ∧
    (b.arity.Admits vs.length → (∃ v ∈ vs, h.isError v = true) →
      ∃ e, vs.find? h.isError = some e ∧ b.call args h = .error e h ∧
        ∀ host, Application.applyForeign host (.builtin b) args h = .error e h) := by
  have ht := Builtin.tests_call hw hs hr hb
  refine ⟨ht.count, fun hy hv => ?_⟩
  obtain ⟨e, he⟩ := Option.isSome_iff_exists.mp (List.find?_isSome.mpr hv)
  have hcall : b.call args h = .error e h := ht.errors hy e he
  obtain ⟨d, hd⟩ := isLive_iff.mp (hr.forall_isLive hw.toClosed e (List.mem_of_find?_eq_some he))
  have herror : (d.type == .error) = true := isError_of_object? hd ▸ List.find?_some he
  refine ⟨e, he, hcall, fun host => ?_⟩
  -- the error object becomes the value, and as such the failure again
  have hnative : (recover (Application.callNative host (.builtin b) args) id : EvalM Handle) h =
      .ok e h := by
    rw [recover, Application.callNative, hcall]
    rfl
  rw [Application.applyForeign, bind_of_ok hnative, bind_of_ok (hasType_apply hd .error), herror]
  rfl

/-- A list of two integers, a list of `#t` and an error object, and a free cell. -/
def supplied : Heap where
  cells := #[.emptyList, .bool true, .bool false, .error .outOfMemory "out of memory",
    .int Int64.minValue, .int (-1), .error .user "boom", .pair ⟨4⟩ ⟨8⟩, .pair ⟨5⟩ .emptyList,
    .pair .trueObject ⟨10⟩, .pair ⟨6⟩ .emptyList, .free none none, rootFrame]
  capacity := 8
  free := some 11
  freeCount := 1
  collections := 0
  roots := #[]
  rootSlots := 8
  symbols := ∅
  baseEnv := ⟨12⟩
  currentEnv := ⟨12⟩
  audited := true

lemma wellFormed_supplied : supplied.WellFormed where
  toClosed := by decide
  free := ⟨[11], .of_list ⟨rfl, none, rfl, rfl⟩ (by decide) (by decide) rfl⟩
  table := by simp [supplied]

lemma hasSentinels_supplied : supplied.HasSentinels :=
  .of_take rfl

/-- The first argument of `set-car!` is no pair there, and its second argument is an error
object. -/
theorem errors_pass_through_supplied :
    supplied.WellFormed ∧ supplied.HasSentinels ∧
    supplied.Row .emptyList [.trueObject, ⟨6⟩] [⟨9⟩, ⟨10⟩] ⟨9⟩ ∧
    Builtin.setCar ≠ .isError ∧ Builtin.setCar.arity.Admits 2 ∧ supplied.isError ⟨6⟩ = true ∧
    Builtin.setCar.call ⟨9⟩ supplied = .error ⟨6⟩ supplied ∧ ¬ Builtin.car.arity.Admits 2 ∧
    (Builtin.car.call ⟨9⟩ supplied).Finishes (fun _ _ => False)
      (supplied.Reports .arity "car expects 1 argument(s), got 2") := by
  have hr : supplied.Row .emptyList [.trueObject, ⟨6⟩] [⟨9⟩, ⟨10⟩] ⟨9⟩ := .cons rfl (.cons rfl .nil)
  have hcar : ¬ Builtin.car.arity.Admits 2 := by simp [Builtin.arity, Arity.Admits]
  obtain ⟨e, he, hcall, -⟩ :=
    (errors_pass_through (b := .setCar) wellFormed_supplied hasSentinels_supplied hr
    (by decide)).2 rfl ⟨⟨6⟩, by simp, rfl⟩
  obtain rfl : ⟨6⟩ = e := Option.some.inj he
  exact ⟨wellFormed_supplied, hasSentinels_supplied, hr, by decide, rfl, rfl, hcall, hcar,
    (errors_pass_through (b := .car) wellFormed_supplied hasSentinels_supplied hr (by decide)).1
    hcar⟩

end ArenaScheme
