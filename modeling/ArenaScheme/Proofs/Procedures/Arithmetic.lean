/-
# Exact arithmetic

The four arithmetic procedures calculate from left to right.  On integers a sum, a product or a
difference is the one of mathematics, and it is there if and only if all partial results have
sixty-four bits.  A quotient is an integer if and only if every step divides exactly, with a
quotient of sixty-four bits; otherwise it is a real, and a division by zero is an error.  That
includes the least integer, whose opposite does not have sixty-four bits.

Whatever they are called with, the procedures return a number or fail with an error object, and they
return an integer only if all arguments are integers.  So no calculation ever wraps around.
-/
import ArenaScheme.Proofs.Procedures.Arguments

namespace ArenaScheme

open Heap HeapM

/-- Where a calculation starts that goes from the first number on through the others, and what it
goes through.  A lone number is taken from the unit. -/
def successively {α : Type} (unit : α) : List α → Option (α × List α)
  | [] => none
  | [n] => some (unit, [n])
  | n :: ns => some (n, ns)

/-- Every step of dividing a number by others is exact and has a quotient that fits. -/
def DividesThrough : Int → List Int → Prop
  | _, [] => True
  | a, d :: ds => d ∣ a ∧ Number.fits (a / d) = true ∧ DividesThrough (a / d) ds

lemma successively_map {α β : Type} (f : α → β) (unit : α) (ns : List α) :
    successively (f unit) (ns.map f) = (successively unit ns).map fun p => (f p.1, p.2.map f) := by
  match ns with
  | [] | [_] | _ :: _ :: _ => rfl

/-- A number that is divided without a remainder is the quotient times the divisors. -/
lemma DividesThrough.foldl_mul_prod {a : Int} {ds : List Int} (hd : DividesThrough a ds) :
    ds.foldl (· / ·) a * ds.prod = a := by
  induction ds generalizing a with
  | nil => simp
  | cons d ds ih =>
    obtain ⟨hdvd, -, hrest⟩ := hd
    calc ds.foldl (· / ·) (a / d) * (d * ds.prod)
        = ds.foldl (· / ·) (a / d) * ds.prod * d := by rw [mul_comm d, ← mul_assoc]
      _ = a / d * d := by rw [ih hrest]
      _ = a := Int.ediv_mul_cancel hdvd

/-! ## Calculations -/

namespace Num

variable {exact : Int → Int → Int} {onReals : Float → Float → Float} {a q : Int64} {ns : List Int64}
  {x y : Num} {xs : List Num} {step : Num → Num → Except ArithmeticFault Num}

/-- All partial results of a calculation on integers fit. -/
def Contained (exact : Int → Int → Int) (a : Int) (ns : List Int) : Prop :=
  ∀ m ∈ ns.scanl exact a, Number.fits m = true

lemma contained_cons {b n : Int} {ms : List Int} (hb : Number.fits b = true) :
    Contained exact b (n :: ms) ↔ Number.fits (exact b n) = true ∧
    Contained exact (exact b n) ms := by
  have hstart : Contained exact (exact b n) ms → Number.fits (exact b n) = true := fun hc =>
    hc _ (by cases ms <;> simp)
  rw [Contained, List.scanl_cons, List.forall_mem_cons, and_iff_right hb]
  exact ⟨fun hc => ⟨hstart hc, hc⟩, fun hc => hc.2⟩

/-- What fits all the way is calculated exactly. -/
lemma foldlM_combine_of_contained (onReals : Float → Float → Float)
    (hc : Contained exact a.toInt (ns.map Int64.toInt)) :
    ∃ n : Int64, n.toInt = (ns.map Int64.toInt).foldl exact a.toInt ∧
      (ns.map int).foldlM (combine exact onReals) (int a) = .ok (int n) := by
  induction ns generalizing a with
  | nil => exact ⟨a, rfl, rfl⟩
  | cons n ns ih =>
    obtain ⟨hf, hc⟩ := (contained_cons (Number.fits_toInt a)).mp hc
    rw [← Number.toInt_ofInt hf] at hc
    obtain ⟨m, hm, hrun⟩ := ih hc
    refine ⟨m, by rw [hm, Number.toInt_ofInt hf]; rfl, ?_⟩
    rw [List.map_cons, List.foldlM_cons, combine, ofInt?, if_pos hf]
    exact hrun

/-- The first partial result that does not fit is a fault. -/
lemma foldlM_combine_of_not_contained (hc : ¬ Contained exact a.toInt (ns.map Int64.toInt)) :
    (ns.map int).foldlM (combine exact onReals) (int a) = .error .overflow := by
  induction ns generalizing a with
  | nil => exact absurd (fun m hm => List.mem_singleton.mp hm ▸ Number.fits_toInt a) hc
  | cons n ns ih =>
    rw [List.map_cons, contained_cons (Number.fits_toInt a)] at hc
    rw [List.map_cons, List.foldlM_cons, combine, ofInt?]
    by_cases hf : Number.fits (exact a.toInt n.toInt) = true
    · rw [if_pos hf]
      rw [← Number.toInt_ofInt hf] at hc
      exact ih fun hc' => hc ⟨Number.fits_toInt _, hc'⟩
    · rw [if_neg hf]
      rfl

/-! ### Division -/

lemma div_of_isZero (hy : y.isZero = true) : div x y = .error .divisionByZero := by
  rw [div, if_pos hy]

/-- A division of integers is exact, or comes to a real. -/
lemma div_int {d : Int64} (hd : d.toInt ≠ 0) :
    div (int a) (int d) = .ok (if d.toInt ∣ a.toInt ∧ Number.fits (a.toInt / d.toInt) = true
      then int (Int64.ofInt (a.toInt / d.toInt)) else ofFloat
        ((int a).toFloat / (int d).toFloat)) := by
  have hzero : ¬ (int d).isZero = true := by simpa [isZero] using hd
  rw [div, if_neg hzero]
  dsimp only
  by_cases hdvd : d.toInt ∣ a.toInt
  · simp only [Int.tmod_eq_zero_of_dvd hdvd, Int.tdiv_eq_ediv_of_dvd hdvd, hdvd, decide_true,
      Bool.true_and, true_and]
  · have hmod : ¬ a.toInt.tmod d.toInt = 0 := fun hm => hdvd (Int.dvd_of_tmod_eq_zero hm)
    simp [hdvd, hmod]

/-- A division by anything but zero has a result. -/
lemma exists_div (hy : y.isZero = false) : ∃ z, div x y = .ok z := by
  rw [div, if_neg (by simp [hy])]
  cases x <;> cases y <;> exact ⟨_, rfl⟩

/-- Once a real, always a real. -/
lemma foldlM_div_of_real {r : Flonum} (hx : ∀ y ∈ xs, y.isZero = false) :
    ∃ s, xs.foldlM div (real r) = .ok (real s) := by
  induction xs generalizing r with
  | nil => exact ⟨r, rfl⟩
  | cons y xs ih =>
    obtain ⟨hy, hx⟩ := List.forall_mem_cons.mp hx
    obtain ⟨s, hs⟩ : ∃ s, div (real r) y = .ok (real s) := by
      rw [div, if_neg (by simp [hy])]
      exact ⟨_, rfl⟩
    rw [List.foldlM_cons, hs]
    exact ih hx

/-- A zero among the divisors is met. -/
lemma foldlM_div_of_zero (hy : ∃ y ∈ xs, y.isZero = true) :
    xs.foldlM div x = .error .divisionByZero := by
  induction xs generalizing x with
  | nil => simp at hy
  | cons y xs ih =>
    rw [List.foldlM_cons]
    cases hz : y.isZero with
    | true =>
      rw [div_of_isZero hz]
      rfl
    | false =>
      obtain ⟨z, hdiv⟩ := exists_div (x := x) hz
      rw [hdiv]
      exact ih (by simpa [hz] using hy)

lemma int_of_combine (hq : combine exact onReals x y = .ok (int q)) :
    ∃ a b, x = int a ∧ y = int b := by
  cases x <;> cases y <;> first | exact ⟨_, _, rfl, rfl⟩ | cases hq

lemma int_of_div (hq : div x y = .ok (int q)) : ∃ a b, x = int a ∧ y = int b := by
  rw [div] at hq
  split at hq
  · cases hq
  · cases x <;> cases y <;> first | exact ⟨_, _, rfl, rfl⟩ | cases hq

/-- An integer comes of integers only. -/
lemma int_of_foldlM (hstep : ∀ {x y q}, step x y = .ok (int q) → ∃ a b, x = int a ∧ y = int b)
    (hq : xs.foldlM step x = .ok (int q)) : (∃ a, x = int a) ∧ ∃ ns, xs = List.map int ns := by
  induction xs generalizing x with
  | nil => exact ⟨⟨q, Except.ok.inj hq⟩, [], rfl⟩
  | cons y xs ih =>
    rw [List.foldlM_cons] at hq
    cases hz : step x y with
    | error c =>
      rw [hz] at hq
      cases hq
    | ok z =>
      rw [hz] at hq
      obtain ⟨⟨m, rfl⟩, ns, rfl⟩ := ih hq
      obtain ⟨a, b, rfl, rfl⟩ := hstep hz
      exact ⟨⟨a, rfl⟩, b :: ns, rfl⟩

lemma difference_eq {n : Num} {ys : List Num} (hx : successively (int 0) (n :: xs) = some (x, ys)) :
    difference n xs = ys.foldlM sub x := by
  match xs, hx with
  | [], hx | _ :: _, hx =>
    cases hx
    first | rfl | exact (bind_pure _).symm

lemma quotient_eq {n : Num} {ys : List Num} (hx : successively (int 1) (n :: xs) = some (x, ys)) :
    quotient n xs = ys.foldlM div x := by
  match xs, hx with
  | [], hx | _ :: _, hx =>
    cases hx
    first | rfl | exact (bind_pure _).symm

/-- So does a calculation from the first number on. -/
lemma int_of_successively {unit : Int64} {rule : Num → List Num → Except ArithmeticFault Num}
    (hstep : ∀ {x y q}, step x y = .ok (int q) → ∃ a b, x = int a ∧ y = int b)
    (hrule : ∀ {n xs x ys}, successively (int unit) (n :: xs) = some (x, ys) →
      rule n xs = ys.foldlM step x)
    (hq : rule x xs = .ok (int q)) : ∃ ns, x :: xs = List.map int ns := by
  cases xs with
  | nil =>
    rw [hrule rfl] at hq
    exact (int_of_foldlM hstep hq).2
  | cons y xs =>
    rw [hrule rfl] at hq
    obtain ⟨⟨a, rfl⟩, ns, hns⟩ := int_of_foldlM hstep hq
    exact ⟨a :: ns, by rw [hns]; rfl⟩

/-- A division of integers that is exact all the way. -/
lemma foldlM_div_of_dividesThrough (h0 : 0 ∉ ns.map Int64.toInt)
    (hd : DividesThrough a.toInt (ns.map Int64.toInt)) :
    ∃ q : Int64, q.toInt = (ns.map Int64.toInt).foldl (· / ·) a.toInt ∧
      (ns.map int).foldlM div (int a) = .ok (int q) := by
  induction ns generalizing a with
  | nil => exact ⟨a, rfl, rfl⟩
  | cons d ns ih =>
    obtain ⟨hdvd, hf, hd⟩ := hd
    rw [List.map_cons, List.mem_cons, not_or] at h0
    rw [← Number.toInt_ofInt hf] at hd
    obtain ⟨q, hq, hrun⟩ := ih h0.2 hd
    refine ⟨q, by rw [hq, Number.toInt_ofInt hf]; rfl, ?_⟩
    rw [List.map_cons, List.foldlM_cons, div_int (Ne.symm h0.1), if_pos ⟨hdvd, hf⟩]
    exact hrun

/-- From the first step on that is not exact, a division of integers goes on with reals. -/
lemma foldlM_div_of_not_dividesThrough (h0 : 0 ∉ ns.map Int64.toInt)
    (hd : ¬ DividesThrough a.toInt (ns.map Int64.toInt)) :
    ∃ r, (ns.map int).foldlM div (int a) = .ok (real r) := by
  induction ns generalizing a with
  | nil => exact absurd trivial hd
  | cons d ns ih =>
    rw [List.map_cons, List.mem_cons, not_or] at h0
    rw [List.map_cons, List.foldlM_cons, div_int (Ne.symm h0.1)]
    by_cases hstep : d.toInt ∣ a.toInt ∧ Number.fits (a.toInt / d.toInt) = true
    · rw [if_pos hstep]
      refine ih h0.2 fun hrest => hd ⟨hstep.1, hstep.2, ?_⟩
      rwa [Number.toInt_ofInt hstep.2] at hrest
    · rw [if_neg hstep]
      exact foldlM_div_of_real (by simpa [isZero] using h0.2)

end Num

/-! ## Numbers as objects -/

/-- The object of a number. -/
def Num.datum : Num → Datum
  | .int n => .int n
  | .real x => .real x

variable {h k : Heap} {b : Builtin} {args v : Handle} {vs cells : List Handle} {x : Num}
  {xs : List Num} {ns : List Int64} {o : Outcome Handle Handle}

namespace Heap

/-- There is a new object for the number. -/
def Gives (h : Heap) (o : Outcome Handle Handle) (x : Num) : Prop :=
  ∃ v k, o = .ok v k ∧ h.Adds [] [v] k ∧ k.roots = h.roots ∧ k.object? v = some x.datum

/-- There is an error object instead. -/
def Refuses {α : Type} (h : Heap) (o : Outcome Handle α) (kind : ErrorKind) (message : String) :
    Prop :=
  ∃ e k, o = .error e k ∧ h.Reports kind message e k

lemma Gives.unique {y : Num} (hx : h.Gives o x) (hy : h.Gives o y) : x = y := by
  obtain ⟨v, k, rfl, -, -, hv⟩ := hx
  obtain ⟨_, _, heq, -, -, hv'⟩ := hy
  obtain ⟨rfl, rfl⟩ := Outcome.ok.inj heq
  have hd : x.datum = y.datum := Option.some.inj (hv.symm.trans hv')
  cases x <;> cases y <;> first | cases hd; rfl | cases hd

lemma Gives.not_refuses {kind : ErrorKind} {message : String} (hx : h.Gives o x) :
    ¬ h.Refuses o kind message := by
  rintro ⟨e, k, rfl, -⟩
  obtain ⟨_, _, heq, -⟩ := hx
  cases heq

lemma refuses_of_finishes {α : Type} {o : Outcome Handle α} {kind : ErrorKind} {message : String}
    (ho : o.Finishes (fun _ _ => False) (h.Reports kind message)) : h.Refuses o kind message := by
  obtain ⟨_, _, -, hf⟩ | ⟨e, k, rfl, hr⟩ := ho.cases
  · exact hf.elim
  · exact ⟨e, k, rfl, hr⟩

lemma forall₂_int_iff :
    List.Forall₂ (fun v x => h.object? v = some (Num.datum x)) vs (ns.map .int) ↔
    List.Forall₂ (fun v n => h.object? v = some (.int n)) vs ns := List.forall₂_map_right_iff

end Heap

namespace Builtin

lemma isError_datum (hv : h.object? v = some x.datum) : h.isError v = false := by
  rw [isError_of_object? hv]
  cases x <;> rfl

lemma numberArgument_apply (hv : h.object? v = some x.datum) : b.numberArgument v h = .ok x h := by
  rw [numberArgument, bind_of_ok (datum_apply hv)]
  cases x <;> rfl

/-- The values of the objects of numbers. -/
lemma numbers_eq {least : Nat} (hs : h.HasSentinels) (hr : h.Row .emptyList vs cells args)
    (hv : List.Forall₂ (fun v x => h.object? v = some (Num.datum x)) vs xs)
    (hl : least ≤ vs.length) :
    b.numbers least args h = .ok xs h := by
  have hlive : ∀ v ∈ vs, h.isLive v = true ∧ h.isError v = false := by
    clear hr hl
    induction hv with
    | nil => simp
    | cons hv _ ih => exact List.forall_mem_cons.mpr ⟨⟨isLive_of_object? hv, isError_datum hv⟩, ih⟩
  have hnone : vs.find? h.isError = none := by
    rw [List.find?_eq_none]
    exact fun v hv => by simp [(hlive v hv).2]
  have herrors : passErrors vs h = .ok () h := by
    rw [passErrors_apply fun v hv => (hlive v hv).1, hnone]
  have hmany : b.manyArguments least args h = .ok vs h := by
    rw [manyArguments, bind_of_ok (arguments_apply hs hr), if_neg (Nat.not_lt.mpr hl),
      bind_of_ok herrors]
    rfl
  rw [numbers, bind_of_ok hmany]
  clear hr hl hlive hnone herrors hmany
  induction hv with
  | nil => rfl
  | cons hv _ ih =>
    rw [List.mapM_cons, bind_of_ok (numberArgument_apply hv), bind_of_ok ih]
    rfl

/-- Live objects have values if they are numbers. -/
lemma numbers_finishes (least : Nat) (hw : h.WellFormed) (hs : h.HasSentinels)
    (ha : (arguments args : EvalM (List Handle)) h = .ok vs h) (hl : ∀ v ∈ vs, h.isLive v = true) :
    (b.numbers least args h).Finishes
      (fun xs k => k = h ∧ least ≤ xs.length ∧
        List.Forall₂ (fun v x => h.object? v = some (Num.datum x)) vs xs)
      fun e k => k.isError e = true := by
  have hraise : ∀ {α : Type} {kind : ErrorKind} {message : String} {P : α → Heap → Prop},
    kind ≠ .outOfMemory →
      ((raise kind message : EvalM α) h).Finishes P fun e k => k.isError e = true := fun hk =>
    (raise_finishes hw hk _).mono (fun _ _ hf => hf.elim) fun _ _ hr => hr.isError hs
  have hmany : (b.manyArguments least args h).Finishes
      (fun us k => k = h ∧ us = vs ∧ least ≤ us.length) fun e k => k.isError e = true := by
    rw [manyArguments, bind_of_ok ha]
    split
    · exact hraise (by decide)
    · next hle =>
      refine finishes_bind (P := fun _ k => k = h) ?_ fun _ k hk => ⟨hk, rfl, Nat.not_lt.mp hle⟩
      rw [passErrors_apply hl]
      cases he : vs.find? h.isError with
      | none => exact rfl
      | some e => exact List.find?_some he
  refine finishes_bind hmany fun us k hk => ?_
  obtain ⟨rfl, rfl, hle⟩ := hk
  suffices hmap : ((us.mapM b.numberArgument : EvalM (List Num)) k).Finishes
      (fun xs l => l = k ∧ List.Forall₂ (fun v x => k.object? v = some (Num.datum x)) us xs)
      fun e l => l.isError e = true from
    hmap.mono (fun xs l hx => ⟨hx.1, hx.2.length_eq ▸ hle, hx.2⟩) fun _ _ => id
  clear ha hmany hle
  induction us with
  | nil => exact ⟨rfl, .nil⟩
  | cons v us ih =>
    obtain ⟨hv, hl⟩ := List.forall_mem_cons.mp hl
    obtain ⟨d, hd⟩ := isLive_iff.mp hv
    rw [List.mapM_cons]
    refine finishes_bind
      (P := fun x l => l = k ∧ k.object? v = some (Num.datum x)) ?_ fun x l hx => ?_
    · rw [numberArgument, bind_of_ok (datum_apply hd)]
      split
      · exact ⟨rfl, hd⟩
      · exact ⟨rfl, hd⟩
      · rw [wrongArgument, bind_of_ok (typeOf_apply hd)]
        exact hraise (by decide)
    · obtain ⟨rfl, hx⟩ := hx
      refine finishes_bind (ih hl) fun xs m hm => ?_
      obtain ⟨rfl, hxs⟩ := hm
      exact ⟨rfl, .cons hx hxs⟩

/-- A calculation from the first of some numbers on. -/
lemma calculate_apply {rule : Num → List Num → Except ArithmeticFault Num}
    (hn : b.numbers 1 args h = .ok (x :: xs) k) :
    b.calculate rule args h = b.makeNumber (rule x xs) k := bind_of_ok hn

/-- A number is made unless there is no room for it. -/
lemma makeNumber_finishes (hw : h.WellFormed) (hs : h.HasSentinels) (x : Num) :
    (b.makeNumber (.ok x) h).Finishes
      (fun v k => h.Adds [] [v] k ∧ k.roots = h.roots ∧ k.object? v = some x.datum)
      fun e k => h.capacity ≤ h.usedWith [] ∧ k.isError e = true := by
  have hchildren : x.datum.children = [] := by cases x <;> rfl
  have hrun : b.makeNumber (.ok x) h = alloc x.datum h := by cases x <;> rfl
  rw [hrun]
  rcases alloc_adds (d := x.datum) hw (by cases x <;> rfl) (by simp [hchildren]) with
    ⟨v, k, hrun, ha, hv, hroots⟩ | ⟨k, hrun, ha, -, hall⟩ <;> rw [hrun] <;> rw [hchildren] at ha
  · exact ⟨ha, hroots, hv⟩
  · rw [hchildren] at hall
    have hle : h.capacity ≤ h.usedWith [] :=
      (Adds.refl hw (by simp)).capacity_le (fun v hv => absurd hv List.not_mem_nil) hall
    exact ⟨hle, isError_of_object? (ha.hasSentinels hs .outOfMemory (by decide))⟩

lemma gives_makeNumber (hw : h.WellFormed) (hs : h.HasSentinels) (hcap : h.usedWith [] < h.capacity)
    (x : Num) :
    h.Gives (b.makeNumber (.ok x) h) x := by
  obtain ⟨v, k, hrun, hk⟩ | ⟨_, _, -, hfull, -⟩ := (makeNumber_finishes (b := b) hw hs x).cases
  · exact ⟨v, k, hrun, hk⟩
  · exact absurd hcap (Nat.not_lt.mpr hfull)

lemma faults_makeNumber (hw : h.WellFormed) (c : ArithmeticFault) :
    h.Refuses (b.makeNumber (.error c) h) .wrongType
      (match c with
        | .overflow => "integer overflow in " ++ b.name
        | .divisionByZero => "division by zero") := by
  cases c <;> exact refuses_of_finishes (raise_finishes hw (by decide) _)

end Builtin

/-! ## The theorem -/

namespace Heap

/-- The procedure `b` calculates with an exact operation on integers, from `a` on through `ns`: it
gives the result of mathematics if and only if all partial results fit, and otherwise there is an
error. -/
structure Calculates (h : Heap) (b : Builtin) (args : Handle) (exact : Int → Int → Int) (a : Int)
    (ns : List Int) :
    Prop where
  exact_iff : (∃ n : Int64, n.toInt = ns.foldl exact a ∧ h.Gives (b.call args h) (.int n)) ↔
    Num.Contained exact a ns
  overflow_iff : h.Refuses (b.call args h) .wrongType ("integer overflow in " ++ b.name) ↔
    ¬ Num.Contained exact a ns

/-- The procedure `/` divides the integer `a` by the integers `ds` one after the other. -/
structure Divides (h : Heap) (args : Handle) (a : Int) (ds : List Int) : Prop where
  zero_iff : h.Refuses (Builtin.divide.call args h) .wrongType "division by zero" ↔ 0 ∈ ds
  int_iff : 0 ∉ ds → ((∃ q, h.Gives (Builtin.divide.call args h) (.int q)) ↔ DividesThrough a ds)
  mul_eq : ∀ q, h.Gives (Builtin.divide.call args h) (.int q) → q.toInt * ds.prod = a
  real_iff : 0 ∉ ds → ((∃ r, h.Gives (Builtin.divide.call args h) (.real r)) ↔
    ¬ DividesThrough a ds)

lemma calculates_of_eq {exact : Int → Int → Int} (onReals : Float → Float → Float) {a : Int64}
    (hw : h.WellFormed) (hs : h.HasSentinels) (hcap : h.usedWith [] < h.capacity)
    (hcall : b.call args h = b.makeNumber
      ((ns.map Num.int).foldlM (Num.combine exact onReals) (.int a)) h) :
    h.Calculates b args exact a.toInt (ns.map Int64.toInt) := by
  by_cases hc : Num.Contained exact a.toInt (ns.map Int64.toInt)
  · obtain ⟨n, hn, hrun⟩ := Num.foldlM_combine_of_contained onReals hc
    have hgives : h.Gives (b.call args h) (.int n) := by
      rw [hcall, hrun]
      exact Builtin.gives_makeNumber hw hs hcap _
    exact ⟨iff_of_true ⟨n, hn, hgives⟩ hc, iff_of_false hgives.not_refuses (not_not.mpr hc)⟩
  · have hrefuses : h.Refuses (b.call args h) .wrongType ("integer overflow in " ++ b.name) := by
      rw [hcall, Num.foldlM_combine_of_not_contained hc]
      exact Builtin.faults_makeNumber hw .overflow
    exact ⟨iff_of_false (fun ⟨_, _, hg⟩ => hg.not_refuses hrefuses) hc, iff_of_true hrefuses hc⟩

lemma divides_of_eq {a : Int64} (hw : h.WellFormed) (hs : h.HasSentinels)
    (hcap : h.usedWith [] < h.capacity) (hcall : Builtin.divide.call args h =
      Builtin.divide.makeNumber ((ns.map Num.int).foldlM Num.div (.int a)) h) :
    h.Divides args a.toInt (ns.map Int64.toInt) := by
  by_cases h0 : 0 ∈ ns.map Int64.toInt
  · have hrefuses : h.Refuses (Builtin.divide.call args h) .wrongType "division by zero" := by
      obtain ⟨d, hd, hzero⟩ := List.mem_map.mp h0
      rw [hcall, Num.foldlM_div_of_zero
        ⟨.int d, List.mem_map_of_mem hd, by simp [Num.isZero, hzero]⟩]
      exact Builtin.faults_makeNumber hw .divisionByZero
    exact ⟨iff_of_true hrefuses h0, fun hn => absurd h0 hn,
      fun q hq => absurd hrefuses hq.not_refuses, fun hn => absurd h0 hn⟩
  by_cases hd : DividesThrough a.toInt (ns.map Int64.toInt)
  · obtain ⟨q, hq, hrun⟩ := Num.foldlM_div_of_dividesThrough h0 hd
    have hgives : h.Gives (Builtin.divide.call args h) (.int q) := by
      rw [hcall, hrun]
      exact Builtin.gives_makeNumber hw hs hcap _
    refine ⟨iff_of_false hgives.not_refuses h0, fun _ => iff_of_true ⟨q, hgives⟩ hd, fun p hp => ?_,
      fun _ => iff_of_false (fun ⟨r, hr⟩ => ?_) (not_not.mpr hd)⟩
    · cases hp.unique hgives
      rw [hq]
      exact hd.foldl_mul_prod
    · cases hr.unique hgives
  · obtain ⟨r, hrun⟩ := Num.foldlM_div_of_not_dividesThrough h0 hd
    have hgives : h.Gives (Builtin.divide.call args h) (.real r) := by
      rw [hcall, hrun]
      exact Builtin.gives_makeNumber hw hs hcap _
    have hint : ∀ q, ¬ h.Gives (Builtin.divide.call args h) (.int q) := fun q hq => by
      cases hq.unique hgives
    exact ⟨iff_of_false hgives.not_refuses h0, fun _ => iff_of_false (fun ⟨q, hq⟩ => hint q hq) hd,
      fun q hq => absurd hq (hint q), fun _ => iff_of_true ⟨r, hgives⟩ hd⟩

end Heap

/-- The four procedures on live arguments. -/
lemma Builtin.gives_or_fails (hw : h.WellFormed) (hs : h.HasSentinels)
    (hb : b ∈ [Builtin.add, .multiply, .subtract, .divide]) (hl : h.isLive args = true) :
    ∃ vs, (Builtin.arguments args : EvalM (List Handle)) h = .ok vs h ∧
      ((∃ x, h.Gives (b.call args h) x ∧
        ((∃ n, x = .int n) → ∃ ns, List.Forall₂
          (fun v (n : Int64) => h.object? v = some (.int n)) vs ns)) ∨
      ∃ e k, b.call args h = .error e k ∧ k.isError e = true) := by
  obtain ⟨vs, ha, hl⟩ := exists_arguments hw hs hl
  refine ⟨vs, ha, ?_⟩
  -- all of them make a number of what is calculated from the values of the arguments
  have hcall : ∀ (least : Nat) (next : List Num → EvalM Handle),
      (∀ xs, least ≤ xs.length → ∃ r, next xs = b.makeNumber r ∧
        ∀ n, r = .ok (.int n) → ∃ ns, xs = List.map Num.int ns) →
      b.call args = (b.numbers least args >>= next) →
      (∃ x, h.Gives (b.call args h) x ∧
        ((∃ n, x = .int n) → ∃ ns, List.Forall₂
          (fun v (n : Int64) => h.object? v = some (.int n)) vs ns)) ∨
      ∃ e k, b.call args h = .error e k ∧ k.isError e = true := by
    intro least next hnext heq
    rw [heq]
    obtain ⟨xs, k, hrun, rfl, hle, hxs⟩ | ⟨e, k, hrun, he⟩ :=
      (numbers_finishes (b := b) least hw hs ha hl).cases
    · obtain ⟨r, hr, hint⟩ := hnext xs hle
      rw [bind_of_ok hrun, hr]
      cases r with
      | ok x =>
        obtain ⟨v, l, hmake, hgives⟩ | ⟨e, l, hmake, -, he⟩ :=
          (makeNumber_finishes (b := b) hw hs x).cases
        · refine .inl ⟨x, ⟨v, l, hmake, hgives⟩, ?_⟩
          rintro ⟨n, rfl⟩
          obtain ⟨ns, rfl⟩ := hint n rfl
          exact ⟨ns, forall₂_int_iff.mp hxs⟩
        · exact .inr ⟨e, l, hmake, he⟩
      | error c =>
        obtain ⟨e, l, hmake, he⟩ := faults_makeNumber (b := b) hw c
        exact .inr ⟨e, l, hmake, he.isError hs⟩
    · exact .inr ⟨e, k, bind_of_error hrun, he⟩
  have hfrom : ∀ (rule : Num → List Num → Except ArithmeticFault Num),
      (∀ {x xs n}, rule x xs = .ok (.int n) → ∃ ns, x :: xs = List.map Num.int ns) →
      b.call args = b.calculate rule args →
      (∃ x, h.Gives (b.call args h) x ∧
        ((∃ n, x = .int n) → ∃ ns, List.Forall₂
          (fun v (n : Int64) => h.object? v = some (.int n)) vs ns)) ∨
      ∃ e k, b.call args h = .error e k ∧ k.isError e = true := by
    intro rule hrule heq
    refine hcall 1 _ (fun xs hle => ?_) heq
    cases xs with
    | nil => exact absurd hle (Nat.not_succ_le_zero 0)
    | cons x xs => exact ⟨rule x xs, rfl, fun n hq => hrule hq⟩
  simp only [List.mem_cons, List.not_mem_nil, or_false] at hb
  rcases hb with rfl | rfl | rfl | rfl
  · exact hcall 0 _ (fun xs _ => ⟨Num.sum xs, rfl, fun _ hq =>
      (Num.int_of_foldlM Num.int_of_combine hq).2⟩) rfl
  · exact hcall 0 _ (fun xs _ => ⟨Num.product xs, rfl, fun _ hq =>
      (Num.int_of_foldlM Num.int_of_combine hq).2⟩) rfl
  · exact hfrom Num.difference (Num.int_of_successively Num.int_of_combine Num.difference_eq) rfl
  · exact hfrom Num.quotient (Num.int_of_successively Num.int_of_div Num.quotient_eq) rfl

/-- Arithmetic on integers is exact or fails.  Let `args` be a proper list of integers `ns`, and let
there be room for one object.

* Sums, products and differences, taken from left to right, are exact if and only if all partial
  results have sixty-four bits; otherwise the call fails with an overflow.  The difference of one
  number is its opposite.
* A division, whose only operand is a divisor of one, fails if and only if one of the divisors is
  zero.  Otherwise it gives an integer if and only if all steps are exact and have quotients of
  sixty-four bits, and this integer times the divisors is the dividend; and in all other cases it
  gives a real.
* There is no difference and no quotient of no numbers at all.

Moreover, no live argument list whatever makes one of the four procedures halt: they come to a
number or to an error object, and to an integer only if all arguments are integers, so that the
result is one of those above. -/
theorem integer_arithmetic_exact (hw : h.WellFormed) (hs : h.HasSentinels) :
    (∀ args vs cells ns, h.Row .emptyList vs cells args →
      List.Forall₂ (fun v (n : Int64) => h.object? v = some (.int n)) vs ns →
      h.usedWith [] < h.capacity →
      h.Calculates .add args (· + ·) 0 (ns.map Int64.toInt) ∧
      h.Calculates .multiply args (· * ·) 1 (ns.map Int64.toInt) ∧
      (∀ a ms, successively 0 (ns.map Int64.toInt) = some (a, ms) →
        h.Calculates .subtract args (· - ·) a ms) ∧
      (∀ a ds, successively 1 (ns.map Int64.toInt) = some (a, ds) → h.Divides args a ds) ∧
      (ns = [] → ∀ b ∈ [Builtin.subtract, .divide],
        h.Refuses (b.call args h) .arity (b.countMessage 0 (.atLeast 1)))) ∧
    ∀ b ∈ [Builtin.add, .multiply, .subtract, .divide], ∀ args, h.isLive args = true →
      ∃ vs, (Builtin.arguments args : EvalM (List Handle)) h = .ok vs h ∧
        ((∃ x, h.Gives (b.call args h) x ∧
          ((∃ n, x = .int n) → ∃ ns, List.Forall₂
            (fun v (n : Int64) => h.object? v = some (.int n)) vs ns)) ∨
        ∃ e k, b.call args h = .error e k ∧ k.isError e = true) := by
  refine ⟨fun args vs cells ns hr hv hcap => ?_,
    fun b hb args hl => Builtin.gives_or_fails hw hs hb hl⟩
  have hvals : List.Forall₂ (fun v x => h.object? v = some (Num.datum x)) vs (ns.map Num.int) :=
    forall₂_int_iff.mpr hv
  have hnumbers : ∀ {b : Builtin} {least : Nat}, least ≤ vs.length →
      b.numbers least args h = .ok (ns.map .int) h := fun hl => Builtin.numbers_eq hs hr hvals hl
  -- a calculation from the first number on, in terms of the integers
  have hsplit : ∀ (unit : Int64) {a : Int} {ms : List Int},
      successively unit.toInt (ns.map Int64.toInt) = some (a, ms) →
      ∃ c ls, successively (Num.int unit)
        (ns.map Num.int) = some (.int c, List.map Num.int ls) ∧ c.toInt = a ∧
        List.map Int64.toInt ls = ms := by
    intro unit a ms hn
    rw [successively_map, Option.map_eq_some_iff] at hn
    obtain ⟨⟨c, ls⟩, hp, hq⟩ := hn
    rw [Prod.mk.injEq] at hq
    exact ⟨c, ls, by rw [successively_map, hp]; rfl, hq⟩
  have hlen : ∀ {unit a : Int} {ms : List Int}, successively unit (ns.map Int64.toInt) =
    some (a, ms) →
      1 ≤ vs.length := by
    intro unit a ms hn
    rw [hv.length_eq]
    cases ns with
    | nil => cases hn
    | cons _ _ => simp
  refine ⟨calculates_of_eq (a := 0) (· + ·) hw hs hcap (bind_of_ok (hnumbers (Nat.zero_le _))),
    calculates_of_eq (a := 1) (· * ·) hw hs hcap (bind_of_ok (hnumbers (Nat.zero_le _))),
    fun a ms hn => ?_, fun a ds hn => ?_, ?_⟩
  · obtain ⟨c, ls, hrun, rfl, rfl⟩ := hsplit 0 hn
    cases ns with
    | nil => cases hn
    | cons n ns =>
      refine calculates_of_eq (· - ·) hw hs hcap
        ((Builtin.calculate_apply (hnumbers (hlen hn))).trans ?_)
      rw [Num.difference_eq hrun]
      rfl
  · obtain ⟨c, ls, hrun, rfl, rfl⟩ := hsplit 1 hn
    cases ns with
    | nil => cases hn
    | cons n ns =>
      refine divides_of_eq hw hs hcap ((Builtin.calculate_apply (hnumbers (hlen hn))).trans ?_)
      rw [Num.quotient_eq hrun]
  · rintro rfl b hb
    obtain rfl := List.forall₂_nil_right_iff.mp hv
    have hcount : ∀ {b : Builtin}, h.Refuses (b.manyArguments 1 args h) .arity
        (b.countMessage 0 (.atLeast 1)) := fun {b} =>
      refuses_of_finishes
        ((Builtin.tests_manyArguments (b := b) hw hs hr 1).count (Nat.not_succ_le_zero 0))
    simp only [List.mem_cons, List.not_mem_nil, or_false] at hb
    rcases hb with rfl | rfl
    all_goals
      obtain ⟨e, k, hrun, hrep⟩ := hcount
      exact ⟨e, k, bind_of_error (bind_of_error hrun), hrep⟩

/-- In that heap the least integer is divided by minus one, which gives a real, and multiplied by
it, which is an overflow; and a list with a truth value is no list of numbers. -/
theorem integer_arithmetic_exact_supplied :
    supplied.WellFormed ∧ supplied.HasSentinels ∧
    supplied.Row .emptyList [⟨4⟩, ⟨5⟩] [⟨7⟩, ⟨8⟩] ⟨7⟩ ∧
    List.Forall₂ (fun v (n : Int64) => supplied.object? v = some (.int n)) [⟨4⟩, ⟨5⟩]
      [Int64.minValue, -1] ∧
    supplied.usedWith [] < supplied.capacity ∧ supplied.isLive ⟨9⟩ = true ∧
    (∃ r, supplied.Gives (Builtin.divide.call ⟨7⟩ supplied) (.real r)) ∧
    supplied.Refuses (Builtin.multiply.call ⟨7⟩ supplied) .wrongType "integer overflow in *" ∧
    ((∃ x, supplied.Gives (Builtin.add.call ⟨9⟩ supplied) x) ∨
      ∃ e k, Builtin.add.call ⟨9⟩ supplied = .error e k ∧ k.isError e = true) := by
  have hr : supplied.Row .emptyList [⟨4⟩, ⟨5⟩] [⟨7⟩, ⟨8⟩] ⟨7⟩ := .cons rfl (.cons rfl .nil)
  have hv : List.Forall₂ (fun v (n : Int64) => supplied.object? v = some (.int n)) [⟨4⟩, ⟨5⟩]
      [Int64.minValue, -1] := .cons rfl (.cons rfl .nil)
  have hroom : supplied.usedWith [] + 1 ≤ 8 :=
    usedWith_add_freeCount_le wellFormed_supplied (by simp)
  have hcap : supplied.usedWith [] < supplied.capacity := hroom
  obtain ⟨hexact, hall⟩ := integer_arithmetic_exact wellFormed_supplied hasSentinels_supplied
  obtain ⟨-, hmul, -, hdiv, -⟩ := hexact _ _ _ _ hr hv hcap
  have hthrough : ¬ DividesThrough (-2 ^ 63) [-1] := fun hd => absurd hd.2.1 (by decide)
  have hcontained : ¬ Num.Contained (· * ·) 1 [-2 ^ 63, -1] := fun hc =>
    absurd (hc (2 ^ 63) (by decide)) (by decide)
  refine ⟨wellFormed_supplied, hasSentinels_supplied, hr, hv, hcap, rfl,
    ((hdiv (-2 ^ 63) [-1] rfl).real_iff (by decide)).mpr hthrough,
    hmul.overflow_iff.mpr hcontained, ?_⟩
  obtain ⟨_, _, hfin⟩ := hall .add (by simp) ⟨9⟩ rfl
  exact hfin.imp_left fun ⟨x, hx, _⟩ => ⟨x, hx⟩

end ArenaScheme
