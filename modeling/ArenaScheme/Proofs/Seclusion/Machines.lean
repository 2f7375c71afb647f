/-
# Machines whose bindings are hidden

A new heap satisfies the invariant, and no veil is needed for it: there is one frame, and it has no
bindings.  The invariant holds when the keywords have been interned and the built-in procedures have
been bound, and after every run of a text.  While a text is being run, it holds under some veil
whenever a turn begins.
-/
import ArenaScheme.Proofs.Propagation
import ArenaScheme.Proofs.Seclusion.Reading
import ArenaScheme.Proofs.Seclusion.Steps
import ArenaScheme.Proofs.WellFormed

namespace ArenaScheme

open Heap HeapM

variable {ε α : Type} {R : Prop} {V : Veil} {h k l : Heap} {u v : Handle} {ctx : Context}

/-- Nothing is kept to oneself. -/
def Veil.none : Veil := ⟨∅, ∅⟩

lemma Veil.bare_none : Veil.none.Bare := rfl

/-! ## A new heap -/

namespace Heap

/-- A new heap has no objects with parts but the base frame, which has no bindings. -/
lemma ofSizing_cases {s : Sizing} {d : Datum} (hv : (ofSizing s).object? v = some d) :
    (d.children = [] ∧ v ≠ (ofSizing s).baseEnv) ∨ v = (ofSizing s).baseEnv ∧ d = rootFrame := by
  rcases object?_ofSizing hv with ⟨hlt, hd⟩ | hbase
  · refine .inl ⟨children_of_mem_sentinels (List.mem_of_getElem? hd), ?_⟩
    rintro rfl
    exact Nat.not_lt.mpr (Nat.le_add_right ..) hlt
  · exact .inr hbase

lemma sealed_ofSizing (s : Sizing) (audited : Bool) :
    ({ ofSizing s with audited } : Heap).Sealed Veil.none := by
  have hpair : ∀ v a b, (ofSizing s).object? v ≠ some (.pair a b) := fun v a b hv => by
    rcases ofSizing_cases hv with ⟨hc, -⟩ | ⟨-, hd⟩
    · simp [Datum.children] at hc
    · simp [rootFrame] at hd
  have hframe : ∀ {f p names values}, (ofSizing s).object? f = some (.frame p names values) →
      f = (ofSizing s).baseEnv ∧ Datum.frame p names values = rootFrame := fun hf =>
    (ofSizing_cases hf).resolve_left (by simp [Datum.children])
  have hbase : (ofSizing s).object? (ofSizing s).baseEnv = some rootFrame :=
    object?_ofSizing_base s
  have hnil : (ofSizing s).object? .emptyList = some .emptyList :=
    object?_ofSizing_sentinel s (by decide)
  have hbinds : ∀ f c, ¬ ({ ofSizing s with audited } : Heap).Binds f c := by
    rintro f c ⟨p, n, w, l, -, hl, hc⟩
    obtain ⟨a, b, hp⟩ := hl.pair_of_mem hc
    exact hpair c a b hp
  have hisframe : (ofSizing s).IsFrame (ofSizing s).baseEnv := ⟨_, _, _, hbase⟩
  refine ⟨fun v d hv c hc => ?_, fun v d hv c hc hh => ?_, fun f p n w hf => ?_,
    fun f g c hf => absurd hf (hbinds f c), fun f c hf => absurd hf (hbinds f c), by
    simp [Veil.none], fun f hf => ?_, fun v env params body hv => ?_, fun v hv =>
      object?_ofSizing_sentinel s hv,
    hisframe, hisframe, fun name v hv => ?_, fun i v hv => ?_, by simp [Veil.none]⟩
  · rcases ofSizing_cases hv with ⟨hd, -⟩ | ⟨-, rfl⟩
    · simp [hd] at hc
    · obtain rfl : c = .emptyList := by simpa [rootFrame, Datum.children] using hc
      exact ⟨_, hnil⟩
  · obtain ⟨a, b, hp⟩ := hh.pair (by simp [Veil.none])
    exact hpair c a b hp
  · obtain ⟨-, hd⟩ := hframe hf
    obtain ⟨-, -, rfl⟩ := Datum.frame.inj hd
    exact ⟨[], rfl⟩
  · obtain ⟨p, n, w, hf⟩ := hf
    obtain ⟨rfl, -⟩ := hframe hf
    exact .base hbase
  · rcases ofSizing_cases hv with ⟨hd, -⟩ | ⟨-, hd⟩
    · simp [Datum.children] at hd
    · simp [rootFrame] at hd
  · simp [ofSizing] at hv
  · simp [ofSizing] at hv

end Heap

lemma seals_ofSizing (s : Sizing) (audited : Bool) :
    Veil.none.Seals { Heap.ofSizing s with audited } := fun _ => sealed_ofSizing s audited

/-! ## Setting up -/

section Outcomes

variable [Exhibit ε] [Exhibit α] {o : Outcome ε α}

lemma Outcome.Safe.of_ok {a : α} (ho : o.Safe R V h) (he : o = .ok a k) :
    V.Keeps h k ∧ Exhibit.shown V k a := by
  subst he
  exact ho

lemma Outcome.Safe.of_error {e : ε} (ho : o.Safe R V h) (he : o = .error e k) :
    V.Keeps h k ∧ Exhibit.shown V k e := by
  subst he
  exact ho

end Outcomes

namespace Safe

variable [Exhibit ε] [Exhibit α]

/-- The symbols of names that are interned one by one, with those interned before. -/
lemma words {f : Handle → HeapM ε α} {name : String} {us : List Handle} (hs : V.Seals h)
    (hus : ∀ u ∈ us, V.Shows h u)
    (hf : ∀ v k, V.Keeps h k → (∀ u ∈ v :: us, V.Shows k u) → (f v k).Safe R V k) :
    ((HeapM.intern name >>= f) h).Safe R V h := by
  refine bind (intern hs name) fun v k hk hv => hf v k hk fun u hu => ?_
  rcases List.mem_cons.mp hu with rfl | hu
  · exact hv
  · exact hk.shows (hus u hu)

lemma keywords (hs : V.Seals h) : ((Keywords.intern : HeapM ε Keywords) h).Safe R V h := by
  have hus : ∀ u ∈ ([] : List Handle), V.Shows h u := by simp
  unfold Keywords.intern
  iterate 17
    with_reducible refine words hs hus ?_
    clear hs hus
    intro v h hk hus
    have hs := hk.seals
    clear hk
  refine pure hs ⟨hus _ ?_, hus _ ?_, hus _ ?_, hus _ ?_⟩ <;> simp

lemma failureOf (hs : V.Seals h) (v : Handle) :
    ((HeapM.failureOf v : HeapM ε Failure) h).Safe R V h :=
  ends_expect fun _ _ _ _ => pure hs trivial

lemma reporting {x : EvalM α} (hx : (x h).Safe R V h) : ((HeapM.reporting x) h).Safe R V h := by
  rw [HeapM.reporting]
  revert hx
  cases x h with
  | ok a k => exact id
  | error e k =>
    exact fun he => from_earlier he.1 (bind (failureOf he.1.seals e) fun _ _ hl _ =>
      fail hl.seals trivial)
  | halt c => exact id

lemma bindForeign (hs : V.Seals h) (name : String) (code : Native) :
    ((Interpreter.bindForeign name code) h).Safe R V h := by
  refine bind (intern hs name) fun symbol k hk hv => ?_
  refine bind (allocPermanent hk.seals rfl rfl) fun procedure l hl hp => ?_
  refine ends_bind (P := fun _ m => m = l) rfl fun env m hm => ?_
  subst hm
  exact bind (define hl.seals (hl.shows hv) hp) fun _ _ hm _ => pure hm.seals trivial

/-- A context without procedures of the host is shown by its keywords. -/
instance : Exhibit Context where
  shown V h ctx := ctx.host = #[] ∧ V.Speaks h ctx.keywords
  mono hk hc := ⟨hc.1, Exhibit.mono (α := Keywords) hk hc.2⟩

lemma shown_of_install (hs : V.Seals h) (hi : Interpreter.install #[] h = .ok ctx k) :
    V.Keeps h k ∧ Exhibit.shown V k ctx := by
  refine Outcome.Safe.of_ok (R := True) ?_ hi
  unfold Interpreter.install
  with_reducible refine bind (keywords hs) fun kw k hk hkw => ?_
  have hall : ((HeapM.reporting (Builtin.all.forM fun b =>
      Interpreter.bindForeign b.name (.builtin b))) k).Safe True V k :=
    reporting (forM hk.seals fun b _ l hl => bindForeign hl.seals _ _)
  exact bind hall fun _ l hl _ => pure hl.seals ⟨rfl, Exhibit.mono (α := Keywords) hl hkw⟩

end Safe

/-! ## Running texts -/

/-- Where nothing is kept to oneself, an evaluation may rely on everything. -/
lemma Veil.ready_none {kw : Keywords} (hs : Veil.none.Seals h) (hw : Veil.none.Speaks h kw) :
    Veil.none.Ready kw h := ⟨hs, fun _ => ⟨by simp [Veil.none], by simp [Veil.none]⟩, hw⟩

namespace Safe

lemma readNext (hb : V.Bare) (hs : V.Seals h) (scan : Scan) :
    ((HeapM.mapError (HeapM.read scan) (·.failure) : HeapM Failure (Option Reading)) h).Safe R V
      h :=
  mapError (fun _ _ _ => trivial) (read hb hs scan)

lemma runData (hh : ctx.host = #[]) (budget : Nat) (last : Root) (data : Nat) (scan : Scan)
    (hb : V.Bare) (hr : V.Ready ctx.keywords h) :
    ((Interpreter.runData ctx budget last data scan) h).Safe R V h := by
  induction data generalizing h scan with
  | zero => exact ends_halt (by simp)
  | succ data ih =>
    refine bind (readNext hb hr.seals scan) fun reading k hk hread => ?_
    cases reading with
    | none => exact contents hk.seals (hb.bares k last)
    | some reading =>
      refine bind (eval hh budget (hr.keeps hk) (hread reading rfl)) fun v l hl hv => ?_
      refine ends_hasType fun d _ => ends_ite (fun _ => ?_) fun _ => ?_
      · exact bind (failureOf hl.seals v) fun _ _ hm _ => fail hm.seals trivial
      · exact bind (store hl.seals (hb.bares l last) hv) fun _ m hm _ =>
          ih reading.rest (((hr.keeps hk).keeps hl).keeps hm)

lemma run (hh : ctx.host = #[]) (budget : Nat) (text : String) (hb : V.Bare)
    (hr : V.Ready ctx.keywords h) : ((Interpreter.run ctx budget text) h).Safe R V h :=
  rooted hr.seals (fun hu => (hr.seals hu).open_sentinel (by decide)) fun _ _ hk _ =>
    runData hh _ _ _ _ hb (hr.keeps hk)

end Safe

/-- A machine without procedures of the host that has been set up and has run some texts, each of
which has come to a value or to a failure. -/
inductive Machine (ctx : Context) : Heap → Prop
  | new {s : Sizing} {audited : Bool} {h : Heap}
      (hi : Interpreter.install #[] { Heap.ofSizing s with audited } = .ok ctx h) : Machine ctx h
  | returned {budget : Nat} {text : String} {v : Handle} {h k : Heap} (hm : Machine ctx h)
      (hr : Interpreter.run ctx budget text h = .ok v k) : Machine ctx k
  | failed {budget : Nat} {text : String} {f : Failure} {h k : Heap} (hm : Machine ctx h)
      (hr : Interpreter.run ctx budget text h = .error f k) : Machine ctx k

/-- Nothing is kept to itself by a machine that is not running. -/
lemma Machine.ready (hm : Machine ctx h) :
    ctx.host = #[] ∧ Veil.none.Ready ctx.keywords h := by
  induction hm with
  | @new s audited h hi =>
    obtain ⟨hk, hh, hw⟩ := Safe.shown_of_install (seals_ofSizing s audited) hi
    exact ⟨hh, Veil.ready_none hk.seals hw⟩
  | @returned budget text v h k _ hr ih =>
    exact ⟨ih.1, ih.2.keeps
      (Outcome.Safe.of_ok (Safe.run (R := True) ih.1 budget text Veil.bare_none ih.2) hr).1⟩
  | @failed budget text f h k _ hr ih =>
    exact ⟨ih.1, ih.2.keeps
      (Outcome.Safe.of_error (Safe.run (R := True) ih.1 budget text Veil.bare_none ih.2) hr).1⟩

end ArenaScheme
