/-
# What `let` expands to

The operands of a `let` form are a list of bindings and a body, or else a name and these two.  The
bindings are a proper list, each element of which is a list of a symbol and an initial value.  The
body is a pair, of which nothing more is asked here.

These are the operands that are expanded, and there is one expansion for them.  Its pairs are new,
all other parts of it are those of the form.  Other operands are an error, whose message tells the
first thing that is not as it should be, from left to right but for the bindings, which come last.
-/
import ArenaScheme.Let
import ArenaScheme.Proofs.Expansion.Building

namespace ArenaScheme

open Heap HeapM

namespace Let

/-- A `let` form: its name if it has one, the names and the initial values of the bindings, and the
body. -/
structure Form where
  name : Option Handle
  bindings : List (Handle × Handle)
  body : Handle

namespace Form

/-- The procedure that binds the names. -/
def procedure (kw : Keywords) (form : Form) : Built :=
  .pair (.same kw.lambda)
    (.pair (.list ((form.bindings.map Prod.fst).map .same)) (.same form.body))

/-- The list of the initial values. -/
def initials (form : Form) : Built := .list ((form.bindings.map Prod.snd).map .same)

/-- The expression that a form stands for. -/
def expansion (kw : Keywords) (form : Form) : Built :=
  match form.name with
  | none => .pair (form.procedure kw) form.initials
  | some name =>
    .list [.list [.same kw.lambda, .same .emptyList,
      .list [.same kw.definition, .same name, form.procedure kw], .pair (.same name) form.initials]]

/-- How many root slots are occupied at the same time while it is expanded. -/
def slots (form : Form) : Nat :=
  max (form.bindings.length + 1) (if form.name.isSome then 7 else 2)

end Form

end Let

open Let

variable {h k : Heap} {extra entries spine vs : List Handle} {v operands entry : Handle}
  {binding : Handle × Handle} {bindings : List (Handle × Handle)} {form : Form} {message : String}

namespace Heap

/-- The object is a symbol. -/
def IsSymbol (h : Heap) (v : Handle) : Prop := ∃ name, h.object? v = some (.symbol name)

/-- The object is a list of a symbol and an initial value. -/
def IsBinding (h : Heap) (entry : Handle) (binding : Handle × Handle) : Prop :=
  h.IsSymbol binding.1 ∧ ∃ spine, h.Row .emptyList [binding.1, binding.2] spine entry

/-- The object is a list of bindings. -/
def AreBindings (h : Heap) (v : Handle) (bindings : List (Handle × Handle)) : Prop :=
  ∃ entries spine, h.Row .emptyList entries spine v ∧ List.Forall₂ h.IsBinding entries bindings

/-- The operands are those of a `let` form. -/
inductive Forms (h : Heap) (operands : Handle) : Form → Prop
  | plain {first body : Handle} {bindings : List (Handle × Handle)}
      (ho : h.pairAt operands = some (first, body)) (hb : (h.pairAt body).isSome)
      (hbs : h.AreBindings first bindings) : Forms h operands ⟨none, bindings, body⟩
  | named {name rest second body : Handle} {bindings : List (Handle × Handle)}
      (ho : h.pairAt operands = some (name, rest)) (hn : h.IsSymbol name)
      (hr : h.pairAt rest = some (second, body)) (hb : (h.pairAt body).isSome)
      (hbs : h.AreBindings second bindings) : Forms h operands ⟨some name, bindings, body⟩

/-- The operands are not those of a `let` form, and this is what is said about them. -/
inductive Misformed (h : Heap) (operands : Handle) : String → Prop
  | operands (ho : h.pairAt operands = none) : Misformed h operands "malformed let"
  | body {first rest : Handle} (ho : h.pairAt operands = some (first, rest))
      (hn : ¬ h.IsSymbol first)
      (hb : h.pairAt rest = none) : Misformed h operands "let has no body"
  | bindings {first rest : Handle} (ho : h.pairAt operands = some (first, rest))
      (hn : ¬ h.IsSymbol first)
      (hb : (h.pairAt rest).isSome) (hbs : ∀ bindings, ¬ h.AreBindings first bindings) :
      Misformed h operands "malformed let bindings"
  | namedOperands {name rest : Handle} (ho : h.pairAt operands = some (name, rest))
      (hn : h.IsSymbol name)
      (hr : h.pairAt rest = none) : Misformed h operands "malformed named let"
  | namedBody {name rest second body : Handle} (ho : h.pairAt operands = some (name, rest))
      (hn : h.IsSymbol name) (hr : h.pairAt rest = some (second, body))
      (hb : h.pairAt body = none) :
      Misformed h operands "named let has no body"
  | namedBindings {name rest second body : Handle} (ho : h.pairAt operands = some (name, rest))
      (hn : h.IsSymbol name) (hr : h.pairAt rest = some (second, body))
      (hb : (h.pairAt body).isSome)
      (hbs : ∀ bindings, ¬ h.AreBindings second bindings) :
      Misformed h operands "malformed named let bindings"

/-! ## Forms -/

/-- Bindings are a list, and so they are no symbol. -/
lemma AreBindings.not_isSymbol (hs : h.HasSentinels) (hbs : h.AreBindings v bindings) :
    ¬ h.IsSymbol v := by
  rintro ⟨name, hn⟩
  obtain ⟨entries, spine, hr, -⟩ := hbs
  cases hr with
  | nil => cases hs.emptyList.symm.trans hn
  | cons hv _ => cases hv.symm.trans hn

/-- Operands are those of a form exactly if there is nothing to be said about them. -/
lemma exists_misformed_iff (hs : h.HasSentinels) :
    (∃ message, h.Misformed operands message) ↔ ∀ form, ¬ h.Forms operands form := by
  constructor
  · rintro ⟨message, hm⟩ form hf
    cases hf with
    | plain ho hb hbs =>
      have hn := hbs.not_isSymbol hs
      cases hm <;> simp_all
    | named ho hn hr hb hbs => cases hm <;> simp_all
  · intro hf
    cases ho : h.pairAt operands with
    | none => exact ⟨_, .operands ho⟩
    | some parts =>
      obtain ⟨first, rest⟩ := parts
      by_cases hn : h.IsSymbol first
      · cases hr : h.pairAt rest with
        | none => exact ⟨_, .namedOperands ho hn hr⟩
        | some parts =>
          obtain ⟨second, body⟩ := parts
          cases hb : h.pairAt body with
          | none => exact ⟨_, .namedBody ho hn hr hb⟩
          | some _ =>
            exact ⟨_, .namedBindings ho hn hr (by rw [hb]; rfl) fun bs hbs =>
              hf _ (.named ho hn hr (by rw [hb]; rfl) hbs)⟩
      · cases hb : h.pairAt rest with
        | none => exact ⟨_, .body ho hn hb⟩
        | some _ =>
          exact ⟨_, .bindings ho hn (by rw [hb]; rfl) fun bs hbs =>
            hf _ (.plain ho (by rw [hb]; rfl) hbs)⟩

/-- Names and initial values can be reached from the bindings. -/
lemma AreBindings.reachable (hbs : h.AreBindings v bindings) (hv : h.Reachable extra v) :
    ∀ binding ∈ bindings, h.Reachable extra binding.1 ∧ h.Reachable extra binding.2 := by
  obtain ⟨entries, spine, hr, hall⟩ := hbs
  have hentries := (hr.reachable hv).2.1
  clear hr
  induction hall with
  | nil => simp
  | cons hb _ ih =>
    obtain ⟨hentry, hentries⟩ := List.forall_mem_cons.mp hentries
    obtain ⟨-, spine, hr⟩ := hb
    have hparts := (hr.reachable hentry).2.1
    exact List.forall_mem_cons.mpr ⟨⟨hparts _ (by simp), hparts _ (by simp)⟩, ih hentries⟩

end Heap

namespace Let

/-! ## Bindings -/

lemma splitBinding_apply (hs : h.HasSentinels) (hb : h.IsBinding entry binding) :
    splitBinding message entry h = .ok binding h := by
  obtain ⟨⟨name, hn⟩, spine, hr⟩ := hb
  rw [splitBinding, bind_of_ok (items?_of_row hs hr)]
  dsimp only
  rw [bind_of_ok (hasType_apply hn .symbol)]
  rfl

lemma splitBinding_reports (hw : h.WellFormed) (hs : h.HasSentinels) (hl : h.isLive entry = true)
    (hn : ∀ binding, ¬ h.IsBinding entry binding) :
    (splitBinding message entry h).Finishes (fun _ _ => False) (h.Reports .malformed message) := by
  have hraise : ∀ {α : Type}, ((raise .malformed message : EvalM α) h).Finishes (fun _ _ => False)
      (h.Reports .malformed message) := raise_finishes hw (by decide) message
  obtain ⟨walk, hwalk, hitems⟩ := walkSpine_items hw hs hl
  rw [splitBinding, bind_of_ok (items?_eq hwalk)]
  rcases hi : walk.items? with _ | _ | ⟨name, _ | ⟨initial, _ | ⟨third, others⟩⟩⟩
  case some.cons.cons.nil =>
    obtain ⟨spine, hr⟩ := (hitems _).mp hi
    have hname : h.Reachable [entry] name :=
      (hr.reachable (.of_extra List.mem_cons_self)).2.1 name List.mem_cons_self
    obtain ⟨d, hd⟩ :=
      isLive_iff.mp (hw.isLive_of_reachable (List.forall_mem_singleton.mpr hl) hname)
    dsimp only
    rw [bind_of_ok (hasType_apply hd .symbol)]
    split
    · next ht =>
      refine absurd ⟨?_, spine, hr⟩ (hn (name, initial))
      cases d with
      | symbol name => exact ⟨name, hd⟩
      | _ => cases ht
    · exact hraise
  all_goals exact hraise

lemma mapM_splitBinding_apply (hs : h.HasSentinels)
    (hall : List.Forall₂ h.IsBinding entries bindings) :
    entries.mapM (splitBinding message) h = .ok bindings h := by
  induction hall with
  | nil => rfl
  | cons hb _ ih =>
    rw [List.mapM_cons, bind_of_ok (splitBinding_apply hs hb), bind_of_ok ih]
    rfl

lemma mapM_splitBinding_reports (hw : h.WellFormed) (hs : h.HasSentinels)
    (hl : ∀ entry ∈ entries, h.isLive entry = true)
    (hn : ∀ bindings, ¬ List.Forall₂ h.IsBinding entries bindings) :
    (entries.mapM (splitBinding message) h).Finishes (fun _ _ => False)
      (h.Reports .malformed message) := by
  induction entries with
  | nil => exact absurd .nil (hn [])
  | cons entry entries ih =>
    obtain ⟨hl, hls⟩ := List.forall_mem_cons.mp hl
    rw [List.mapM_cons]
    by_cases hb : ∃ binding, h.IsBinding entry binding
    · obtain ⟨binding, hb⟩ := hb
      rw [bind_of_ok (splitBinding_apply hs hb)]
      refine finishes_bind (ih hls fun bindings hall => hn _ (.cons hb hall)) fun _ _ => False.elim
    · exact finishes_bind (splitBinding_reports hw hs hl fun binding hb' => hb ⟨binding, hb'⟩)
        fun _ _ => False.elim

/-- What is no list of bindings is not split. -/
lemma splitBindings_reports (hw : h.WellFormed) (hs : h.HasSentinels) (hl : h.isLive v = true)
    (hn : ∀ bindings, ¬ h.AreBindings v bindings) :
    (splitBindings message v h).Finishes (fun _ _ => False) (h.Reports .malformed message) := by
  obtain ⟨walk, hwalk, hitems⟩ := walkSpine_items hw hs hl
  rw [splitBindings, bind_of_ok (items?_eq hwalk)]
  cases hi : walk.items? with
  | none => exact raise_finishes hw (by decide) message
  | some entries =>
    obtain ⟨spine, hr⟩ := (hitems _).mp hi
    have hentries : ∀ entry ∈ entries, h.isLive entry = true := fun entry he =>
      hw.isLive_of_reachable (List.forall_mem_singleton.mpr hl)
        ((hr.reachable (.of_extra List.mem_cons_self)).2.1 entry he)
    exact finishes_bind (mapM_splitBinding_reports hw hs hentries fun bindings hall =>
      hn _ ⟨entries, spine, hr, hall⟩) fun _ _ => False.elim

/-- Bindings are split into two new lists. -/
lemma splitBindings_makes {n : Nat} (hw : h.WellFormed) (hs : h.HasSentinels)
    (hbs : h.AreBindings v bindings) (hv : h.Reachable [] v)
    (hroom : h.roots.size + bindings.length + 1 ≤ h.rootSlots) (hn : 2 * bindings.length ≤ n) :
    (splitBindings message v h).Makes h n h.roots fun lists parts => ∃ names initials : Piece,
      lists = (names.handle, initials.handle) ∧
      names.result = .list ((bindings.map Prod.fst).map .same) ∧
      initials.result = .list ((bindings.map Prod.snd).map .same) ∧ parts = [initials, names] := by
  have hreach := hbs.reachable hv
  obtain ⟨entries, spine, hr, hall⟩ := hbs
  rw [splitBindings, bind_of_ok (items?_of_row hs hr)]
  dsimp only
  rw [bind_of_ok (mapM_splitBinding_apply hs hall)]
  refine ((Building.nil hw).list_olds_makes ?_ (by simp) ?_ ?_).bind ?_
  · simpa using fun a b hab => (hreach (a, b) hab).1
  · simp only [List.length_map]
    omega
  · simp only [List.length_map, List.map_nil, List.sum_nil]
    omega
  rintro _ _ l ⟨names, rfl, hnames, rfl⟩ hb hroots
  rw [← hroots] at hroom ⊢
  refine hb.rooted_makes List.mem_cons_self (by omega) fun m hb hm => ?_
  refine (hb.list_olds_makes ?_ ?_ ?_ ?_).bind ?_
  · simpa using fun a b hab => (hreach (b, a) hab).2
  · exact List.forall_mem_singleton.mpr (.anchor (.root (by simp [hm])))
  · simp only [hm, Array.size_push, List.length_map]
    omega
  · simp only [List.map_cons, List.map_nil, List.sum_cons, List.sum_nil, List.length_map, hnames,
      Built.pairs_list_same]
    omega
  rintro _ _ l' ⟨initials, rfl, hinitials, rfl⟩ hb hroots'
  exact ⟨_, ⟨names, initials, rfl, hnames, hinitials, rfl⟩, hb, hroots'⟩

/-! ## The two kinds of forms -/

lemma Form.pairs_expansion (kw : Keywords) (form : Form) : (form.expansion kw).pairs =
    2 * form.bindings.length + if form.name.isSome then 11 else 3 := by
  obtain ⟨name, bindings, body⟩ := form
  have hlist : ∀ f : Handle × Handle → Handle,
      (Built.list ((bindings.map f).map .same)).pairs = bindings.length := fun f => by
    rw [Built.pairs_list_same, List.length_map]
  cases name with
  | none =>
    simp only [expansion, procedure, initials, Built.pairs, hlist, Option.isSome_none]
    simp
    omega
  | some name =>
    simp only [expansion, procedure, initials, Built.pairs_list, List.map_cons, List.map_nil,
      Built.pairs, hlist, Option.isSome_some, List.sum_cons, List.sum_nil, List.length_cons,
      List.length_nil]
    simp
    omega

variable {kw : Keywords} {first body name rest second : Handle}

/-- Expanding `(let bindings body ...)`. -/
lemma expandPlain_makes (hw : h.WellFormed) (hs : h.HasSentinels) (hl : h.Reachable [] kw.lambda)
    (hb : (h.pairAt body).isSome) (hbs : h.AreBindings first bindings) (hf : h.Reachable [] first)
    (hr : h.Reachable [] body)
    (hroom : h.roots.size + (Form.mk none bindings body).slots ≤ h.rootSlots) :
    (expandPlain kw first body h).Makes h ((Form.mk none bindings body).expansion kw).pairs h.roots
      fun v parts => ∃ p : Piece, v = p.handle ∧
        p.result = (Form.mk none bindings body).expansion kw ∧ parts = [p] := by
  obtain ⟨⟨a, b⟩, hp⟩ := Option.isSome_iff_exists.mp hb
  rw [Form.pairs_expansion]
  simp only [Form.slots, Option.isSome_none, Bool.false_eq_true, if_false] at hroom ⊢
  rw [expandPlain, bind_of_ok (hasType_apply (pairAt_eq_some.mp hp) .pair)]
  refine (splitBindings_makes hw hs hbs hf (by omega) (by omega)).bind ?_
  rintro _ _ l ⟨names, initials, rfl, hnames, hinitials, rfl⟩ hb hroots
  have hn₁ : names.result.pairs = bindings.length := by
    rw [hnames, Built.pairs_list_same, List.length_map]
  have hn₂ : initials.result.pairs = bindings.length := by
    rw [hinitials, Built.pairs_list_same, List.length_map]
  rw [← hroots] at hroom ⊢
  refine hb.rooted_makes (p := names) (by simp) (by omega) fun l₁ hb h₁ => ?_
  refine hb.rooted_makes (p := initials) (by simp)
    (by simp only [h₁, Array.size_push]; omega) fun l₂ hb h₂ => ?_
  have hslot : ∀ {m : Heap} {extra}, m.roots = l₂.roots →
      m.Reachable extra initials.handle := fun hm =>
    .anchor (.root (by simp [hm, h₂]))
  have hperm : ([Piece.old body, initials] ++ [names]).Perm
    ([names] ++ [Piece.old body, initials]) :=
    List.perm_append_comm
  have hb := (hb.old hr).perm hperm
  refine (hb.cons_makes (List.forall_mem_singleton.mpr (hslot rfl)) ?_).bind ?_
  · simp [hn₁, hn₂, Built.pairs]
    omega
  rintro _ _ m ⟨rest, rfl, hrest, rfl⟩ hb hm
  rw [← hm]
  refine ((hb.old hl).cons_makes (List.forall_mem_singleton.mpr (hslot hm)) ?_).bind ?_
  · simp [hrest, hn₁, hn₂, Built.pairs]
    omega
  rintro _ _ m' ⟨lambda, rfl, hlambda, rfl⟩ hb hm'
  rw [← hm']
  refine (hb.cons_makes (by simp) ?_).imp ?_
  · simp [hlambda, hrest, hn₁, hn₂, Built.pairs]
    omega
  rintro _ _ ⟨p, rfl, hp, rfl⟩
  refine ⟨p, rfl, ?_, rfl⟩
  rw [hp, hlambda, hrest, hnames, hinitials]
  rfl

/-- Expanding `(let name bindings body ...)`. -/
lemma expandNamed_makes (hw : h.WellFormed) (hs : h.HasSentinels) (hl : h.Reachable [] kw.lambda)
    (hd : h.Reachable [] kw.definition) (hn : h.Reachable [] name)
    (hp : h.pairAt rest = some (second, body)) (hb : (h.pairAt body).isSome)
    (hbs : h.AreBindings second bindings) (hr : h.Reachable [] rest)
    (hroom : h.roots.size + (Form.mk (some name) bindings body).slots ≤ h.rootSlots) :
    (expandNamed kw name rest h).Makes h
    ((Form.mk (some name) bindings body).expansion kw).pairs h.roots
      fun v parts => ∃ p : Piece, v = p.handle ∧
        p.result = (Form.mk (some name) bindings body).expansion kw ∧ parts = [p] := by
  obtain ⟨⟨a, b⟩, hp'⟩ := Option.isSome_iff_exists.mp hb
  have hbody := hr.tail (pairAt_eq_some.mp hp)
  have hnil : h.Reachable [] .emptyList := .sentinel (by decide)
  rw [Form.pairs_expansion]
  simp only [Form.slots, Option.isSome_some, if_true] at hroom ⊢
  rw [expandNamed, bind_of_ok (asPair_apply (pairAt_eq_some.mp hp))]
  dsimp only [Datum.pair?]
  rw [bind_of_ok (hasType_apply (pairAt_eq_some.mp hp') .pair)]
  refine (splitBindings_makes hw hs hbs (hr.head (pairAt_eq_some.mp hp))
    (by omega) (by omega)).bind ?_
  rintro _ _ l ⟨names, initials, rfl, hnames, hinitials, rfl⟩ hb hroots
  have hn₁ : names.result.pairs = bindings.length := by
    rw [hnames, Built.pairs_list_same, List.length_map]
  have hn₂ : initials.result.pairs = bindings.length := by
    rw [hinitials, Built.pairs_list_same, List.length_map]
  rw [← hroots] at hroom ⊢
  refine hb.rooted_makes (p := names) (by simp) (by omega) fun l₁ hb h₁ => ?_
  refine hb.rooted_makes (p := initials) (by simp)
    (by simp only [h₁, Array.size_push]; omega) fun l₂ hb h₂ => ?_
  refine ((hb.old hn).cons_makes
    (List.forall_mem_singleton.mpr (.anchor (.root (by simp [h₁, h₂])))) ?_).bind ?_
  · simp [hn₁, hn₂, Built.pairs]
    omega
  rintro _ _ l₃ ⟨call, rfl, hcall, rfl⟩ hb h₃
  rw [← h₃]
  refine hb.rooted_makes (p := call) (by simp) ?_ fun l₄ hb h₄ => ?_
  · simp only [h₃, h₂, h₁, Array.size_push]
    omega
  have hslot : ∀ {m : Heap} {extra}, m.roots = l₄.roots → m.Reachable extra call.handle := fun hm =>
    .anchor (.root (by simp [hm, h₄]))
  have hsize : l₄.roots.size + 4 ≤ h.rootSlots := by
    simp only [h₄, h₃, h₂, h₁, Array.size_push]
    omega
  have hperm : ([Piece.old body, call] ++ [names]).Perm ([names] ++ [Piece.old body, call]) :=
    List.perm_append_comm
  have hb := (hb.old hbody).perm hperm
  refine (hb.cons_makes (List.forall_mem_singleton.mpr (hslot rfl)) ?_).bind ?_
  · simp [hcall, hn₁, hn₂, Built.pairs]
    omega
  rintro _ _ m ⟨spec, rfl, hspec, rfl⟩ hb hm
  rw [← hm]
  refine ((hb.old hl).cons_makes (List.forall_mem_singleton.mpr (hslot hm)) ?_).bind ?_
  · simp [hspec, hcall, hn₁, hn₂, Built.pairs]
    omega
  rintro _ _ m ⟨inner, rfl, hinner, rfl⟩ hb hm'
  rw [← hm']
  have hm := hm'.trans hm
  refine (((hb.old hn).old hd).list_makes [.old kw.definition, .old name, inner] _
    (List.forall_mem_singleton.mpr (hslot hm)) ?_ ?_).bind ?_
  · simp only [hm, List.length_cons, List.length_nil]
    omega
  · simp [hinner, hspec, hcall, hn₁, hn₂, Built.pairs]
    omega
  rintro _ _ m ⟨definition, rfl, hdefinition, rfl⟩ hb hm'
  rw [← hm']
  have hm := hm'.trans hm
  refine (((hb.old hnil).old hl).list_makes [.old kw.lambda, .old .emptyList, definition, call] []
    (by simp) ?_ ?_).bind ?_
  · simp only [hm, List.length_cons, List.length_nil]
    omega
  · simp [hdefinition, hinner, hspec, hcall, hn₁, hn₂, Built.pairs, Built.pairs_list]
    omega
  rintro _ _ m ⟨outer, rfl, houter, rfl⟩ hb hm'
  rw [← hm']
  have hm := hm'.trans hm
  refine (hb.list_makes [outer] _ (by simp) ?_ ?_).imp ?_
  · simp only [hm, List.length_cons, List.length_nil]
    omega
  · simp [houter, hdefinition, hinner, hspec, hcall, hn₁, hn₂, Built.pairs, Built.pairs_list]
    omega
  rintro _ _ ⟨p, rfl, hp, rfl⟩
  refine ⟨p, rfl, ?_, rfl⟩
  rw [hp, List.map_singleton, houter]
  simp only [List.map_cons, List.map_nil, hdefinition, hinner, hspec, hcall, hnames, hinitials]
  rfl

/-! ## All operands -/

lemma hasType_pair_of_isLive (hl : h.isLive v = true) :
    (hasType .pair v : EvalM Bool) h = .ok (h.pairAt v).isSome h := by
  obtain ⟨d, hd⟩ := isLive_iff.mp hl
  rw [hasType_apply hd, pairAt, hd, Option.bind_some]
  cases d <;> rfl

/-- A form without a name. -/
lemma expand_of_not_isSymbol (ho : h.pairAt operands = some (first, rest))
    (hl : h.isLive first = true)
    (hn : ¬ h.IsSymbol first) : expand kw operands h = expandPlain kw first rest h := by
  obtain ⟨d, hd⟩ := isLive_iff.mp hl
  rw [expand, bind_of_ok (asPair_apply (pairAt_eq_some.mp ho))]
  refine (bind_of_ok (hasType_apply hd .symbol)).trans ?_
  cases d with
  | symbol name => exact absurd ⟨name, hd⟩ hn
  | _ => rfl

/-- A form with a name. -/
lemma expand_of_isSymbol (ho : h.pairAt operands = some (name, rest)) (hn : h.IsSymbol name) :
    expand kw operands h = expandNamed kw name rest h := by
  obtain ⟨text, hd⟩ := hn
  rw [expand, bind_of_ok (asPair_apply (pairAt_eq_some.mp ho))]
  exact bind_of_ok (hasType_apply hd .symbol)

/-- The operands of a form are expanded. -/
lemma expand_makes (hw : h.WellFormed) (hs : h.HasSentinels) (hr : h.Reachable [] operands)
    (hl : h.Reachable [] kw.lambda) (hd : h.Reachable [] kw.definition) (hf : h.Forms operands form)
    (hroom : h.roots.size + form.slots ≤ h.rootSlots) :
    (expand kw operands h).Makes h (form.expansion kw).pairs h.roots
      fun v parts => ∃ p : Piece, v = p.handle ∧ p.result = form.expansion kw ∧ parts = [p] := by
  cases hf with
  | plain ho hb hbs =>
    have hp := pairAt_eq_some.mp ho
    rw [expand_of_not_isSymbol ho (hw.isLive_of_reachable (by simp) (hr.head hp))
      (hbs.not_isSymbol hs)]
    exact expandPlain_makes hw hs hl hb hbs (hr.head hp) (hr.tail hp) hroom
  | named ho hn hrest hb hbs =>
    have hp := pairAt_eq_some.mp ho
    rw [expand_of_isSymbol ho hn]
    exact expandNamed_makes hw hs hl hd (hr.head hp) hrest hb hbs (hr.tail hp) hroom

/-- Other operands are an error. -/
lemma expand_reports (hw : h.WellFormed) (hs : h.HasSentinels) (hr : h.Reachable [] operands)
    (hm : h.Misformed operands message) :
    (expand kw operands h).Finishes (fun _ _ => False) (h.Reports .malformed message) := by
  have hlive : ∀ {v}, h.Reachable [] v → h.isLive v = true := hw.isLive_of_reachable (by simp)
  have hraise : ((raise .malformed message : EvalM Handle) h).Finishes (fun _ _ => False)
      (h.Reports .malformed message) := raise_finishes hw (by decide) message
  have hsplit : ∀ {v} {f : Handle × Handle → EvalM Handle}, h.isLive v = true →
      (∀ bindings, ¬ h.AreBindings v bindings) →
      ((splitBindings message v >>= f) h).Finishes (fun _ _ => False)
        (h.Reports .malformed message) := fun hl hn =>
    finishes_bind (splitBindings_reports hw hs hl hn) fun _ _ => False.elim
  cases hm with
  | operands ho =>
    rw [expand, bind_of_ok (asPair_of_isLive (hlive hr)), ho]
    exact hraise
  | body ho hn hb =>
    have hp := pairAt_eq_some.mp ho
    rw [expand_of_not_isSymbol ho (hlive (hr.head hp)) hn, expandPlain,
      bind_of_ok (hasType_pair_of_isLive (hlive (hr.tail hp))), hb]
    exact hraise
  | bindings ho hn hb hbs =>
    have hp := pairAt_eq_some.mp ho
    rw [expand_of_not_isSymbol ho (hlive (hr.head hp)) hn, expandPlain,
      bind_of_ok (hasType_pair_of_isLive (hlive (hr.tail hp))), hb]
    exact hsplit (hlive (hr.head hp)) hbs
  | namedOperands ho hn hrest =>
    rw [expand_of_isSymbol ho hn, expandNamed,
      bind_of_ok (asPair_of_isLive (hlive (hr.tail (pairAt_eq_some.mp ho)))), hrest]
    exact hraise
  | namedBody ho hn hrest hb =>
    have hr' := hr.tail (pairAt_eq_some.mp ho)
    rw [expand_of_isSymbol ho hn, expandNamed, bind_of_ok (asPair_of_isLive (hlive hr')), hrest]
    dsimp only
    rw [bind_of_ok (hasType_pair_of_isLive (hlive (hr'.tail (pairAt_eq_some.mp hrest)))), hb]
    exact hraise
  | namedBindings ho hn hrest hb hbs =>
    have hr' := hr.tail (pairAt_eq_some.mp ho)
    rw [expand_of_isSymbol ho hn, expandNamed, bind_of_ok (asPair_of_isLive (hlive hr')), hrest]
    dsimp only
    rw [bind_of_ok (hasType_pair_of_isLive (hlive (hr'.tail (pairAt_eq_some.mp hrest)))), hb]
    exact hsplit (hlive (hr'.head (pairAt_eq_some.mp hrest))) hbs

end Let

namespace Heap

/-! ## The same operands in another heap -/

section Transfer

-- the objects that can be got at, which are the same in both heaps
variable {S : Handle → Prop}

lemma Row.transfer (hk : ∀ u, S u → k.object? u = h.object? u)
    (hc : ∀ u d, S u → h.object? u = some d → ∀ c ∈ d.children, S c) (hv : S v) {last : Handle}
    (hr : h.Row last vs spine v) : k.Row last vs spine v ∧ ∀ x ∈ vs, S x := by
  induction hr with
  | nil => exact ⟨.nil, by simp⟩
  | cons hp _ ih =>
    have hparts := hc _ _ hv hp
    obtain ⟨hrow, hxs⟩ := ih (hparts _ (by simp [Datum.children]))
    exact ⟨.cons ((hk _ hv).trans hp) hrow,
      List.forall_mem_cons.mpr ⟨hparts _ (by simp [Datum.children]), hxs⟩⟩

lemma IsSymbol.transfer (hk : ∀ u, S u → k.object? u = h.object? u) (hv : S v) (hn : h.IsSymbol v) :
    k.IsSymbol v := hn.imp fun _ hd => (hk v hv).trans hd

lemma AreBindings.transfer (hk : ∀ u, S u → k.object? u = h.object? u)
    (hc : ∀ u d, S u → h.object? u = some d → ∀ c ∈ d.children, S c) (hv : S v)
    (hbs : h.AreBindings v bindings) : k.AreBindings v bindings := by
  obtain ⟨entries, spine, hr, hall⟩ := hbs
  obtain ⟨hrow, hentries⟩ := hr.transfer hk hc hv
  refine ⟨entries, spine, hrow, ?_⟩
  clear hr hrow
  induction hall with
  | nil => exact .nil
  | cons hb _ ih =>
    obtain ⟨hentry, hentries⟩ := List.forall_mem_cons.mp hentries
    obtain ⟨hn, spine, hr⟩ := hb
    obtain ⟨hrow, hparts⟩ := hr.transfer hk hc hentry
    exact .cons ⟨hn.transfer hk (hparts _ (by simp)), spine, hrow⟩ (ih hentries)

lemma Forms.transfer (hk : ∀ u, S u → k.object? u = h.object? u)
    (hc : ∀ u d, S u → h.object? u = some d → ∀ c ∈ d.children, S c) (hv : S operands)
    (hf : h.Forms operands form) : k.Forms operands form := by
  have hpair : ∀ {u a b}, S u → h.pairAt u = some (a, b) → k.pairAt u = some (a, b) ∧
      S a ∧ S b := by
    intro u a b hu hp
    have hparts := hc u _ hu (pairAt_eq_some.mp hp)
    exact ⟨by rw [pairAt, hk u hu]; exact hp, hparts a (by simp [Datum.children]),
      hparts b (by simp [Datum.children])⟩
  have hbody : ∀ {u}, S u → (h.pairAt u).isSome → (k.pairAt u).isSome := fun {u} hu hb => by
    rwa [pairAt, hk u hu]
  cases hf with
  | plain ho hb hbs =>
    obtain ⟨ho, hfirst, hrest⟩ := hpair hv ho
    exact .plain ho (hbody hrest hb) (hbs.transfer hk hc hfirst)
  | named ho hn hr hb hbs =>
    obtain ⟨ho, hname, hrest⟩ := hpair hv ho
    obtain ⟨hr, hsecond, hthird⟩ := hpair hrest hr
    exact .named ho (hn.transfer hk hname) hr (hbody hthird hb) (hbs.transfer hk hc hsecond)

end Transfer

end Heap

/-- `let` forms are what is expanded, and what they are expanded to is what they stand for.  Let the
operands and the keywords be held by the heap.

* If the operands are those of a form and there are enough root slots, then it is expanded, unless
  the pairs of the expansion do not fit beside what can be reached.  All pairs of the expansion are
  new; the names, the initial values and the body are those of the form.
* All other operands are an error, whose message says what is wrong; if there is no room for that,
  it is the error that says so.
* In any case what could be reached is as it was, and so is the root stack.
* If the same objects can be reached from the operands in another heap then they are those of the
  same form.  So the expansion does not depend on what else there is, nor on when there is a
  collection. -/
theorem let_expands {h : Heap} {kw : Keywords} {operands : Handle} (hw : h.WellFormed)
    (hs : h.HasSentinels) (hr : h.Reachable [] operands) (hl : h.Reachable [] kw.lambda)
    (hd : h.Reachable [] kw.definition) :
    (∀ form, h.Forms operands form → h.roots.size + form.slots ≤ h.rootSlots →
      (expand kw operands h).Takes h (form.expansion kw).pairs [] fun v k => ∃ cells,
        h.Adds [] cells k ∧ k.roots = h.roots ∧ k.Shows (form.expansion kw) cells v) ∧
    ((∀ form, ¬ h.Forms operands form) → ∃ message, h.Misformed operands message ∧
      (expand kw operands h).Finishes (fun _ _ => False) (h.Reports .malformed message)) ∧
    ∀ k : Heap, (∀ u, h.Reachable [operands] u → k.object? u = h.object? u) →
      ∀ form, k.Forms operands form ↔ h.Forms operands form := by
  refine ⟨fun form hf hroom => .of_finishes
    ((expand_makes hw hs hr hl hd hf hroom).mono (fun v k hk => ?_)
    fun e k hk => ⟨hk.2.2.2, hk.1, hk.2.1, hk.2.2.1⟩), fun hn => ?_, fun k hk form => ?_⟩
  · obtain ⟨_, ⟨p, rfl, hp, rfl⟩, hb, hroots⟩ := hk
    have hle := hb.le_capacity
    simp only [List.map_cons, List.map_nil, List.sum_cons, List.sum_nil, hp] at hle
    have hadds : h.Adds [] p.cells k := by simpa using hb.adds
    exact ⟨hle, p.cells, hadds, hroots, hp ▸ hb.shows p List.mem_cons_self⟩
  · obtain ⟨message, hm⟩ := (exists_misformed_iff hs).mpr hn
    exact ⟨message, hm, expand_reports hw hs hr hm⟩
  · have hv : h.Reachable [operands] operands := .of_extra List.mem_cons_self
    refine ⟨fun hf => hf.transfer (fun u hu => (hk u hu).symm) (fun u d hu hd c hc => ?_) hv,
      fun hf => hf.transfer hk (fun u d hu hd c hc => .child hu hd hc) hv⟩
    exact .child hu ((hk u hu).symm.trans hd) hc

/-- The operands `(((x #t)) #f)` are held, and five cells are free. -/
def letting : Heap where
  cells := #[.emptyList, .bool true, .bool false, .error .outOfMemory "out of memory",
    .pair ⟨5⟩ ⟨8⟩, .pair ⟨6⟩ .emptyList, .pair ⟨15⟩ ⟨7⟩, .pair .trueObject .emptyList,
    .pair .falseObject .emptyList, .free none (some 10), .free (some 9) (some 11),
    .free (some 10) (some 12), .free (some 11) (some 13), .free (some 12) none, rootFrame,
    .symbol "x", .symbol "lambda"]
  capacity := 10
  free := some 9
  freeCount := 5
  collections := 0
  roots := #[⟨4⟩]
  rootSlots := 8
  symbols := ∅
  baseEnv := ⟨14⟩
  currentEnv := ⟨14⟩
  audited := true

/-- All keywords are the same symbol there. -/
def lettingKeywords : Keywords :=
  let v : Handle := ⟨16⟩
  ⟨v, v, v, v, v, v, v, v, v, v, v, v, v, v, v, v, v⟩

lemma wellFormed_letting : letting.WellFormed where
  toClosed := by decide
  free :=
    ⟨[9, 10, 11, 12, 13], .of_list ⟨rfl, some 10, rfl, rfl, some 11, rfl, rfl, some 12, rfl, rfl,
      some 13, rfl, rfl, none, rfl, rfl⟩ (by decide) (by decide) rfl⟩
  table := by simp [letting]

lemma hasSentinels_letting : letting.HasSentinels :=
  .of_take rfl

lemma forms_letting : letting.Forms ⟨4⟩ ⟨none, [(⟨15⟩, .trueObject)], ⟨8⟩⟩ :=
  .plain rfl rfl ⟨[⟨6⟩], [⟨5⟩], .cons rfl .nil,
    .cons ⟨⟨"x", rfl⟩, [⟨6⟩, ⟨7⟩], .cons rfl (.cons rfl .nil)⟩ .nil⟩

/-- The five pairs of the expansion `((lambda (x) #f) #t)` fit exactly. -/
theorem let_expands_letting :
    letting.WellFormed ∧ letting.HasSentinels ∧ letting.Reachable [] ⟨4⟩ ∧
    letting.Reachable [] lettingKeywords.lambda ∧ letting.Reachable [] lettingKeywords.definition ∧
    ∃ v k cells, expand lettingKeywords ⟨4⟩ letting = .ok v k ∧ letting.Adds [] cells k ∧
      k.roots = letting.roots ∧ k.Shows (Form.expansion lettingKeywords
        ⟨none, [(⟨15⟩, .trueObject)], ⟨8⟩⟩) cells v := by
  have hr : letting.Reachable [] ⟨4⟩ := .of_slot (i := 0) rfl
  have hl : letting.Reachable [] lettingKeywords.lambda :=
    .anchor (.permanent (by decide) (by decide))
  have hroom : letting.usedWith [] + 5 ≤ 10 :=
    usedWith_add_freeCount_le wellFormed_letting (by simp)
  obtain ⟨hforms, -⟩ := let_expands wellFormed_letting hasSentinels_letting hr hl hl
  obtain ⟨v, k, hrun, cells, hk⟩ := (hforms _ forms_letting (by decide)).success (by
    change 5 + letting.usedWith [] ≤ 10
    omega)
  exact ⟨wellFormed_letting, hasSentinels_letting, hr, hl, hl, v, k, cells, hrun, hk⟩

end ArenaScheme
