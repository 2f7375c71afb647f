/-
# Parameters and arguments

The parameters of a procedure are a row of symbols that ends in the empty list, or in one more
symbol for the arguments that are left; a single symbol is the row without any pair.  Applying the
procedure to a proper list of arguments comes to two parallel lists.  If there is no symbol for what
is left, these are the two lists themselves, which have to be of one length.  Otherwise two new
lists are made, and the last object of the second one is the rest of the arguments, a list that is
shared.
-/
import ArenaScheme.Eval.Application
import ArenaScheme.Eval.Forms
import ArenaScheme.Proofs.Protection.Constructors

namespace ArenaScheme

open Heap HeapM Application

namespace Heap

/-- The parameters are the symbols `names` and, for the arguments that are left, the symbol `last`;
there is none if `last` is the empty list. -/
structure Specifies (h : Heap) (params : Handle) (names : List Handle) (last : Handle) : Prop where
  row : ∃ cells, h.Row last names cells params
  symbols : ∀ v ∈ names, ∃ s, h.object? v = some (.symbol s)
  ending : last = .emptyList ∨ ∃ s, h.object? last = some (.symbol s)

/-- The lists `names` and `values` pair the parameters with the arguments: position by position, and
the last parameter, if there is one for what is left, with the list of the other arguments. -/
inductive Pairs (h : Heap) : Handle → List Handle → List Handle → Handle → Handle → Prop
  | all {params args cells cells' : List Handle} {names values : Handle}
      (hlen : args.length = params.length) (hn : h.Row .emptyList params cells names)
      (hv : h.Row .emptyList args cells' values) : Pairs h .emptyList params args names values
  | rest {params args cells cells' others : List Handle} {last names values rest : Handle}
      (hlast : last ≠ .emptyList) (hlen : params.length ≤ args.length)
      (hn : h.Row .emptyList (params ++ [last]) cells names)
      (hv : h.Row .emptyList (args.take params.length ++ [rest]) cells' values)
      (hr : h.Row .emptyList (args.drop params.length) others rest) :
      Pairs h last params args names values

end Heap

namespace Application

/-- So many arguments will do for so many parameters. -/
def Suits (last : Handle) (wanted given : Nat) : Prop :=
  if last = .emptyList then wanted = given else wanted ≤ given

instance (last : Handle) (wanted given : Nat) : Decidable (Suits last wanted given) :=
  inferInstanceAs (Decidable (ite _ _ _))

/-- What is said if they will not do. -/
def complaint (last : Handle) (wanted given : Nat) : String :=
  if last = .emptyList then
    "expected " ++ toString wanted ++ " argument(s), got " ++ toString given
  else "expected at least " ++ toString wanted ++ " argument(s), got " ++ toString given

/-- How many cells are made for two lists of the parameters and the arguments. -/
def cellsFor (last : Handle) (wanted : Nat) : Nat :=
  if last = .emptyList then 0 else 2 * (wanted + 1)

end Application

variable {h k l : Heap} {extra made vs ws us ns cells : List Handle}
  {u v w last params args body env : Handle}

/-! ## What can be reached anyway -/

lemma Heap.reachable_iff (hx : ∀ v ∈ extra, h.Reachable [] v) :
    h.Reachable extra v ↔ h.Reachable [] v := ⟨fun hr => hr.mono hx, .of_nil⟩

lemma Heap.usedWith_eq (hx : ∀ v ∈ extra, h.Reachable [] v) : h.usedWith extra = h.usedWith [] := by
  simp only [usedWith, reachable_iff hx]

lemma Heap.Adds.nil (ha : h.Adds extra made k) (hx : ∀ v ∈ extra, h.Reachable [] v) :
    h.Adds [] made k := by
  have hiff : ∀ {v}, h.Reachable extra v ↔ h.Reachable [] v := reachable_iff hx
  refine ⟨ha.toSaves.nil, ha.size_eq, ha.symbols_eq, fun i v hi hv => ?_, ha.nodup, fun v hv => ?_,
    ha.held, fun v hv d hd c hc => ?_⟩
  · exact (ha.above i v hi hv).imp_left hiff.mp
  · exact ⟨(ha.fresh v hv).1, fun hr => (ha.fresh v hv).2 (hiff.mpr hr)⟩
  · exact (ha.closed v hv d hd c hc).imp_left hiff.mp

/-! ## Splitting arguments -/

lemma splitArguments_eq (hr : h.Row .emptyList vs cells args) {n : Nat} (hn : n ≤ vs.length) :
    ∃ rest, splitArguments n args h = .ok (vs.take n, rest) h ∧
      h.Row .emptyList (vs.drop n) (cells.drop n) rest := by
  induction n generalizing vs cells args with
  | zero => exact ⟨args, rfl, hr⟩
  | succ n ih =>
    cases hr with
    | nil => simp at hn
    | @cons x next v vs cells hv hr =>
      obtain ⟨rest, hrun, hrest⟩ := ih hr (by simpa using hn)
      refine ⟨rest, ?_, hrest⟩
      rw [splitArguments, bind_of_ok (asPair_apply hv)]
      simp only [Datum.pair?]
      rw [bind_of_ok hrun]
      rfl

/-! ## Two lists -/

/-- Two lists of objects that can be reached take as many cells as they have elements. -/
lemma pairUp_finishes (hw : h.WellFormed) (hvs : ∀ v ∈ vs, h.Reachable [] v)
    (hus : ∀ u ∈ us, h.Reachable [] u) (hv : h.roots.size + vs.length ≤ h.rootSlots)
    (hu : h.roots.size + 1 + us.length ≤ h.rootSlots) :
    (pairUp vs us h).Finishes
      (fun r k => ∃ made, h.Adds [] made k ∧ made.length = vs.length + us.length ∧
        k.roots = h.roots ∧ (∃ cells, k.Row .emptyList vs cells r.1) ∧
        (∃ cells, k.Row .emptyList us cells r.2) ∧ ∀ c ∈ [r.1, r.2], h.Reachable [] c ∨ c ∈ made)
      fun e k => e = .outOfMemory ∧ h.capacity < vs.length + us.length + h.usedWith [] ∧
        h.Saves [] k ∧ k.roots = h.roots := by
  have hlive : ∀ {v}, h.Reachable [] v → h.isLive v = true := fun hr =>
    hw.isLive_of_reachable (by simp) hr
  have hnil : h.Reachable [] .emptyList := .sentinel (by decide)
  refine finishes_bind ((list_finishes hw (fun v hm => hlive (hvs v hm)) hv).mono (fun _ _ => id)
    fun e k hk => ?_) fun names k hk => ?_
  · obtain ⟨hlt, rfl, hk, hr⟩ := hk
    rw [usedWith_eq hvs] at hlt
    exact ⟨rfl, by omega, hk.nil, hr⟩
  obtain ⟨-, c, hk, hr, hrow⟩ := hk
  have ha := hk.nil hvs
  have hnames : h.Reachable [] names ∨ names ∈ c :=
    hrow.start.imp_left fun he : names = .emptyList => he ▸ hnil
  have ha2 := ha.push hnames (hnames.elim (fun hr => ha.isLive hr) (ha.held names))
  -- the first list is held while the second one is made
  have hc : ∀ {e}, ∀ u ∈ c, ({ k with roots := k.roots.push names } : Heap).Reachable e u :=
    ((hrow.congr (k := { k with roots := k.roots.push names }) fun _ _ => rfl).reachable
      (.anchor (.root (by simp)))).1
  have hus' : ∀ u ∈ us, h.Reachable [] u ∨ u ∈ c := fun u hm => .inl (hus u hm)
  have hlive2 : ∀ u ∈ us, ({ k with roots := k.roots.push names } : Heap).isLive u = true :=
    fun u hm => ha2.isLive (hus u hm)
  have hle := ha2.usedWith_le hus'
  have hcap := ha2.capacity
  rw [hrow.length_eq] at hle
  refine finishes_rooted (by rw [hr, ha.rootSlots]; omega) ?_
  refine finishes_bind ((list_finishes ha2.wellFormed hlive2 (by
    simp only [Array.size_push, hr, ha.rootSlots]; omega)).mono (fun _ _ => id) fun e l hl => ?_)
    fun values l hl => ?_
  · obtain ⟨hlt, rfl, hl, hrl⟩ := hl
    have hdrop := (ha2.toSaves.trans hl (by simp)).dropRoots
    simp only [hrl, hr, Array.size_push, Array.pop_push, true_and]
    exact ⟨by omega, hdrop, trivial⟩
  · obtain ⟨-, c', hl, hrl, hrow'⟩ := hl
    have hall := (ha2.trans hl (by simp) hc hus').dropRoots
    have hsaved := (hrow.congr (k := { k with roots := k.roots.push names }) fun _ _ => rfl).saved
      hl.toSaves (.anchor (.root (by simp)))
    simp only [pure_apply, Outcome.Finishes, hrl, hr, Array.size_push, Array.pop_push, true_and]
    refine ⟨c' ++ c, hall, ?_, ⟨c, hsaved.congr fun _ _ => rfl⟩,
      ⟨c', hrow'.congr fun _ _ => rfl⟩, ?_⟩
    · rw [List.length_append, hrow.length_eq, hrow'.length_eq, Nat.add_comm]
    · refine List.forall_mem_cons.mpr ⟨hnames.imp_right (List.mem_append_right c'),
        List.forall_mem_singleton.mpr ?_⟩
      refine hrow'.start.imp (fun he : values = .emptyList => he ▸ hnil) (List.mem_append_left c)

/-! ## Binding parameters -/

lemma length?_eq {ε : Type} {w : Walk} (hw : h.walkSpine v = .ok w) :
    (length? v : HeapM ε (Option Nat)) h = .ok (w.items?.map List.length) h := by
  rw [length?, bind_of_ok (items?_eq hw)]
  rfl

lemma Heap.Specifies.pairAt_last (hs : h.HasSentinels) (hsp : h.Specifies params ns last) :
    h.pairAt last = none := by
  rcases hsp.ending with rfl | ⟨s, hl⟩
  · exact hs.pairAt_emptyList
  · rw [pairAt, hl]
    rfl

lemma Heap.Specifies.isLive_last (hs : h.HasSentinels) (hsp : h.Specifies params ns last) :
    h.isLive last = true := by
  rcases hsp.ending with rfl | ⟨s, hl⟩
  · exact isLive_of_object? hs.emptyList
  · exact isLive_of_object? hl

/-- The parameters stay what they are as long as what they lead to is there as before. -/
lemma Heap.Specifies.keep (hsp : h.Specifies params ns last) (hr : h.Reachable extra params)
    (hk : ∀ v, h.Reachable extra v → k.object? v = h.object? v) : k.Specifies params ns last := by
  obtain ⟨⟨c, hrow⟩, hsym, hend⟩ := hsp
  obtain ⟨hc, hns, hlast⟩ := hrow.reachable hr
  refine ⟨⟨c, hrow.congr fun u hu => hk u (hc u hu)⟩, fun v hv => ?_, hend.imp_right ?_⟩
  · obtain ⟨s, hd⟩ := hsym v hv
    exact ⟨s, (hk v (hns v hv)).trans hd⟩
  · rintro ⟨s, hd⟩
    exact ⟨s, (hk last hlast).trans hd⟩

/-- A walk tells the parameters. -/
lemma Heap.Specifies.walkSpine_eq (hs : h.HasSentinels) (hsp : h.Specifies params ns last) :
    h.walkSpine params = .ok ⟨ns, some last⟩ := by
  obtain ⟨c, hrow⟩ := hsp.row
  exact hrow.walkSpine_eq (hsp.isLive_last hs) (hsp.pairAt_last hs)

/-- Parameters without one for what is left: the lists are used as they are. -/
lemma bindParameters_fixed {given : Nat} (hs : h.HasSentinels)
    (hsp : h.Specifies params ns .emptyList) (hargs : h.Row .emptyList vs cells args)
    (hg : vs.length = given) :
    bindParameters params args h = if ns.length = given then .ok (params, args) h
      else (raise .arity (complaint .emptyList ns.length given) : EvalM (Handle × Handle)) h := by
  have hp := hsp.walkSpine_eq hs
  have ha := hargs.walkSpine_eq (isLive_of_object? hs.emptyList) hs.pairAt_emptyList
  subst hg
  rw [bindParameters, bind_of_ok (length?_eq ha), bind_of_ok (length?_eq hp)]
  simp only [Walk.items?, if_true, Option.map_some, Option.getD_some, complaint]
  split <;> rfl

/-- Parameters with one for what is left: new lists are made. -/
lemma bindParameters_rest (hs : h.HasSentinels) (hsp : h.Specifies params ns last)
    (hlast : last ≠ .emptyList) (hargs : h.Row .emptyList vs cells args) :
    (vs.length < ns.length ∧ bindParameters params args h =
      (raise .arity (complaint last ns.length vs.length) : EvalM (Handle × Handle)) h) ∨
    (ns.length ≤ vs.length ∧ ∃ rest, h.Row .emptyList (vs.drop ns.length)
      (cells.drop ns.length) rest ∧
      bindParameters params args h = pairUp (ns ++ [last]) (vs.take ns.length ++ [rest]) h) := by
  obtain ⟨c, hrow⟩ := hsp.row
  have hp := hsp.walkSpine_eq hs
  have ha := hargs.walkSpine_eq (isLive_of_object? hs.emptyList) hs.pairAt_emptyList
  have hbind : bindParameters params args h = (do
      if ← hasType .symbol params then pairUp [params] [args]
      else
        let spine ← walkSpine params
        let required := spine.visited.length
        if vs.length < required then
          raise .arity
            ("expected at least " ++ toString required ++ " argument(s), got " ++
              toString vs.length)
        else
          let split ← splitArguments required args
          pairUp (spine.visited ++ [spine.ending.getD .emptyList]) (split.1 ++ [split.2]) :
      EvalM (Handle × Handle)) h := by
    rw [bindParameters, bind_of_ok (length?_eq ha), bind_of_ok (length?_eq hp)]
    simp only [Walk.items?, if_true, Option.map_some, Option.getD_some, Option.some.injEq,
      if_neg hlast, Option.map_none]
  rw [hbind]
  cases hrow with
  | nil =>
    obtain ⟨s, hl⟩ := hsp.ending.resolve_left hlast
    refine .inr ⟨Nat.zero_le _, args, hargs, ?_⟩
    rw [bind_of_ok (hasType_apply hl .symbol)]
    rfl
  | @cons x next v ns c hv hr =>
    have hwalk : (walkSpine params : EvalM Walk) h = .ok ⟨x :: ns, some last⟩ h := by
      rw [HeapM.walkSpine, inspect, hp]
    have hpair : ¬ ((Datum.pair x next).type == .symbol) = true := by simp [Datum.type]
    rw [bind_of_ok (hasType_apply hv .symbol), if_neg hpair, bind_of_ok hwalk]
    by_cases hlt : vs.length < (x :: ns).length
    · refine .inl ⟨hlt, ?_⟩
      simp only [if_pos hlt, complaint, if_neg hlast]
    · obtain ⟨rest, hsplit, hrest⟩ := splitArguments_eq hargs (Nat.not_lt.mp hlt)
      refine .inr ⟨Nat.not_lt.mp hlt, rest, hrest, ?_⟩
      simp only [if_neg hlt]
      rw [bind_of_ok hsplit]
      rfl

/-- Binding parameters ends with two parallel lists exactly if the number of arguments is right and
there is room for the lists. -/
lemma bindParameters_finishes (hw : h.WellFormed) (hs : h.HasSentinels)
    (hsp : h.Specifies params ns last) (hargs : h.Row .emptyList vs cells args)
    (hp : h.Reachable [] params) (ha : h.Reachable [] args)
    (hroom : h.roots.size + ns.length + 2 ≤ h.rootSlots) :
    (bindParameters params args h).Finishes
      (fun r k => Suits last ns.length vs.length ∧ ∃ made, h.Adds [] made k ∧
        made.length = cellsFor last ns.length ∧ k.roots = h.roots ∧ k.Pairs last ns vs r.1 r.2 ∧
        ∀ c ∈ [r.1, r.2], h.Reachable [] c ∨ c ∈ made)
      fun e k => (¬ Suits last ns.length vs.length ∧
          h.Reports .arity (complaint last ns.length vs.length) e k) ∨
        (Suits last ns.length vs.length ∧ e = .outOfMemory ∧
          h.capacity < cellsFor last ns.length + h.usedWith [] ∧ h.Saves [] k ∧
          k.roots = h.roots) := by
  obtain ⟨c, hrow⟩ := hsp.row
  obtain ⟨-, hns, hlast⟩ := hrow.reachable hp
  obtain ⟨hcells, hvs, -⟩ := hargs.reachable ha
  by_cases hl : last = .emptyList
  · subst hl
    have hsuits : Suits .emptyList ns.length vs.length ↔ ns.length = vs.length := by simp [Suits]
    rw [bindParameters_fixed hs hsp hargs rfl]
    split
    · next he =>
      refine ⟨hsuits.mpr he, [], .refl hw (by simp), rfl, rfl, ?_, by simp [hp, ha]⟩
      exact .all he.symm hrow hargs
    · next hne =>
      exact (raise_finishes hw (by decide) _).mono (fun _ _ => False.elim) fun e k hr =>
        .inl ⟨mt hsuits.mp hne, hr⟩
  · have hsuits : Suits last ns.length vs.length ↔ ns.length ≤ vs.length := by simp [Suits, hl]
    rcases bindParameters_rest hs hsp hl hargs with ⟨hlt, hrun⟩ | ⟨hle, rest, hrest, hrun⟩
    · rw [hrun]
      exact (raise_finishes hw (by decide) _).mono (fun _ _ => False.elim) fun e k hr =>
        .inl ⟨mt hsuits.mp (Nat.not_le.mpr hlt), hr⟩
    · have hr : h.Reachable [] rest :=
        hrest.start.elim (fun he => he ▸ .sentinel (by decide)) fun hm =>
          hcells rest (List.mem_of_mem_drop hm)
      have hnames : ∀ v ∈ ns ++ [last], h.Reachable [] v := by
        simpa [or_imp, forall_and, hlast] using hns
      have hvalues : ∀ u ∈ vs.take ns.length ++ [rest], h.Reachable [] u := by
        intro u hu
        rcases List.mem_append.mp hu with hu | hu
        · exact hvs u (List.mem_of_mem_take hu)
        · exact List.mem_singleton.mp hu ▸ hr
      have hlen : (vs.take ns.length ++ [rest]).length = ns.length + 1 := by simp [hle]
      have hcount : (ns ++ [last]).length + (vs.take ns.length ++ [rest]).length =
          cellsFor last ns.length := by
        rw [hlen, List.length_append, List.length_singleton, cellsFor, if_neg hl]
        omega
      rw [hrun]
      refine (pairUp_finishes hw hnames hvalues (by simp; omega) (by omega)).mono (fun r k hk => ?_)
        fun e k hk => ?_
      · obtain ⟨made, hk, hmade, hroots, ⟨_, hnr⟩, ⟨_, hvr⟩, hknown⟩ := hk
        exact ⟨hsuits.mpr hle, made, hk, hmade.trans hcount, hroots,
          .rest hl hle hnr hvr (hrest.saved hk.toSaves hr), hknown⟩
      · obtain ⟨rfl, hlt, hk⟩ := hk
        exact .inr ⟨hsuits.mpr hle, rfl, by omega, hk⟩

end ArenaScheme
