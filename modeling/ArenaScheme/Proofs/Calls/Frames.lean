/-
# Calls of closures

A closure holds the frame that was current when it was made, a parameter specification and a body.
Applying it binds the parameters, makes a new frame of the two lists, whose parent is the frame of
the closure, and goes on with the body there.  The frame that was current at the call matters no
more: it is the caller that holds it, if it is needed again.
-/
import ArenaScheme.Proofs.Calls.Parameters
import ArenaScheme.Proofs.Chains.Updates

namespace ArenaScheme

open Heap HeapM Application

namespace Heap

variable {h k : Heap} {extra : List Handle} {v env : Handle}

/-! ## Another current frame -/

lemma reachable_of_switch (he : h.Reachable extra env)
    (hr : ({ h with currentEnv := env } : Heap).Reachable extra v) : h.Reachable extra v := by
  induction hr with
  | anchor ha =>
    cases ha with
    | sentinel hv => exact .sentinel hv
    | permanent hr hv => exact .anchor (.permanent hr hv)
    | root hv => exact .anchor (.root hv)
    | base => exact .anchor .base
    | current => exact he
    | extra hv => exact .of_extra hv
  | child _ hd hv ih => exact .child ih hd hv

/-- What is saved is saved from a frame that can be reached, too. -/
lemma Saves.switch (hs : h.Saves extra k) (he : h.Reachable extra env) :
    ({ h with currentEnv := env } : Heap).Saves extra { k with currentEnv := env } :=
  { hs with
    origin := hs.origin.switchEnv (hs.isLive_origin he)
    wellFormed := hs.wellFormed.switchEnv (hs.isLive he)
    currentEnv := rfl
    kept := fun v hv => hs.kept v (reachable_of_switch he hv) }

/-- The closure has been entered: the current frame is a new child of `env`, which pairs the
parameters with the arguments.  What can be reached with `env` as the current frame is as it was. -/
structure Enters (h : Heap) (env last : Handle) (params args : List Handle) (k : Heap) : Prop where
  wellFormed : k.WellFormed
  roots : k.roots = h.roots
  frame : ∃ names values, k.object? k.currentEnv = some (.frame (some env) names values) ∧
    k.Pairs last params args names values
  fresh : h.Collectible k.currentEnv.index ∧
    ¬ ({ h with currentEnv := env } : Heap).Reachable [] k.currentEnv
  kept : ∀ v, ({ h with currentEnv := env } : Heap).Reachable [] v → k.object? v = h.object? v

end Heap

variable {h k : Heap} {extra made vs ns cells : List Handle}
  {v last params args body env procedure names values : Handle}

/-! ## Closures -/

lemma Heap.type_eq_symbol : (h.object? v).map Datum.type = some .symbol ↔
    ∃ s, h.object? v = some (.symbol s) := by
  cases h.object? v with
  | none => simp
  | some d => cases d <;> simp [Datum.type]

lemma allM_hasType {ε : Type} (hl : ∀ v ∈ vs, h.isLive v = true) (t : DatumType) :
    (vs.allM (hasType t) : HeapM ε Bool) h =
      .ok (decide (∀ v ∈ vs, (h.object? v).map Datum.type = some t)) h := by
  induction vs with
  | nil => rfl
  | cons v vs ih =>
    obtain ⟨hv, hl⟩ := List.forall_mem_cons.mp hl
    obtain ⟨d, hd⟩ := isLive_iff.mp hv
    rw [List.allM, bind_of_ok (hasType_apply hd t)]
    by_cases ht : d.type = t
    · simp [ht, hd, ih hl]
    · simp [beq_eq_false_iff_ne.mpr ht, ht, hd, pure_apply]

/-- A closure is made of the current frame if the parameters are as they should be and there is a
body. -/
lemma closeOver_finishes (hw : h.WellFormed) (hs : h.HasSentinels) (hp : h.isLive params = true)
    (hb : h.isLive body = true) :
    (Form.closeOver params body h).Finishes
      (fun c k => (∃ ns last, h.Specifies params ns last) ∧ (h.pairAt body).isSome ∧
        k.object? c = some (.closure h.currentEnv params body) ∧ k.roots = h.roots ∧
        h.Adds [h.currentEnv, params, body] [c] k)
      fun e k => (¬ ((∃ ns last, h.Specifies params ns last) ∧ (h.pairAt body).isSome) ∧
          ∃ message, h.Reports .malformed message e k) ∨
        (e = .outOfMemory ∧ k.roots = h.roots ∧ h.Adds [h.currentEnv, params, body] [] k ∧
          h.capacity < 1 + h.usedWith [h.currentEnv, params, body]) := by
  have hreject : ∀ message, ¬ ((∃ ns last, h.Specifies params ns last) ∧ (h.pairAt body).isSome) →
      ((raise .malformed message : EvalM Handle) h).Finishes (fun _ _ => False)
        fun e k => ¬ ((∃ ns last, h.Specifies params ns last) ∧ (h.pairAt body).isSome) ∧
          ∃ message, h.Reports .malformed message e k :=
    fun message hn => (raise_finishes hw (by decide) message).mono (fun _ _ => id)
      fun e k hr => ⟨hn, message, hr⟩
  obtain ⟨⟨visited, ending⟩, hwalk⟩ := exists_walkSpine hw.toClosed hp
  have hspec : ∀ {ns last}, h.Specifies params ns last → visited = ns ∧ ending = some last := by
    intro ns last hsp
    rw [hsp.walkSpine_eq hs] at hwalk
    obtain ⟨rfl, rfl⟩ := Walk.mk.inj (Except.ok.inj hwalk)
    exact ⟨rfl, rfl⟩
  have hlive : ∀ v ∈ visited, h.isLive v = true := fun v hv =>
    hw.isLive_of_reachable (List.forall_mem_singleton.mpr hp)
      ((leads_walkFrom _ hwalk .refl (by simp) v hv).reachable (.of_extra List.mem_cons_self))
  have hrun : (HeapM.walkSpine params : EvalM Walk) h = .ok ⟨visited, ending⟩ h := by
    rw [HeapM.walkSpine, inspect, hwalk]
  rw [Form.closeOver, bind_of_ok hrun, bind_of_ok (allM_hasType hlive .symbol)]
  by_cases hall : ∀ v ∈ visited, (h.object? v).map Datum.type = some .symbol
  swap
  · rw [decide_eq_false hall, if_pos Bool.not_false]
    refine (hreject _ ?_).mono (fun _ _ => False.elim) fun e k => .inl
    rintro ⟨⟨ns, last, hsp⟩, -⟩
    obtain ⟨rfl, -⟩ := hspec hsp
    exact hall fun v hv => type_eq_symbol.mpr (hsp.symbols v hv)
  rw [decide_eq_true hall, if_neg (by decide)]
  cases ending with
  | none =>
    refine (hreject _ ?_).mono (fun _ _ => False.elim) fun e k => .inl
    rintro ⟨⟨ns, last, hsp⟩, -⟩
    cases (hspec hsp).2
  | some last =>
    obtain ⟨cells, hrow, -⟩ := row_of_walkSpine hwalk
    have hlast : h.isLive last = true :=
      hw.isLive_of_reachable (List.forall_mem_singleton.mpr hp)
        (hrow.reachable (.of_extra List.mem_cons_self)).2.2
    obtain ⟨d, hd⟩ := isLive_iff.mp hlast
    obtain ⟨b, hb'⟩ := isLive_iff.mp hb
    dsimp only
    rw [bind_of_ok (hasType_apply hd .symbol)]
    by_cases hend : last = .emptyList ∨ d.type = .symbol
    swap
    · rw [if_pos (by simpa [not_or] using hend)]
      refine (hreject _ ?_).mono (fun _ _ => False.elim) fun e k => .inl
      rintro ⟨⟨ns, last', hsp⟩, -⟩
      obtain rfl := Option.some.inj (hspec hsp).2
      rcases hsp.ending with rfl | ⟨s, hl⟩
      · exact hend (.inl rfl)
      · obtain rfl := Option.some.inj (hd.symm.trans hl)
        exact hend (.inr rfl)
    have hsp : h.Specifies params visited last := by
      refine ⟨⟨cells, hrow⟩, fun v hv => type_eq_symbol.mp (hall v hv), hend.imp_right fun ht => ?_⟩
      exact type_eq_symbol.mp (by rw [hd, Option.map_some, ht])
    rw [if_neg (by simpa [or_iff_not_imp_left] using hend), bind_of_ok (hasType_apply hb' .pair)]
    by_cases hpair : b.type = .pair
    swap
    · rw [if_pos (by simpa using hpair)]
      refine (hreject _ fun hn => hpair ?_).mono (fun _ _ => False.elim) fun e k => .inl
      obtain ⟨parts, hparts⟩ := Option.isSome_iff_exists.mp hn.2
      obtain rfl := Option.some.inj (hb'.symm.trans (pairAt_eq_some.mp hparts))
      rfl
    have hsome : (h.pairAt body).isSome := by
      rw [pairAt, hb']
      cases b <;> simp [Datum.type] at hpair
      rfl
    have hlive' : ∀ v ∈ [h.currentEnv, params, body], h.isLive v = true := by
      simp [hp, hb, hw.current]
    have hcurrent : (HeapM.currentEnv : EvalM Handle) h = .ok h.currentEnv h := rfl
    rw [if_neg (by simp [hpair]), bind_of_ok hcurrent, makeClosure]
    rcases alloc_adds (d := .closure h.currentEnv params body) hw rfl hlive' with
      ⟨c, l, hrun, ha, hd, hr⟩ | ⟨l, hrun, ha, hr, hfull⟩ <;> rw [hrun]
    · exact ⟨⟨_, _, hsp⟩, hsome, hd, hr, ha⟩
    · have hle := (Adds.refl hw hlive').capacity_le (fun v => .inl ∘ .of_extra) hfull
      exact .inr ⟨rfl, hr, ha, by simp only [List.length_nil] at hle; omega⟩

/-! ## Entering -/

/-- Two lists are as they were if all that they lead to is. -/
lemma Heap.Pairs.congr (hp : h.Pairs last ns vs names values) (hn : h.Reachable extra names)
    (hv : h.Reachable extra values) (hk : ∀ v, h.Reachable extra v → k.object? v = h.object? v) :
    k.Pairs last ns vs names values := by
  have hrow : ∀ {vs cells v}, h.Row .emptyList vs cells v → h.Reachable extra v →
      k.Row .emptyList vs cells v := fun hr hv => hr.congr fun c hc =>
        hk c ((hr.reachable hv).1 c hc)
  cases hp with
  | all hlen hnames hvalues => exact .all hlen (hrow hnames hn) (hrow hvalues hv)
  | rest hlast hlen hnames hvalues hothers =>
    have hr := (hvalues.reachable hv).2.1 _ (List.mem_append_right _ List.mem_cons_self)
    exact .rest hlast hlen (hrow hnames hn) (hrow hvalues hv) (hrow hothers hr)

/-- The new frame is made while the two lists are held. -/
lemma enter_finishes (hk : h.Adds [] made k) (hroots : k.roots = h.roots)
    (hroom : h.roots.size + 2 ≤ h.rootSlots) (henv : h.IsFrame env) (he : h.Reachable [] env)
    (hpairs : k.Pairs last ns vs names values) (hn : h.Reachable [] names ∨ names ∈ made)
    (hv : h.Reachable [] values ∨ values ∈ made) :
    ((rooted names fun _ => rooted values fun _ => do
        setCurrentEnv env
        let _ ← pushFrame names values : EvalM Unit) k).Finishes
      (fun _ l => h.Enters env last ns vs l)
      fun e l => e = .outOfMemory ∧ h.capacity < made.length + 1 + h.usedWith [] ∧
        l.roots = h.roots := by
  have hlive : ∀ {v}, h.Reachable [] v ∨ v ∈ made → k.isLive v = true := fun hv =>
    hv.elim (fun hr => hk.isLive hr) (hk.held _)
  refine finishes_rooted (by rw [hroots, hk.rootSlots]; omega) (finishes_rooted
    (by simp only [Array.size_push, hroots, hk.rootSlots]; omega) ?_)
  -- the heap in which the frame is made
  set m : Heap := { k with roots := (k.roots.push names).push values, currentEnv := env } with hm
  have hset : (HeapM.setCurrentEnv env : EvalM Unit)
      { k with roots := (k.roots.push names).push values } = .ok () m := by
    obtain ⟨p, ns', vs', hd⟩ := henv
    exact setCurrentEnv_frame ((hk.kept env he).trans hd)
  have hcurrent : (HeapM.currentEnv : EvalM Handle) m = .ok env m := rfl
  have hk2 := (hk.push hn (hlive hn)).push hv (hlive hv)
  have hsaves : ({ h with currentEnv := env } : Heap).Saves [] m := hk2.toSaves.switch he
  have hx : ∀ v ∈ [env, names, values], h.Reachable [] v ∨ v ∈ made := by simp [he, hn, hv]
  have hheld : ∀ {l : Heap}, l.Reachable [env, names, values] names ∧
      l.Reachable [env, names, values] values := ⟨.of_extra (by simp), .of_extra (by simp)⟩
  have hpairs' : m.Pairs last ns vs names values := hpairs.congr hheld.1 hheld.2 fun _ _ => rfl
  dsimp only
  rw [bind_of_ok hset, pushFrame, bind_assoc, bind_of_ok hcurrent, bind_assoc, makeFrame]
  rcases alloc_adds (d := .frame (some env) names values) hsaves.wellFormed rfl
      (fun v hv => hlive (hx v hv)) with
    ⟨c, l, hrun, ha, hd, hr⟩ | ⟨l, hrun, -, hr, hfull⟩
  · have hl := (hsaves.trans ha.toSaves (by simp)).dropRoots
    have hroots' : l.roots = (h.roots.push names).push values := hr.trans (by rw [hm, hroots])
    rw [bind_of_ok hrun]
    simp only [bind_apply, switchEnv, change, pure_apply, Outcome.Finishes, hroots', hroots,
      Array.size_push, Array.pop_push, true_and]
    refine ⟨hl.wellFormed.switchEnv (isLive_of_object? hd), rfl,
      ⟨names, values, hd, hpairs'.congr hheld.1 hheld.2 ha.kept⟩, ?_, hl.kept⟩
    obtain ⟨hcol, hnot⟩ := ha.fresh c List.mem_cons_self
    exact ⟨hsaves.collectible.mp hcol, fun hreach => hnot (hsaves.reachable (by simp) hreach)⟩
  · have hroots' : l.roots = (h.roots.push names).push values := hr.trans (by rw [hm, hroots])
    have hle := hk2.capacity_le hx fun i hi =>
      reachable_of_switch (.of_extra List.mem_cons_self) (hfull i hi)
    rw [bind_of_error hrun]
    simp only [Outcome.Finishes, hroots', hroots, Array.size_push, Array.pop_push,
      true_and, and_true]
    omega

/-- Applying a closure ends with its body to be evaluated in a new frame exactly if the number of
arguments is right and there is room for the lists and for the frame. -/
lemma apply_finishes {host : Array HostProcedure} (hw : h.WellFormed) (hs : h.HasSentinels)
    (hsp : h.Specifies params ns last) (hargs : h.Row .emptyList vs cells args)
    (hf : h.object? procedure = some (.closure env params body)) (hr : h.Reachable [] procedure)
    (henv : h.IsFrame env) (ha : h.Reachable [] args)
    (hroom : h.roots.size + ns.length + 2 ≤ h.rootSlots) :
    (apply host procedure args h).Finishes
      (fun step k => Suits last ns.length vs.length ∧ step = .body body ∧ h.Enters env last ns vs k)
      fun e k => (¬ Suits last ns.length vs.length ∧
          h.Reports .arity (complaint last ns.length vs.length) e k) ∨
        (Suits last ns.length vs.length ∧ e = .outOfMemory ∧
          h.capacity < cellsFor last ns.length + 1 + h.usedWith [] ∧ k.roots = h.roots) := by
  have hp : h.Reachable [] params := .child hr hf (by simp [Datum.children])
  have he : h.Reachable [] env := .child hr hf (by simp [Datum.children])
  rw [apply, bind_of_ok (datum_apply hf)]
  dsimp only
  rw [applyClosure]
  refine finishes_bind ((bindParameters_finishes hw hs hsp hargs hp ha hroom).mono (fun _ _ => id)
    fun e k hk => ?_) fun r k hk => ?_
  · rcases hk with hk | ⟨hsuits, ho, hlt, -, hr⟩
    · exact .inl hk
    · exact .inr ⟨hsuits, ho, by omega, hr⟩
  obtain ⟨names, values⟩ := r
  obtain ⟨hsuits, made, hk, hmade, hroots, hpairs, hknown⟩ := hk
  refine finishes_bind ((enter_finishes hk hroots (by omega) henv he hpairs (hknown names (by simp))
    (hknown values (by simp))).mono (fun _ _ => id) fun e l hl => ?_) fun _ l hl =>
      ⟨hsuits, rfl, hl⟩
  rw [hmade] at hl
  exact .inr ⟨hsuits, hl⟩

/-! ## Binding parameters, and calls -/

/-- A closure can be made of parameters that are a proper list of symbols, one that ends in a
symbol, or a symbol; and of no others.  Let it be applied to a proper list of arguments, the closure
and the arguments being reachable and there being free root slots.

* There is an arity error if and only if there are too few arguments, or too many where no parameter
  takes the rest, and there is room for the error.
* Otherwise there are two lists of one length, which pair the parameters with the arguments, unless
  there is no room for them.
* The closure's body is then evaluated in a new frame of these lists, whose parent is the frame that
  the closure was made in. -/
theorem closures_bind_parameters (hw : h.WellFormed) (hs : h.HasSentinels) :
    (∀ params body, h.isLive params = true → h.isLive body = true →
      (Form.closeOver params body h).Finishes
        (fun c k => (∃ ns last, h.Specifies params ns last) ∧
          k.object? c = some (.closure h.currentEnv params body))
        fun e k => (¬ ((∃ ns last, h.Specifies params ns last) ∧ (h.pairAt body).isSome) ∧
            ∃ message, h.Reports .malformed message e k) ∨
          e = .outOfMemory) ∧
    ∀ params args ns last vs cells, h.Specifies params ns last → h.Row .emptyList vs cells args →
      h.Reachable [] params → h.Reachable [] args → h.roots.size + ns.length + 2 ≤ h.rootSlots →
      ((∃ e k message, bindParameters params args h = .error e k ∧
          k.object? e = some (.error .arity message)) ↔
        ¬ Suits last ns.length vs.length ∧ 1 + h.usedWith [] ≤ h.capacity) ∧
      (bindParameters params args h).Finishes
        (fun r k => Suits last ns.length vs.length ∧ k.Pairs last ns vs r.1 r.2 ∧ h.Saves [] k ∧
          k.roots = h.roots)
        (fun e k => (¬ Suits last ns.length vs.length ∧
            h.Reports .arity (complaint last ns.length vs.length) e k) ∨
          (Suits last ns.length vs.length ∧ e = .outOfMemory ∧
            h.capacity < cellsFor last ns.length + h.usedWith [] ∧ h.Saves [] k ∧
              k.roots = h.roots)) ∧
      ∀ host procedure env body, h.object? procedure = some (.closure env params body) →
        h.Reachable [] procedure → h.IsFrame env →
        (apply host procedure args h).Finishes
          (fun step k => Suits last ns.length vs.length ∧ step = .body body ∧
            h.Enters env last ns vs k)
          fun e k => (¬ Suits last ns.length vs.length ∧
              h.Reports .arity (complaint last ns.length vs.length) e k) ∨
            (Suits last ns.length vs.length ∧ e = .outOfMemory ∧
              h.capacity < cellsFor last ns.length + 1 + h.usedWith [] ∧ k.roots = h.roots) := by
  refine ⟨fun params body hp hb => (closeOver_finishes hw hs hp hb).mono
    (fun c k hk => ⟨hk.1, hk.2.2.1⟩) fun e k hk => hk.imp_right And.left,
    fun params args ns last vs cells hsp hargs hp ha hroom => ⟨?_, ?_, ?_⟩⟩
  · have hfin := bindParameters_finishes hw hs hsp hargs hp ha hroom
    have hmemory : ∀ {k message}, h.Saves [] k →
        k.object? .outOfMemory ≠ some (.error .arity message) := by
      intro k message hk he
      cases (hk.hasSentinels hs .outOfMemory (by decide)).symm.trans he
    constructor
    · rintro ⟨e, k, message, hrun, he⟩
      rw [hrun] at hfin
      rcases hfin with ⟨hn, -, ⟨hle, -⟩ | ⟨-, ha, rfl⟩⟩ | ⟨-, rfl, -, hk, -⟩
      · exact ⟨hn, hle⟩
      · exact absurd he (hmemory ha.toSaves)
      · exact absurd he (hmemory hk)
    · rintro ⟨hn, hle⟩
      cases ho : bindParameters params args h with
      | ok r k => exact absurd (ho ▸ hfin).1 hn
      | error e k =>
        rw [ho] at hfin
        obtain ⟨-, -, ⟨-, -, he⟩ | ⟨hlt, -⟩⟩ := hfin.resolve_right fun hr => hn hr.1
        · exact ⟨e, k, _, rfl, he⟩
        · omega
      | halt c =>
        rw [ho] at hfin
        exact hfin.elim
  · refine (bindParameters_finishes hw hs hsp hargs hp ha hroom).mono
      (fun r k hk => ?_) fun _ _ => id
    obtain ⟨hsuits, made, hk, -, hr, hpairs, -⟩ := hk
    exact ⟨hsuits, hpairs, hk.toSaves, hr⟩
  · exact fun host procedure env body hf hr henv =>
      apply_finishes hw hs hsp hargs hf hr henv ha hroom

/-! ## Examples -/

/-- A closure of such parameters is held, whose body is a list of one object, and three cells are
free. -/
def calling (params : Handle) : Heap :=
  { twoFrames.setCell 6 (.closure ⟨10⟩ params ⟨5⟩) with roots := #[⟨6⟩], currentEnv := ⟨10⟩ }

lemma wellFormed_calling (hp : twoFrames.isLive params = true) : (calling params).WellFormed := by
  have hframe : twoFrames.object? ⟨6⟩ = some (.frame (some ⟨10⟩) .emptyList .emptyList) := rfl
  have hchildren : ∀ w ∈ (Datum.closure ⟨10⟩ params ⟨5⟩).children, twoFrames.isLive w = true := by
    intro w hw
    rcases (by simpa [Datum.children] using hw : w = ⟨10⟩ ∨ w = params ∨ w = ⟨5⟩) with
      rfl | rfl | rfl
    exacts [rfl, hp, rfl]
  have hheld : ∀ v ∈ (#[⟨6⟩] : Array Handle).toList,
      (twoFrames.setCell 6 (.closure ⟨10⟩ params ⟨5⟩)).isLive v = true := by
    intro v hv
    obtain rfl : v = ⟨6⟩ := by simpa using hv
    rfl
  have hcell := wellFormed_twoFrames.setCell hframe (by decide) rfl hchildren
  have hroots := hcell.setRoots hheld
  exact hroots.switchEnv rfl

/-- A call with a suitable number of arguments goes through if there is room for it. -/
lemma enters_of_finishes {o : Outcome Handle Step} {wanted given n : Nat}
    {complains : Handle → Heap → Prop}
    (ho : o.Finishes
      (fun step k => Suits last wanted given ∧ step = .body body ∧ h.Enters env last ns vs k)
      fun e k => (¬ Suits last wanted given ∧ complains e k) ∨
        (Suits last wanted given ∧ e = .outOfMemory ∧ h.capacity < n + 1 + h.usedWith [] ∧
          k.roots = h.roots))
    (hsuits : Suits last wanted given) (hroom : n + 1 + h.usedWith [] ≤ h.capacity) :
    ∃ k, o = .ok (.body body) k ∧ h.Enters env last ns vs k := by
  obtain ⟨_, k, rfl, -, rfl, hk⟩ | ⟨_, _, -, ⟨hn, -⟩ | ⟨-, -, hlt, -⟩⟩ := ho.cases
  · exact ⟨k, rfl, hk⟩
  · exact absurd hsuits hn
  · omega

/-- A closure of one parameter and one of any number of arguments are called with one argument. -/
theorem closures_bind_parameters_calling :
    ((calling ⟨4⟩).WellFormed ∧ (calling ⟨4⟩).HasSentinels ∧
      (calling ⟨4⟩).Specifies ⟨4⟩ [⟨11⟩] .emptyList ∧
      (calling ⟨4⟩).Row .emptyList [.trueObject] [⟨5⟩] ⟨5⟩ ∧
      (∀ v ∈ [⟨4⟩, ⟨5⟩, ⟨6⟩], (calling ⟨4⟩).Reachable [] v) ∧ (calling ⟨4⟩).IsFrame ⟨10⟩ ∧
      ∃ k, apply #[] ⟨6⟩ ⟨5⟩ (calling ⟨4⟩) = .ok (.body ⟨5⟩) k ∧
        (calling ⟨4⟩).Enters ⟨10⟩ .emptyList [⟨11⟩] [.trueObject] k) ∧
    (calling ⟨11⟩).WellFormed ∧ (calling ⟨11⟩).HasSentinels ∧
      (calling ⟨11⟩).Specifies ⟨11⟩ [] ⟨11⟩ ∧
      (calling ⟨11⟩).Row .emptyList [.trueObject] [⟨5⟩] ⟨5⟩ ∧
      (∀ v ∈ [⟨11⟩, ⟨5⟩, ⟨6⟩], (calling ⟨11⟩).Reachable [] v) ∧ (calling ⟨11⟩).IsFrame ⟨10⟩ ∧
      ∃ k, apply #[] ⟨6⟩ ⟨5⟩ (calling ⟨11⟩) = .ok (.body ⟨5⟩) k ∧
        (calling ⟨11⟩).Enters ⟨10⟩ ⟨11⟩ [] [.trueObject] k := by
  have hall {params last : Handle} {ns : List Handle} (hl : twoFrames.isLive params = true)
      (hp : (calling params).Specifies params ns last) (hsuits : Suits last ns.length 1)
      (hcells : cellsFor last ns.length ≤ 2) (hlen : ns.length + 3 ≤ 8) :
      (calling params).WellFormed ∧ (calling params).HasSentinels ∧
      (calling params).Specifies params ns last ∧
      (calling params).Row .emptyList [.trueObject] [⟨5⟩] ⟨5⟩ ∧
      (∀ v ∈ [params, ⟨5⟩, ⟨6⟩], (calling params).Reachable [] v) ∧
      (calling params).IsFrame ⟨10⟩ ∧
      ∃ k, apply #[] ⟨6⟩ ⟨5⟩ (calling params) = .ok (.body ⟨5⟩) k ∧
        (calling params).Enters ⟨10⟩ last ns [.trueObject] k := by
    have hw : (calling params).WellFormed := wellFormed_calling hl
    have hs : (calling params).HasSentinels := .of_take rfl
    have hargs : (calling params).Row .emptyList [.trueObject] [⟨5⟩] ⟨5⟩ := .cons rfl .nil
    have hframe : (calling params).IsFrame ⟨10⟩ := ⟨_, _, _, rfl⟩
    have hobject : (calling params).object? ⟨6⟩ = some (.closure ⟨10⟩ params ⟨5⟩) := rfl
    have hclosure : (calling params).Reachable [] ⟨6⟩ := .of_slot (i := 0) rfl
    have hparams : (calling params).Reachable [] params :=
      .child hclosure hobject (by simp [Datum.children])
    have hbody : (calling params).Reachable [] ⟨5⟩ :=
      .child hclosure hobject (by simp [Datum.children])
    obtain ⟨-, -, hcall⟩ := (closures_bind_parameters hw hs).2 _ _ _ _ _ _ hp hargs hparams hbody
      (show 1 + ns.length + 2 ≤ 8 by omega)
    have hused : (calling params).usedWith [] + 3 ≤ 6 := usedWith_add_freeCount_le hw (by simp)
    have hroom : cellsFor last ns.length + 1 + (calling params).usedWith [] ≤ 6 := by omega
    exact ⟨hw, hs, hp, hargs, by simp [hparams, hbody, hclosure], hframe,
      enters_of_finishes (hcall #[] _ _ _ hobject hclosure hframe) hsuits hroom⟩
  exact ⟨hall rfl ⟨⟨[⟨4⟩], .cons rfl .nil⟩, List.forall_mem_singleton.mpr ⟨"x", rfl⟩, .inl rfl⟩
      (by decide) (by decide) (by decide),
    hall rfl ⟨⟨[], .nil⟩, by simp, .inr ⟨"x", rfl⟩⟩ (by decide) (by decide) (by decide)⟩

/-- The only collectible cell is a pair, the list of the symbol `x`; and no root slot is left. -/
def narrow : Heap :=
  { crowded.setCell 4 (.pair ⟨6⟩ .emptyList) with roots := Array.replicate 8 ⟨4⟩ }

lemma wellFormed_narrow : narrow.WellFormed := by
  have hpair : crowded.object? ⟨4⟩ = some (.pair .emptyList .emptyList) := rfl
  refine (wellFormed_crowded.setCell hpair (by decide) rfl (by decide)).setRoots fun v hv => ?_
  obtain rfl : v = ⟨4⟩ := by simpa using hv
  rfl

/-- If there is room neither for an error nor in a root slot then there is no arity error, and no
list is made of the arguments of a procedure that takes any number of them. -/
theorem bindParameters_narrow :
    narrow.WellFormed ∧ narrow.HasSentinels ∧ narrow.Specifies ⟨4⟩ [⟨6⟩] .emptyList ∧
    narrow.Specifies ⟨6⟩ [] ⟨6⟩ ∧ narrow.Row .emptyList [] [] .emptyList ∧
    (∀ v ∈ [⟨4⟩, ⟨6⟩, .emptyList], narrow.Reachable [] v) ∧ ¬ Suits .emptyList 1 0 ∧
    (¬ ∃ e k message, bindParameters ⟨4⟩ .emptyList narrow = .error e k ∧
      k.object? e = some (.error .arity message)) ∧
    ∃ c, bindParameters ⟨6⟩ .emptyList narrow = .halt c := by
  have hs : narrow.HasSentinels := .of_take rfl
  have hx : narrow.object? ⟨6⟩ = some (.symbol "x") := rfl
  have hparams : narrow.Specifies ⟨4⟩ [⟨6⟩] .emptyList :=
    ⟨⟨[⟨4⟩], .cons rfl .nil⟩, List.forall_mem_singleton.mpr ⟨_, hx⟩, .inl rfl⟩
  have hpair : narrow.Reachable [] ⟨4⟩ := .of_slot (i := 0) rfl
  refine ⟨wellFormed_narrow, hs, hparams, ⟨⟨[], .nil⟩, by simp, .inr ⟨_, hx⟩⟩, .nil, ?_,
    by decide, ?_, _, rfl⟩
  · have hsymbol : narrow.Reachable [] ⟨6⟩ := .head hpair (b := .emptyList) rfl
    have hnil : narrow.Reachable [] .emptyList := .sentinel (by decide)
    simp [hpair, hsymbol, hnil]
  · rintro ⟨e, k, message, hrun, he⟩
    rw [bindParameters_fixed hs hparams .nil rfl, if_neg (by decide)] at hrun
    have hraise := raise_finishes (α := Handle × Handle) wellFormed_narrow
      (show ErrorKind.arity ≠ .outOfMemory by decide)
      (complaint .emptyList [(⟨6⟩ : Handle)].length ([] : List Handle).length)
    rw [hrun] at hraise
    obtain ⟨-, ⟨-, ha, -⟩ | ⟨-, ha, rfl⟩⟩ := hraise
    · -- the only cell there is cannot be the new error
      obtain ⟨⟨hlo, hhi⟩, hnot⟩ := ha.fresh e List.mem_cons_self
      obtain ⟨i⟩ := e
      obtain rfl : i = 4 := Nat.le_antisymm (Nat.le_of_lt_succ hhi) hlo
      exact hnot hpair
    · cases (ha.hasSentinels hs .outOfMemory (by decide)).symm.trans he

end ArenaScheme
