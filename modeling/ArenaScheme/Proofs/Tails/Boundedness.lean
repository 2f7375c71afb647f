/-
# Tail calls in bounded room

The results of this part put together: what an evaluation holds at the start of a turn, and what
that means for a procedure that counts down to zero by calling itself.  The procedure is defined on
a machine that has just been set up.  The definition makes the closure, and two pairs that bind its
name, and after it the machine is at rest again; then a call is read and evaluated.  Cells and root
slots are enough for each of these whatever the count is, so every call comes to zero.

Only a count that is an integer of the machine is counted down: greater numerals are read as reals.
-/
import ArenaScheme.Proofs.Tails.Texts

namespace ArenaScheme

open Heap HeapM Evaluator

variable {h k l m : Heap} {ctx : Context} {kw : Keywords} {s : Sizing} {bs : Bindings}
  {done : List Builtin} {n budget b : Nat} {name : String} {e f v x symbol env params body : Handle}
  {made extra : List Handle}

namespace Tree

/-- `(lambda (x) (if (= x 0) 0 (f (+ x -1))))` -/
def procedure : Tree := form [word "lambda", form [word "x"], counting]

/-- `(define f (lambda (x) (if (= x 0) 0 (f (+ x -1)))))` -/
def definition : Tree := form [word "define", word "f", procedure]

/-- `(f n)` -/
def call (n : Int64) : Tree := form [word "f", .leaf (.int n)]

end Tree

/-! ## Forms -/

namespace Heap

/-- The keywords are different symbols. -/
lemma WellFormed.nodup_keywords (hw : h.WellFormed)
    (hk : ∀ p ∈ kw.table, h.findSymbol p.1 = some p.2) :
    (kw.table.map (·.2)).Nodup := by
  have hnames : (kw.table.map (·.1)).Nodup := by simp [Keywords.table]
  rw [List.Nodup, List.pairwise_map] at hnames ⊢
  exact hnames.imp_of_mem fun hp hq hne => hw.symbol_ne (hk _ hp) (hk _ hq) hne

/-- Each keyword stands for its form. -/
lemma WellFormed.forms (hw : h.WellFormed)
    (hk : ∀ p ∈ ctx.keywords.table, h.findSymbol p.1 = some p.2) :
    (∀ nested budget operands, Step.ofPair ctx nested budget ctx.keywords.definition operands =
      Form.definition nested operands) ∧
    (∀ nested budget operands, Step.ofPair ctx nested budget ctx.keywords.lambda operands =
      Form.lambda operands) ∧
    ctx.keywords.conditional ∉ [ctx.keywords.quote, ctx.keywords.quasiquote] := by
  have hne := hw.nodup_keywords hk
  simp only [Keywords.table, List.map_cons, List.map_nil, List.nodup_cons, List.mem_cons,
    List.not_mem_nil, or_false, not_or] at hne
  exact ⟨fun _ _ _ => by simp [Step.ofPair, hne, Ne.symm],
    fun _ _ _ => by simp [Step.ofPair, hne, Ne.symm], by simp [hne, Ne.symm]⟩

/-- Other names are no keywords. -/
lemma WellFormed.notMem_heads (hw : h.WellFormed) (hk : ∀ p ∈ kw.table, h.findSymbol p.1 = some p.2)
    (hs : h.findSymbol name = some symbol) (hn : name ∉ kw.table.map (·.1)) :
    symbol ∉ kw.heads := by
  have hne : ∀ p ∈ kw.table, symbol ≠ p.2 := fun p hp =>
    hw.symbol_ne hs (hk p hp) fun hname => hn (hname ▸ List.mem_map_of_mem hp)
  simp only [Keywords.table, List.forall_mem_cons] at hne
  simp [Keywords.heads, hne]

/-! ## The definition -/

/-- The procedure is a `lambda` expression. -/
lemma isLambda_of_unfolds (hw : h.WellFormed) (hk : ∀ p ∈ kw.table, h.findSymbol p.1 = some p.2)
    (he : h.Unfolds .procedure e) : ∃ params body, h.IsLambda kw e params body ∧
      h.Unfolds (.form [.word "x"]) params ∧ h.Unfolds (.form [.counting]) body := by
  obtain ⟨head, operands, hd, hhead, params, body, hd', hparams, hbody⟩ := he
  obtain rfl : kw.lambda = head :=
    Option.some.inj ((hk ("lambda", kw.lambda) (by simp [Keywords.table])).symm.trans hhead)
  refine ⟨params, body, ⟨⟨operands, hd, hd'⟩, ?_, ?_⟩, hparams, hbody⟩
  · obtain ⟨x, rest, hpair, hsym, rfl⟩ := hparams
    exact ⟨[x], .emptyList, ⟨[params], .cons hpair .nil⟩,
      by simpa using ⟨"x", (hw.table _ _ hsym).2⟩, .inl rfl⟩
  · obtain ⟨x, rest, hpair, -⟩ := hbody
    rw [pairAt_eq_some.mpr hpair]
    rfl

/-- What the definition leaves: the frame binds `f` to the closure, and else there is nothing
new. -/
structure Defines (h : Heap) (bs : Bindings) (e f c : Handle) (l : Heap) : Prop where
  wellFormed : l.WellFormed
  capacity : l.capacity = h.capacity
  rootSlots : l.rootSlots = h.rootSlots
  baseEnv : l.baseEnv = h.baseEnv
  currentEnv : l.currentEnv = h.currentEnv
  roots : l.roots = h.roots
  symbols : l.symbols = h.symbols
  chains : l.Chains h.currentEnv [(h.currentEnv, bs.bind f c)]
  kept : ∀ u d, h.Reachable [e] u → h.object? u = some d → d.type ≠ .environment →
    l.object? u = some d
  used : l.usedWith [] ≤ h.usedWith [e] + 3
  closure : ∃ params body, l.object? c = some (.closure h.currentEnv params body) ∧
    l.Unfolds (.form [.word "x"]) params ∧ l.Unfolds (.form [.counting]) body

/-- The closure and the two pairs that bind it have come into use. -/
lemma usedWith_le_of_prepends {p : Heap} {c : Handle} (hadd : h.Adds [e] [] p)
    (hpk : p.Adds [] [c] k) (hkl : k.Prepends h.currentEnv f c l) (hf : k.Reachable [] f)
    (hroots : ∀ u ∈ h.roots.toList, u ∈ l.roots.toList) :
    ({ l with roots := h.roots, currentEnv := h.currentEnv } : Heap).usedWith [] ≤
      h.usedWith [e] + 3 := by
  obtain ⟨c₁, c₂, hcases⟩ := hkl.exists_cases hf
  have hcur : p.currentEnv = h.currentEnv := hadd.currentEnv
  have hlcur : l.currentEnv = h.currentEnv := hkl.frame.currentEnv.trans (hpk.currentEnv.trans hcur)
  have hx : ∀ v ∈ [h.currentEnv, c], p.Reachable [] v ∨ v ∈ [c] := by
    simp [← hcur, show p.Reachable [] p.currentEnv from .anchor .current]
  have hnew : ∀ u, h.Collectible u.index →
      ({ l with roots := h.roots, currentEnv := h.currentEnv } : Heap).Reachable [] u →
        h.Reachable [e] u ∨ u ∈ [c₁, c₂, c] := by
    intro u _ hu
    have hlu : l.Reachable [] u := (reachable_of_switch (h := { l with roots := h.roots })
      (hlcur ▸ .anchor .current) hu).of_fewer hroots
    rcases hcases u hlu with hu | hu
    · rcases hpk.cases_of_reachable hx hu with hu | hu
      · exact .inl ((hadd.cases_of_reachable (by simp) hu).resolve_right (by simp))
      · exact .inr (by simp [List.mem_singleton.mp hu])
    · exact .inr (by rcases List.mem_pair.mp hu with rfl | rfl <;> simp)
  exact usedWith_le_of_cases (k := { l with roots := h.roots, currentEnv := h.currentEnv })
    (hkl.frame.capacity.trans (hpk.capacity.trans hadd.capacity)) hnew

/-- A closure has been made and bound. -/
lemma defines_of_prepends {p : Heap} {c : Handle} (hadd : h.Adds [e] [] p) (her : p.Reachable [] e)
    (hch : h.Chains h.currentEnv [(h.currentEnv, bs)])
    (hroots : ∀ u ∈ h.roots.toList, u ∈ p.roots.toList)
    (hsym : h.findSymbol "f" = some f) (hbs : bs.lookup f = none) (hpk : p.Adds [] [c] k)
    (hkroots : k.roots = p.roots) (hkl : k.Prepends p.currentEnv f c l)
    (hc : ∃ params body, k.object? c = some (.closure p.currentEnv params body) ∧
      p.Reachable [] params ∧
      p.Reachable [] body ∧ p.Unfolds (.form [.word "x"]) params ∧
      p.Unfolds (.form [.counting]) body) :
    h.Defines bs e f c { l with roots := h.roots, currentEnv := h.currentEnv } := by
  obtain ⟨params, body, hc, hrp, hrb, hparams, hbody⟩ := hc
  have hcur : p.currentEnv = h.currentEnv := hadd.currentEnv
  rw [hcur] at hkl hc
  have hpe : ∀ {v}, h.Reachable [e] v → p.Reachable [] v :=
    fun hv => hadd.toSaves.reachable (by simpa using her) hv
  have henv : p.Reachable [] h.currentEnv := hcur ▸ .anchor .current
  have hchk : k.Chains h.currentEnv [(h.currentEnv, bs)] :=
    (hch.saved hadd.toSaves (.anchor .current)).saved hpk.toSaves henv
  obtain ⟨names, values, hf, hz⟩ := hchk.alone
  -- nothing but the frame has changed
  have hkept : ∀ {u d}, k.Reachable [h.currentEnv, c] u → k.object? u = some d →
    d.type ≠ .environment →
      l.object? u = some d := by
    intro u d hu hd ht
    refine (hkl.kept u hu ?_).trans hd
    rintro rfl
    obtain rfl := Option.some.inj (hf.symm.trans hd)
    exact ht rfl
  have hpkept : ∀ u d, p.Reachable [] u → p.object? u = some d → d.type ≠ .environment →
    l.object? u = some d :=
    fun u d hu hd => hkept (.of_nil (hpk.toSaves.reachable (by simp) hu)) ((hpk.kept u hu).trans hd)
  have hsymbols : l.symbols = p.symbols := hkl.frame.symbols.trans hpk.symbols_eq
  have hlroots : ∀ u ∈ h.roots.toList, u ∈ l.roots.toList := fun u hu => by
    rw [hkl.frame.roots, hkroots]
    exact hroots u hu
  have hlive : l.isLive h.currentEnv = true := by
    obtain ⟨_, _, _, _, _, -, hframe, -⟩ := hkl.binding
    exact isLive_of_object? hframe
  have hchl : l.Chains h.currentEnv [(h.currentEnv, bs.bind f c)] := by
    have hchl := hkl.chains (fun q ns ws bs' hq hz' => ?_) hchk (.of_extra (by simp))
    · simpa [Chain.bind] using hchl
    · obtain ⟨-, rfl, rfl⟩ := Datum.frame.inj (Option.some.inj (hf.symm.trans hq))
      rw [hz'.unique hz, hbs]
  refine ⟨(hkl.wellFormed.setRoots fun u hu => hkl.wellFormed.root u (hlroots u hu)).switchEnv
    hlive, hkl.frame.capacity.trans (hpk.capacity.trans hadd.capacity),
    hkl.frame.rootSlots.trans (hpk.rootSlots.trans hadd.rootSlots),
    hkl.frame.baseEnv.trans (hpk.baseEnv.trans hadd.baseEnv), rfl, rfl,
    hsymbols.trans hadd.symbols_eq, hchl.congr (.single h.currentEnv) fun _ _ => rfl,
    fun u d hu hd => hpkept u d (hpe hu) ((hadd.kept u hu).trans hd), ?_, params, body, ?_, ?_, ?_⟩
  · exact usedWith_le_of_prepends hadd hpk hkl (hpk.wellFormed.reachable_symbol (hpk.symbols _ _
      (hadd.symbols _ _ hsym))) hlroots
  · exact hkept (.of_extra (by simp)) hc (by simp [Datum.type])
  · exact hparams.congr (k := l) hrp hpkept fun name s hs => by rwa [findSymbol, hsymbols]
  · exact hbody.congr (k := l) hrb hpkept fun name s hs => by rwa [findSymbol, hsymbols]

/-- The definition makes a closure and two pairs. -/
lemma definition_peaks (hw : h.WellFormed) (hs : h.HasSentinels)
    (hch : h.Chains h.currentEnv [(h.currentEnv, bs)])
    (hk : ∀ p ∈ ctx.keywords.table, h.findSymbol p.1 = some p.2) (he : h.Unfolds .definition e)
    (hl : h.isLive e = true) (hsym : h.findSymbol "f" = some f) (hbs : bs.lookup f = none)
    (hroom : h.roots.size + 5 ≤ h.rootSlots) (hcap : h.usedWith [e] + 3 ≤ h.capacity) {ε : Type} :
    (Evaluator.eval ctx (b + 3) e h : Outcome ε Handle).Peaks h.rootSlots (h.roots.size + 4)
    (h.Defines bs e f) := by
  have hadd : h.Adds [e] [] { h with roots := (h.roots.push h.currentEnv).push e } :=
    ((Adds.refl hw (by simpa using hl)).push (.inl (.anchor .current)) hw.current).push
      (.inl (.of_extra List.mem_cons_self)) hl
  set p : Heap := { h with roots := (h.roots.push h.currentEnv).push e } with hp
  have hsize : p.roots.size = h.roots.size + 2 := by simp [hp]
  have hslot : p.roots[h.roots.size + 1]? = some e := getElem?_push_push _ _ _
  have her : p.Reachable [] e := .of_slot hslot
  have hpr : ∀ {v}, p.Reachable [] v → h.Reachable [e] v := fun hv =>
    (hadd.cases_of_reachable (by simp) hv).resolve_right (by simp)
  have hhp : ∀ {v}, h.Reachable [e] v → p.Reachable [] v :=
    fun hv => hadd.toSaves.reachable (by simpa using her) hv
  have hused : p.usedWith [] ≤ h.usedWith [e] := usedWith_le_of_reachable rfl fun _ _ hv => hpr hv
  have hcapp : p.capacity = h.capacity := rfl
  have hslots : p.rootSlots = h.rootSlots := rfl
  have hchp : p.Chains p.currentEnv [(p.currentEnv, bs)] :=
    hch.saved hadd.toSaves (.anchor .current)
  obtain ⟨head, operands, hd, hhead, target, rest, hd', htarget, expr, nil, hd'', hexpr, rfl⟩ := he
  obtain rfl : ctx.keywords.definition = head :=
    Option.some.inj
      ((hk ("define", ctx.keywords.definition) (by simp [Keywords.table])).symm.trans hhead)
  obtain rfl : f = target := Option.some.inj (hsym.symm.trans htarget)
  have hrest : p.Reachable [] rest := (her.tail (h := p) hd).tail (h := p) hd'
  have hrow : p.Row .emptyList [expr] [rest] rest := .cons hd'' .nil
  obtain ⟨params, body, hexpr, hparams, hbody⟩ :=
    isLambda_of_unfolds hadd.wellFormed hk (h := p) hexpr
  obtain ⟨hrp, hrb⟩ := hexpr.reachable (hrest.head (h := p) hd'')
  have hlacks : p.Lacks p.currentEnv f := by
    obtain ⟨names, values, hf, hz⟩ := hchp.alone
    exact lacks_of_lookup hadd.wellFormed.toClosed hf hz hbs
  have hdepth : h.roots.size + 4 = max (h.roots.size + 2) (p.roots.size + 2) := by omega
  rw [hdepth]
  -- the closure is made while the frame and the definition are held, and then it is bound
  refine peaks_eval rfl hch.isFrame
    (peaks_loop_done hslot ((definition_step_peaks (b := b + 1) hadd.wellFormed hs hlacks
    (hw.forms hk).1 (hw.forms hk).2.1 hd hd' hrow hexpr her hsym (by omega) (by omega)).mono
      fun st l hl => ?_))
  obtain ⟨c, k, rfl, hc, hpk, hroots, hkl⟩ := hl
  refine ⟨c, rfl, ?_⟩
  have hlroots : l.roots = (h.roots.push h.currentEnv).push e := hkl.frame.roots.trans hroots
  have hpop : l.roots.pop.pop = h.roots := by rw [hlroots, Array.pop_push, Array.pop_push]
  have hdefines : h.Defines bs e f c { l with roots := h.roots, currentEnv := h.currentEnv } :=
    defines_of_prepends hadd her hch (by simp +contextual [hp]) hsym hbs hpk hroots hkl
      ⟨params, body, hc, hrp, hrb, hparams, hbody⟩
  rw [hpop]
  refine ⟨by simp [hlroots], ?_, hdefines⟩
  obtain ⟨parent, names, values, c₁, c₂, -, hframe, -⟩ := hkl.binding
  exact ⟨_, _, _, hframe⟩

/-- After the definition the procedure is there. -/
lemma Defines.counter {c : Handle} (hd : h.Defines bs e f c l) (hw : h.WellFormed)
    (hs : h.HasSentinels)
    (hk : ∀ p ∈ ctx.keywords.table, h.findSymbol p.1 = some p.2) (hsym : h.findSymbol "f" = some f)
    (he : h.Equips bs done) (hall : ∀ b, b ∈ done) :
    ∃ params body, l.Counter ctx l.currentEnv params body := by
  obtain ⟨params, body, hc, hparams, hbody⟩ := hd.closure
  have hfind : ∀ {name v}, h.findSymbol name = some v → l.findSymbol name = some v := fun hv => by
    rwa [findSymbol, hd.symbols]
  have hbuiltin : ∀ b : Builtin, b.name ∉ ctx.keywords.table.map (·.1) → b.name ≠ "f" →
      ∃ v name, l.Offers ctx l.currentEnv b.name v ∧
      l.object? v = some (.foreign name (.builtin b)) := by
    intro b hb hbf
    obtain ⟨symbol, v, hsymbol, hv, hcol, hobj⟩ := he.bound b (hall b)
    have hne := hw.symbol_ne hsymbol hsym hbf
    have hreach : h.Reachable [e] v := .of_not_collectible (lt_size_of_object? hobj) hcol
    refine ⟨v, b.name, ⟨_, symbol, hd.currentEnv ▸ hd.chains, hfind hsymbol,
      hw.notMem_heads hk hsymbol hb, ?_⟩, hd.kept v _ hreach hobj (by simp [Datum.type])⟩
    rw [Chain.bound?_cons, Bindings.lookup_bind, if_neg hne, hv]
    rfl
  have hnames : ∀ name ∈ ["f", "=", "+"], name ∉ ctx.keywords.table.map (·.1) := by
    simp [Keywords.table]
  have hif := hk ("if", ctx.keywords.conditional) (by simp [Keywords.table])
  refine ⟨params, body, fun v hv => ?_, hparams, hbody, hfind hif, (hw.forms hk).2.2,
    ⟨c, ⟨_, f, hd.currentEnv ▸ hd.chains, hfind hsym,
      hw.notMem_heads hk hsym (hnames "f" (by simp)), ?_⟩, hd.currentEnv ▸ hc⟩,
    hbuiltin (.compare .equal) (hnames "=" (by simp)) (by decide),
      hbuiltin .add (hnames "+" (by simp)) (by decide)⟩
  · have htypes : ∀ d ∈ sentinels, d.type ≠ .environment := by decide
    obtain ⟨d, hget⟩ : ∃ d, sentinels[v.index]? = some d := ⟨_, List.getElem?_eq_getElem hv⟩
    rw [hget]
    exact hd.kept v _ (.sentinel hv) ((hs v hv).trans hget) (htypes d (List.mem_of_getElem? hget))
  · rw [Chain.bound?_cons, Bindings.lookup_bind, if_pos rfl]
    rfl

/-! ## The machine -/

/-- A machine at rest on which the procedure has been defined.  No more than `n` cells are in
use. -/
structure Prepared (h : Heap) (ctx : Context) (s : Sizing) (n : Nat) : Prop where
  wellFormed : h.WellFormed
  capacity : h.capacity = s.arenaCells
  rootSlots : h.rootSlots = s.rootSlots
  roots : h.roots = #[]
  used : h.usedWith [] ≤ n
  counter : ∃ params body, h.Counter ctx h.currentEnv params body

/-- The definition has been evaluated while an object was held that is always there. -/
lemma Defines.prepared {c : Handle} (hd : h.Defines bs e f c l) (hw : h.WellFormed)
    (hs : h.HasSentinels) (hk : ∀ p ∈ ctx.keywords.table, h.findSymbol p.1 = some p.2)
    (hsym : h.findSymbol "f" = some f) (he : h.Equips bs done) (hall : ∀ b, b ∈ done)
    (hcap : h.capacity = s.arenaCells) (hslots : h.rootSlots = s.rootSlots)
    (hused : h.usedWith [e] ≤ n) :
    ({ l with roots := #[] } : Heap).Prepared ctx s (n + 3) := by
  obtain ⟨params, body, hC⟩ := hd.counter hw hs hk hsym he hall
  have hle : ({ l with roots := #[] } : Heap).usedWith [] ≤ l.usedWith [] :=
    usedWith_le_of_reachable rfl fun _ _ hv => Reachable.of_fewer hv (by simp)
  have hlused := hd.used
  exact ⟨hd.wellFormed.setRoots (by simp), hd.capacity.trans hcap, hd.rootSlots.trans hslots, rfl,
    by omega, params, body, hC.congr (.single l.currentEnv) (fun _ _ => rfl) fun _ _ => id⟩

/-- The root stack may have another length. -/
lemma Prepared.resize (hp : h.Prepared ctx s n) (slots : Nat) :
    ({ h with rootSlots := slots } : Heap).Prepared ctx { s with rootSlots := slots } n := by
  obtain ⟨hw, hcap, -, hroots, hused, params, body, hC⟩ := hp
  refine ⟨⟨⟨hw.layout, hw.outside, hw.child, hw.root, hw.base, hw.current⟩,
    hw.free.imp fun _ hl => ⟨hl.list, hl.nodup, hl.mem_iff, hl.count⟩, hw.table⟩, hcap, rfl, hroots,
      ?_, params, body,
    hC.congr (.single h.currentEnv) (fun _ _ => rfl) fun _ _ => id⟩
  have hle : ({ h with rootSlots := slots } : Heap).usedWith [] ≤ h.usedWith [] :=
    usedWith_le_of_reachable rfl fun _ _ hv => ?_
  · exact hle.trans hused
  exact hv.transport (k := h) rfl rfl rfl rfl (fun _ hu => .anchor (.root hu)) fun _ _ hd hu _ hc =>
    .child hu hd hc

end Heap

/-! ## The texts -/

namespace Tree

lemma symbolName_word : ∀ name ∈ ["define", "f", "lambda", "x", "if", "=", "+"],
    SymbolName name := by
  have hword : ∀ name ∈ ["define", "f", "lambda", "x", "if", "=", "+"], name ≠ "" ∧
      (∀ b ∈ Text.bytes name, Byte.isDelimiter b = false) ∧
      (Text.bytes name).head? ≠ some Byte.hash ∧
      Number.looksNumeric (Text.bytes name) = false ∧ name ≠ "." := by decide +kernel
  exact fun name hn =>
    ⟨(hword name hn).1, (hword name hn).2.1, (hword name hn).2.2.1, (hword name hn).2.2.2.1,
      (hword name hn).2.2.2.2⟩

lemma readable_definition : definition.Readable := by
  simp [definition, procedure, counting, isDone, lesser, form, list, word, Readable,
    Literal.Readable, symbolName_word]

lemma readable_call (n : Int64) : (call n).Readable := by
  simp [call, form, list, word, Readable, Literal.Readable, symbolName_word]

lemma text_definition : definition.text =
    "(define f (lambda (x) (if (= x 0) 0 (f (+ x -1)))))" := by decide +kernel

lemma text_call (n : Int64) : (call n).text = "(f " ++ toString n.toInt ++ ")" := by
  have hopen : "(f" ++ " " = "(f " := by decide
  simp [call, form, list, word, text, tailText, Literal.text, ← String.append_assoc, hopen]

end Tree

/-! ## Running the texts -/

namespace Interpreter

/-- The definition is run in five root slots. -/
lemma definition_peaks (hr : h.Rests s bs n) (he : h.Equips bs done) (hall : ∀ b, b ∈ done)
    (hk : ∀ p ∈ ctx.keywords.table, h.findSymbol p.1 = some p.2) (hcells : n + 25 ≤ s.arenaCells)
    (hslots : 9 ≤ s.rootSlots) :
    (run ctx (b + 3) Tree.definition.text h).Peaks h.rootSlots 5 fun _ k =>
      k.Prepared ctx s (n + 25) := by
  have hcount : Tree.definition.cells = 22 := by decide
  have hdepth : Tree.definition.depth = 5 := by decide
  have hsize : h.roots.size = 0 := by rw [hr.roots]; rfl
  have hused := hr.used
  have hcap := hr.capacity
  have hhslots := hr.rootSlots
  refine run_peaks hr.wellFormed Tree.readable_definition (by omega) (by omega) (by omega)
    fun x k made hx hb hroots => ?_
  have hkroots : k.roots.size = 1 := by rw [hroots, Array.size_push, hsize]
  have hk' : ∀ p ∈ ctx.keywords.table, k.findSymbol p.1 = some p.2 :=
    fun p hp => hx.symbols _ _ (hk p hp)
  have hek : k.Equips bs done := Equips.extends (h := { h with roots := h.roots.push .emptyList })
    ⟨he.bound, he.only⟩ hx
  have hsentinels : k.HasSentinels := fun v hv =>
    (hx.kept v (.sentinel hv)).trans (hr.hasSentinels v hv)
  have hch : k.Chains k.currentEnv [(k.currentEnv, bs)] := by
    have hcur : k.currentEnv = h.baseEnv := hx.currentEnv.trans hr.current
    rw [hcur]
    exact (hr.chains.congr (.single h.baseEnv) fun _ _ => rfl :
      ({ h with roots := h.roots.push .emptyList } : Heap).Chains h.baseEnv [(h.baseEnv, bs)]).congr
        (.anchor .base) hx.kept
  have hkused : k.usedWith [x] ≤ n + 22 := by
    have hle : k.usedWith [x] ≤ _ :=
      hx.usedWith_le (by simpa using hb.known hx (List.Subset.refl made))
    have hnil := usedWith_push_emptyList h
    have hlength := hb.length
    omega
  obtain ⟨f, hsym⟩ : ∃ f, k.findSymbol "f" = some f := by
    obtain ⟨_, _, _, _, f, _, _, hf, _⟩ := hb.unfolds
    exact ⟨f, hf⟩
  -- no built-in procedure has this name
  have hlookup : bs.lookup f = none := by
    rw [Option.eq_none_iff_forall_ne_some]
    intro v hv
    obtain ⟨builtin, -, hname⟩ := hek.only f v hv
    have hnames : ∀ b ∈ Builtin.all, b.name ≠ "f" := by decide +kernel
    exact hx.wellFormed.symbol_ne hname hsym (hnames builtin builtin.mem_all) rfl
  have hkcap : k.capacity = s.arenaCells := hx.capacity.trans hcap
  have hkslots : k.rootSlots = s.rootSlots := hx.rootSlots.trans hhslots
  have hpeaks := Heap.definition_peaks (b := b)
    (ε := Failure) hx.wellFormed hsentinels hch hk' hb.unfolds
    (hb.isLive hx.wellFormed) hsym hlookup (by omega) (by omega)
  rw [hkroots, hkslots, ← hhslots] at hpeaks
  refine hpeaks.mono fun c l hl => ⟨hl.roots, ?_, ?_⟩
  · obtain ⟨params, body, hc, -⟩ := hl.closure
    exact ⟨_, hc, by simp [Datum.type]⟩
  · rw [hr.roots]
    exact hl.prepared hx.wellFormed hsentinels hk' hsym hek hall hkcap hkslots hkused

/-- A call is run in nine root slots, whatever the count. -/
lemma call_peaks {count : Int64} (hp : h.Prepared ctx s n) (hcells : n + 13 ≤ s.arenaCells)
    (hslots : 5 ≤ s.rootSlots) (hn : 0 < count) :
    (run ctx (budget + 9 + 3 * count.toInt.toNat) (Tree.call count).text h).Peaks h.rootSlots 9
      fun v k => k.object? v = some (.int 0) := by
  have hcount : (Tree.call count).cells = 3 := rfl
  have hdepth : (Tree.call count).depth = 1 := rfl
  have hsize : h.roots.size = 0 := by rw [hp.roots]; rfl
  have hused := hp.used
  have hcap := hp.capacity
  have hhslots := hp.rootSlots
  refine run_peaks hp.wellFormed (Tree.readable_call count) (by omega) (by omega) (by omega)
    fun x k made hx hb hroots => ?_
  have hkroots : k.roots.size = 1 := by rw [hroots, Array.size_push, hsize]
  have hkcap : k.capacity = h.capacity := hx.capacity
  have hkslots : k.rootSlots = h.rootSlots := hx.rootSlots
  have hkused : k.usedWith [x] ≤ n + 3 := by
    have hle : k.usedWith [x] ≤ _ :=
      hx.usedWith_le (by simpa using hb.known hx (List.Subset.refl made))
    have hnil := usedWith_push_emptyList h
    have hlength := hb.length
    omega
  have hC : ∃ params body, k.Counter ctx k.currentEnv params body := by
    obtain ⟨params, body, hC⟩ := hp.counter
    have hcur : k.currentEnv = h.currentEnv := hx.currentEnv
    rw [hcur]
    exact ⟨params, body, (hC.congr (.single h.currentEnv) (fun _ _ => rfl)
      fun _ _ => id : ({ h with roots := h.roots.push .emptyList } : Heap).Counter ctx h.currentEnv
      params body).congr
        (.anchor .current) hx.kept hx.symbols⟩
  obtain ⟨params, body, hC⟩ := hC
  have hpeaks := hC.eval_peaks budget (ε := Failure) hx.wellFormed
    (hb.isLive hx.wellFormed) hb.unfolds
    hn (by omega)
  rw [hkroots, hkslots] at hpeaks
  refine hpeaks.mono fun v l hl => ?_
  obtain ⟨hv, hlroots, -⟩ := hl
  exact ⟨hlroots, ⟨_, hv, by simp [Datum.type]⟩, hv⟩

end Interpreter

/-- However many turns an evaluation takes, at the start of each of them the root stack has one slot
more than before the evaluation.  This slot holds what the turn is about, and what follows is the
outcome of the whole.

So on a machine of the standard sizes the procedure that counts down comes to zero from every
positive integer.  The run takes nine root slots whatever the integer is: with fewer the root stack
overflows, and with these it does not. -/
theorem tail_calls_bounded :
    (∀ (ctx : Context) (n : Nat) (expr : Handle) (h : Heap), HostBalanced ctx.host →
      h.roots.size < h.rootSlots →
      Evaluator.runWith (Evaluator.loop ctx (n + 1)) expr h =
          ensuring (fun _ => (Activation.enter n expr h).outcome ctx)
            (do let _ ← release ⟨h.roots.size⟩)
            { h with roots := h.roots.push expr } ∧
        ∀ z, Activation.Leads ctx (.enter n expr h) z →
          (Activation.enter n expr h).outcome ctx = z.outcome ctx ∧ z.slot = ⟨h.roots.size⟩ ∧
            ∃ v, Activation.Concerns ctx n expr h z v ∧ z.heap.roots = h.roots.push v) ∧
    ∀ audited : Bool, ∃ ctx h, Interpreter.install #[] { Heap.ofSizing .standard with audited } =
      .ok ctx h ∧
      ∀ budget, ∃ f k,
        Interpreter.run ctx (budget + 3) "(define f (lambda (x) (if (= x 0) 0 (f (+ x -1)))))" h =
          .ok f k ∧
        ∀ (n : Int64) (budget : Nat), 0 < n →
          (∃ v l, Interpreter.run ctx (budget + 9 + 3 * n.toInt.toNat)
            ("(f " ++ toString n.toInt ++ ")") k = .ok v l ∧
            l.object? v = some (.int 0)) ∧
          ∀ slots, 5 ≤ slots →
            (Interpreter.run ctx (budget + 9 + 3 * n.toInt.toNat) ("(f " ++ toString n.toInt ++ ")")
              { k with rootSlots := slots }).Peaks slots 9 fun v l => l.object? v =
                some (.int 0) := by
  refine ⟨fun ctx n expr h hb hroom =>
    ⟨Activation.runWith_apply hroom n expr, fun z hz => ⟨hz.outcome_eq, hz.roots_eq hb⟩⟩,
    fun audited => ?_⟩
  obtain ⟨ctx, bs, h, hinstall, hr, he, hk⟩ :=
    exists_install .standard audited (by decide) (by decide)
  refine ⟨ctx, h, hinstall, fun budget => ?_⟩
  have hdefinition := Interpreter.definition_peaks (b := budget) hr he
    (fun b => by simp [b.mem_all]) hk (by decide)
    (by decide)
  have hslots : 5 ≤ h.rootSlots := by
    rw [hr.rootSlots]
    decide
  obtain ⟨f, k, hrun, hp⟩ := hdefinition.exists_ok hslots
  rw [Tree.text_definition] at hrun
  refine ⟨f, k, hrun, fun n budget hn => ?_⟩
  rw [← Tree.text_call]
  refine ⟨(Interpreter.call_peaks hp (by decide) (by decide) hn).exists_ok ?_, fun slots hslots =>
    Interpreter.call_peaks (hp.resize slots)
      (show 62 + 25 + 13 ≤ Sizing.standard.arenaCells by decide) hslots hn⟩
  rw [hp.rootSlots]
  decide

/-- A name that is otherwise free is the keyword of sequences. -/
def beginning : Context :=
  { quoting with keywords := { quoting.keywords with sequence := ⟨15⟩, unquoteSplicing := ⟨16⟩ } }

/-- The value of `(begin x)` is found in the third turn, and the count of three comes to zero. -/
theorem tail_calls_bounded_beginning :
    HostBalanced beginning.host ∧ templated.roots.size < templated.rootSlots ∧
    (∃ z v, Activation.Leads beginning (.enter 2 ⟨5⟩ templated) z ∧ z.budget = 0 ∧
      Activation.Concerns beginning 2 ⟨5⟩ templated z v ∧ z.heap.roots = #[⟨4⟩].push v) ∧
    (0 : Int64) < 3 ∧ ∃ ctx h f k v l,
      Interpreter.install #[] { Heap.ofSizing .standard with audited := true } = .ok ctx h ∧
      Interpreter.run ctx 3 "(define f (lambda (x) (if (= x 0) 0 (f (+ x -1)))))" h = .ok f k ∧
      Interpreter.run ctx 18 "(f 3)" k = .ok v l ∧ l.object? v = some (.int 0) := by
  have hhost : HostBalanced beginning.host := by simp [HostBalanced, beginning, quoting]
  have hroom : templated.roots.size < templated.rootSlots := by decide
  have hfirst : Activation.Leads beginning (.enter 2 ⟨5⟩ templated) (.enter 2 ⟨5⟩ templated) :=
    .refl
  have hz := (hfirst.again rfl rfl).again rfl rfl
  obtain ⟨-, v, hv, hroots⟩ := ((tail_calls_bounded.1 _ _ _ _ hhost hroom).2 _ hz).2
  have hpos : (0 : Int64) < 3 := by decide
  obtain ⟨ctx, h, hinstall, hrun⟩ := tail_calls_bounded.2 true
  obtain ⟨f, k, hdefine, hcall⟩ := hrun 0
  obtain ⟨⟨v, l, hcall, hzero⟩, -⟩ := hcall 3 0 hpos
  exact ⟨hhost, hroom, ⟨_, _, hz, rfl, hv, hroots⟩, hpos, ctx, h, f, k, v, l, hinstall, hdefine,
    hcall, hzero⟩

end ArenaScheme
