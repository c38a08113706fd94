import MiddleEnd.Proofs.Allocation.FirstFit
import MiddleEnd.Proofs.Allocation.Session
import MiddleEnd.Proofs.Liveness.NextUse

/-! Allocating a function once more. Each phase resumes from what the one before it left: liveness from sets that
solve the flow graph, pinning and restricting from operands that have gone as far as these phases take them, and
colouring from values that all have a place. So a second run finds nothing to do. -/

namespace MiddleEnd

/-! ### Liveness that is known -/

theorem Code.setLiveOuts_eq_self {c : Code} {first : Nat} {sets : List LiveSet}
    (h : ∀ (k : Nat) s z, sets[k]? = some s → c.instrs[first + k]? = some z → z.liveOut = s) :
    c.setLiveOuts first sets = c := by
  have hget : ∀ i : Nat, (c.setLiveOuts first sets).instrs[i]? = c.instrs[i]? := by
    intro i
    by_cases hi : i < first ∨ first + sets.length ≤ i
    · exact setLiveOuts_outside c first sets hi
    · obtain ⟨k, rfl⟩ : ∃ k, i = first + k := ⟨i - first, by omega⟩
      have hk : sets[k]? = some _ := List.getElem?_eq_getElem (by omega)
      cases hz : c.instrs[first + k]? with
      | none =>
        have hsize := (setLiveOuts_alike c first sets).size
        exact Array.getElem?_eq_none (hsize ▸ Array.getElem?_eq_none_iff.mp hz)
      | some z =>
        rw [setLiveOuts_inside c first sets hk hz, ← h k _ z hk hz]
  exact congrArg (fun is => { c with instrs := is }) (Array.ext_getElem? hget)

/-- Everything that liveness finds out about the flow graph `g` of the table `c` is noted in the two already. -/
structure Code.Knows (c : Code) (g : FlowGraph) : Prop where
  holds : ∀ b ∈ g.blocks, c.holds b = true
  pass : g.pass = g
  sets : ∀ k b, g.block? k = some b → (b.uses, b.defs) = localSets c.operands (c.slice b.first b.last)
  noted : ∀ k b, g.block? k = some b → c.noted b = b
  liveOut : ∀ k b, g.block? k = some b → ∀ i z, b.first ≤ i → i ≤ b.last → c.instrs[i]? = some z →
    z.liveOut = c.liveAfter b.last b.liveOut i

namespace Code.Knows

variable {c : Code} {g : FlowGraph}

theorem withLocalSets (h : c.Knows g) : c.withLocalSets g = g := by
  refine congrArg (fun d => { g with graph := d }) (Digraph.map_eq_self fun k b hk => ?_)
  rw [← h.sets k b hk]

theorem annotate (h : c.Knows g) (k : Nat) : Code.annotate (c, g) k = .ok (c, g) := by
  cases hk : g.block? k with
  | none => simp only [Code.annotate, hk]
  | some b =>
    have hbare : g.bare = (c.withLocalSets g).bare := by rw [h.withLocalSets]
    rw [annotate_eq hk (scan_of_fixed hbare h.pass hk).1]
    have hcode : c.setLiveOuts b.first
        (Scan.run c.operands b.first (c.slice b.first b.last) b.liveOut).liveOuts = c := by
      refine setLiveOuts_eq_self fun j s z hs hz => ?_
      have hj : j < (c.slice b.first b.last).length := by
        rw [← Scan.length_liveOuts c.operands b.first _ b.liveOut]
        exact (List.getElem?_eq_some_iff.mp hs).1
      have hlast : b.first + j ≤ b.last := by
        have hslice := List.getElem?_eq_getElem hj
        rw [slice_getElem?] at hslice
        split at hslice
        case isTrue hle => exact hle
        case isFalse => cases hslice
      rw [Scan.liveOuts_getElem? _ _ _ _ hj, drop_slice] at hs
      rw [h.liveOut k b hk _ z (Nat.le_add_right _ _) hlast hz, ← Option.some.inj hs]
      rfl
    have hflow : (g.modify k fun d => { d with
        nextUse := (Scan.run c.operands b.first (c.slice b.first b.last) b.liveOut).nextUse }) = g := by
      refine congrArg (fun d => { g with graph := d }) (Digraph.modify_eq_self fun d hd => ?_)
      obtain rfl : b = d := Option.some.inj (hk.symm.trans hd)
      exact h.noted k b hk
    rw [hcode, hflow]

theorem analyze (h : c.Knows g) : c.analyze g = .ok ⟨1, c, g⟩ := by
  have hends : g.EndsIn 1 g.pass := .last (by rw [h.pass])
  rw [h.pass] at hends
  have hscans : g.graph.ids.foldlM Code.annotate (c, g) = .ok (c, g) := by
    induction g.graph.ids with
    | nil => rfl
    | cons k ks ih => exact Except.bind_eq_ok.mpr ⟨_, h.annotate k, ih⟩
  unfold Code.analyze
  rw [if_neg (by simpa using h.holds), h.withLocalSets, FlowGraph.solve_eq_some_iff.mpr hends]
  exact Except.bind_eq_ok.mpr ⟨_, hscans, rfl⟩

theorem of_like (h : c.Knows g) {a : Arena} (ha : c.operands.Like a) : Knows { c with operands := a } g := by
  have hvalue : a.isValue = c.operands.isValue := funext ha.isValue
  refine ⟨h.holds, h.pass, fun k b hk => ?_, fun k b hk => ?_, fun k b hk i z hf hl hz => ?_⟩
  · exact (h.sets k b hk).trans (localSets_congr hvalue _).symm
  · refine Eq.trans ?_ (h.noted k b hk)
    exact congrArg (fun s => { b with nextUse := s.nextUse }) (Scan.run_congr hvalue _ _ _)
  · exact (h.liveOut k b hk i z hf hl hz).trans (congrArg Scan.live (Scan.run_congr hvalue _ _ _).symm)

end Code.Knows

theorem Scanned.block_before {c d : Code} {g f : FlowGraph} {ks : List Nat} (hscan : Scanned c g ks d f) {k : Nat}
    {b : Block} (hk : f.block? k = some b) : ∃ e, g.block? k = some e ∧ b.unnoted = e.unnoted := by
  obtain ⟨e, he⟩ := FlowGraph.exists_block (g := g) (hscan.size ▸ FlowGraph.lt_size hk)
  obtain ⟨b', hb', hsame⟩ := hscan.block he
  obtain rfl : b = b' := Option.some.inj (hk.symm.trans hb')
  exact ⟨e, he, hsame⟩

theorem Scanned.solved {c d : Code} {ref g f : FlowGraph} {ks : List Nat} (hs : FlowGraph.Solved ref g)
    (hscan : Scanned c g ks d f) : FlowGraph.Solved f f := by
  have hagree : ref.Agree f := (FlowGraph.agree_of_bare hs.bare_eq).trans hscan.agree
  have hneeds : ∀ x k, ref.Needs x k ↔ f.Needs x k := fun x k => ⟨hagree.needs, hagree.symm.needs⟩
  refine ⟨rfl, fun k x => ?_, fun k b hk x => ?_⟩
  · rw [hscan.entry, hs.entry_iff, hneeds]
  · obtain ⟨e, he, hsame⟩ := hscan.block_before hk
    obtain ⟨-, -, -, -, -, hout, -⟩ := Block.mk.inj hsame
    rw [hout, hs.liveOut_iff k e he, hagree.succ]
    simp only [hneeds]

theorem Code.Alike.localSets_slice {c d : Code} (h : c.Alike d) (first last : Nat) :
    localSets d.operands (d.slice first last) = localSets c.operands (c.slice first last) := by
  rw [h.operands]
  refine localSets_eq_of_map ?_
  -- what an instruction reads and writes does not depend on what is live after it
  have hbare : ∀ is : List Instr, is.map (fun z => (z.reads c.operands, z.writes? c.operands)) =
      (is.map Instr.bare).map fun z => (z.reads c.operands, z.writes? c.operands) := by
    intro is
    rw [List.map_map]
    rfl
  rw [hbare, h.slice_map_bare, ← hbare]

theorem Routine.Ready.knows {c : Code} {r : Routine} (hr : r.Ready c) {an : Analysis}
    (han : c.analyze r.flow = .ok an) : an.code.Knows an.flow := by
  obtain ⟨an', h, han', hs, hscan, hready⟩ := hr.analyze
  obtain rfl : an' = an := Except.ok.inj (han'.symm.trans han)
  have halike := hscan.alike
  refine ⟨fun b hb => ?_, (hscan.solved hs).pass, fun k b hk => ?_, fun k b hk => ?_, fun k b hk i z hf hl hz => ?_⟩
  · obtain ⟨k, hk⟩ := List.mem_iff_getElem?.mp hb
    obtain ⟨-, hle, hlast⟩ : r.first ≤ b.first ∧ b.first ≤ b.last ∧ b.last ≤ r.last := hready.tiles.bounds hk
    have hsize : r.last < an'.code.instrs.size := halike.size ▸ hr.last_lt
    simp only [Code.holds, Bool.and_eq_true, decide_eq_true_eq]
    omega
  · obtain ⟨e, he, hsame⟩ := hscan.block_before hk
    obtain ⟨hbf, hbl, hbu, hbd, -⟩ := Block.mk.inj hsame
    obtain ⟨e', he', hef, hel, heu, hed⟩ := FlowGraph.block?_of_bare hs.bare_eq he
    obtain ⟨b₀, -, rfl⟩ := Option.map_eq_some_iff.mp ((Code.block?_withLocalSets c r.flow k).symm.trans he')
    dsimp only at hef hel heu hed
    rw [halike.localSets_slice, hbu, hbd, hbf, hbl, ← heu, ← hed, hef, hel]
  · -- the next uses that were noted are those of this scan
    obtain ⟨hholds, n, f, hends⟩ := Code.endsIn_of_analyze han
    obtain ⟨an'', han'', hblocks⟩ := Code.analyze_of_endsIn hholds hends
    obtain rfl : an'' = an' := Except.ok.inj (han''.symm.trans han)
    obtain ⟨e, -, rfl⟩ := Option.map_eq_some_iff.mp ((hblocks k).symm.trans hk)
    rw [halike.noted]
    rfl
  · obtain ⟨e, he, hsame⟩ := hscan.block_before hk
    obtain ⟨hbf, hbl, -, -, -, hout, -⟩ := Block.mk.inj hsame
    rw [hscan.inside k (List.mem_range.mpr (FlowGraph.lt_size he)) e he i (hbf ▸ hf) (hbl ▸ hl) z hz, hbl, hout,
      Code.liveAfter, Code.liveAfter, halike.scan]

/-! ### Notes on operands that last -/

/-- `p` is `o` after work on it: it has a place if it had one, is in the frame if it was there, and is kept out of
the registers that it was kept out of. -/
structure Operand.Advances (o p : Operand) : Prop where
  bare : p.bare = o.bare
  resolved : o.isResolved = true → p.isResolved = true
  inFrame : o.inFrame = true → p.inFrame = true
  restricted : ∀ reg ∈ o.restricted, reg ∈ p.restricted

/-- The operands of `b` are those of `a` after work on them. -/
structure Arena.Advances (a b : Arena) : Prop where
  like : a.Like b
  operand : ∀ y o p, a.get? y = some o → b.get? y = some p → o.Advances p

theorem Operand.Advances.refl (o : Operand) : o.Advances o := ⟨rfl, id, id, fun _ => id⟩

theorem Operand.Advances.trans {o p q : Operand} (h : o.Advances p) (k : p.Advances q) : o.Advances q :=
  ⟨k.bare.trans h.bare, k.resolved ∘ h.resolved, k.inFrame ∘ h.inFrame, fun reg => k.restricted reg ∘ h.restricted reg⟩

theorem Operand.advances_place {o : Operand} (ho : o.isResolved = false) (place : Location) :
    o.Advances { o with location := some place } := by
  have hnone : o.location = none := Option.isNone_iff_eq_none.mp (by simpa [isResolved] using ho)
  refine ⟨rfl, fun h => ?_, fun h => ?_, fun _ => id⟩
  · rw [ho] at h
    cases h
  · rw [inFrame, hnone] at h
    cases h

namespace Arena

variable {a b d : Arena}

theorem Like.get?_of_get? (h : a.Like b) {y : OperandId} {p : Operand} (hp : b.get? y = some p) :
    ∃ o, a.get? y = some o := by
  have hy := h y
  rw [hp, Option.map_some] at hy
  obtain ⟨o, ho, -⟩ := Option.map_eq_some_iff.mp hy.symm
  exact ⟨o, ho⟩

theorem Advances.refl (a : Arena) : a.Advances a := by
  refine ⟨.refl a, fun y o p ho hp => ?_⟩
  obtain rfl := Option.some.inj (ho.symm.trans hp)
  exact .refl o

theorem Advances.trans (h : a.Advances b) (k : b.Advances d) : a.Advances d := by
  refine ⟨h.like.trans k.like, fun y o q ho hq => ?_⟩
  obtain ⟨p, hp⟩ := k.like.get?_of_get? hq
  exact (h.operand y o p ho hp).trans (k.operand y p q hp hq)

theorem advances_modify {x : OperandId} {f : Operand → Operand} (hf : ∀ o, a.get? x = some o → o.Advances (f o)) :
    a.Advances (a.modify x f) := by
  have hget := a.get?_modify x f
  refine ⟨fun y => ?_, fun y o p ho hp => ?_⟩
  · rw [hget]
    split
    case isTrue he =>
      cases hy : a.get? y with
      | none => rfl
      | some o => exact congrArg some (hf o (he ▸ hy)).bare
    case isFalse => rfl
  · rw [hget, ho] at hp
    split at hp
    case isTrue he =>
      obtain rfl := Option.some.inj hp
      exact hf o (he ▸ ho)
    case isFalse =>
      obtain rfl := Option.some.inj hp
      exact .refl o

end Arena

theorem Convention.spillParam_cases (conv : Convention) (z : Instr) : (∀ a, conv.spillParam a z = a) ∨
    ∃ x, ∀ a, conv.spillParam a z = if a.isValue x then a.spill x else a := by
  cases hop : z.op with
  | param pos =>
    cases hres : z.result with
    | none => exact Or.inl fun a => by simp only [spillParam, hop, hres]
    | some x =>
      by_cases hpos : conv.args.length ≤ pos
      · exact Or.inr ⟨x, fun a => by simp only [spillParam, hop, hres, hpos, decide_true, Bool.true_and]⟩
      · exact Or.inl fun a => by simp [spillParam, hop, hres, hpos]
  | _ => exact Or.inl fun a => by simp only [spillParam, hop]

/-- A change of the arena that lasts: whatever work comes after it, to make it once more changes nothing. -/
structure Lasting (f : Arena → Arena) : Prop where
  advances : ∀ a : Arena, a.Advances (f a)
  fixed : ∀ a b : Arena, (f a).Advances b → f b = b

namespace Lasting

theorem modify {f : Operand → Operand} (hf : ∀ o : Operand, o.Advances (f o))
    (hfix : ∀ o p : Operand, (f o).Advances p → f p = p) (x : OperandId) : Lasting fun a => a.modify x f := by
  refine ⟨fun a => Arena.advances_modify fun o _ => hf o, fun a b hb => Arena.modify_eq_self fun p hp => ?_⟩
  obtain ⟨q, hq⟩ := hb.like.get?_of_get? hp
  have hchanged := hq
  rw [Arena.get?_modify, if_pos rfl] at hchanged
  obtain ⟨o, -, rfl⟩ := Option.map_eq_some_iff.mp hchanged
  exact hfix o p (hb.operand x _ p hq hp)

theorem comp {f g : Arena → Arena} (hf : Lasting f) (hg : Lasting g) : Lasting fun a => g (f a) where
  advances a := (hf.advances a).trans (hg.advances (f a))
  fixed a b hb := by rw [hf.fixed a b ((hg.advances (f a)).trans hb), hg.fixed (f a) b hb]

theorem foldl {α : Type} {f : Arena → α → Arena} {l : List α} (h : ∀ z ∈ l, Lasting fun a => f a z) :
    Lasting fun a => l.foldl f a := by
  induction l with
  | nil => exact ⟨.refl, fun _ _ _ => rfl⟩
  | cons z l ih => exact (h z (by simp)).comp (ih fun w hw => h w (by simp [hw]))

theorem choose {f : Arena → Arena → Arena} (hf : ∀ d, Lasting (f d)) (hlike : ∀ a b : Arena, a.Like b → f b = f a) :
    Lasting fun a => f a a where
  advances a := (hf a).advances a
  fixed a b hb := by
    rw [hlike a b (((hf a).advances a).like.trans hb.like)]
    exact (hf a).fixed a b hb

theorem spill (x : OperandId) : Lasting fun a => a.spill x := by
  refine modify (f := Operand.spill) (fun o => ⟨rfl, fun _ => rfl, fun _ => rfl, fun _ => id⟩) (fun o p hp => ?_) x
  have hframe : p.inFrame = true := hp.inFrame rfl
  obtain ⟨place, hplace, hp⟩ := (Option.any_eq_true _ _).mp hframe
  cases place with
  | register => cases hp
  | frame => rw [Operand.spill, ← hplace]

theorem restrictAll (regs : List Register) (ids : List OperandId) : Lasting fun a => a.restrictAll regs ids := by
  refine foldl fun x _ =>
    modify (f := (·.restrict regs)) (fun o => ⟨rfl, id, id, fun reg h => ?_⟩) (fun o p hp => ?_) x
  · exact (Arena.mem_restrict o regs reg).mpr (Or.inl h)
  · have hregs : ∀ reg ∈ regs, reg ∈ p.restricted :=
      fun reg h => hp.restricted reg ((Arena.mem_restrict o regs reg).mpr (Or.inr h))
    have hfold : regs.foldl (fun rs r => if r ∈ rs then rs else rs ++ [r]) p.restricted = p.restricted := by
      clear hp
      induction regs with
      | nil => rfl
      | cons r regs ih =>
        rw [List.foldl_cons, if_pos (hregs r (by simp)), ih fun reg h => hregs reg (by simp [h])]
    rw [Operand.restrict, hfold]

variable (conv : Convention)

theorem pin (x : OperandId) : Lasting fun a => a.modify x conv.pinOperand := by
  refine modify (fun o => ?_) (fun o p hp => ?_) x
  · cases hres : o.isResolved with
    | true =>
      rw [Convention.pinOperand, if_pos hres]
      exact .refl o
    | false =>
      rw [Convention.pinOperand, if_neg (by rw [hres]; exact Bool.false_ne_true)]
      cases o.tag?.bind conv.fixed? with
      | none => exact .refl o
      | some place => exact Operand.advances_place hres place
  · cases hres : p.isResolved with
    | true => rw [Convention.pinOperand, if_pos hres]
    | false =>
      have hopen : (conv.pinOperand o).isResolved ≠ true := fun h => by
        rw [hp.resolved h] at hres
        cases hres
      have htag : p.tag? = o.tag? := by
        have hbare : p.bare.tag? = o.bare.tag? := by rw [hp.bare, (conv.notes_pinOperand).bare]
        exact hbare
      have hfixed : o.tag?.bind conv.fixed? = none := by
        cases hplace : o.tag?.bind conv.fixed? with
        | none => rfl
        | some place =>
          refine absurd ?_ hopen
          rw [Convention.pinOperand, hplace]
          split
          case isTrue h => exact h
          case isFalse => rfl
      rw [Convention.pinOperand, htag, hfixed, Option.elim_none, ite_self]

theorem spillParam (z : Instr) : Lasting fun a => conv.spillParam a z := by
  obtain h | ⟨x, h⟩ := conv.spillParam_cases z
  · rw [funext h]
    exact ⟨.refl, fun _ _ _ => rfl⟩
  · rw [funext h]
    refine choose (f := fun d a => if d.isValue x then a.spill x else a) (fun d => ?_) fun a b hab => ?_
    · cases d.isValue x with
      | true => exact spill x
      | false => exact ⟨.refl, fun _ _ _ => rfl⟩
    · rw [hab.isValue]

theorem pinAll (z : Instr) : Lasting fun a => conv.pinAll a z :=
  (foldl fun x _ => pin conv x).comp (spillParam conv z)

theorem restrictInstr (z : Instr) : Lasting fun a => conv.restrictInstr a z := by
  refine choose (f := fun d a => a.restrictAll (conv.clobbers z.op) ((z.divisor? d).toList ++ z.exposed.toList))
    (fun d => restrictAll _ _) fun a b hab => ?_
  rw [Convention.divisor?_of_like hab]

end Lasting

/-! ### Allocation -/

namespace Interference

variable {g : Interference} {registers : List Register}

theorem advances_turns (l : List OperandId) (s : Coloring) :
    s.operands.Advances (l.foldl (g.turn registers) s).operands := by
  induction l generalizing s with
  | nil => exact .refl _
  | cons x l ih =>
    refine Arena.Advances.trans ?_ (ih (g.turn registers s x))
    unfold turn
    split
    case isTrue => exact .refl _
    case isFalse hx =>
      refine Arena.advances_modify fun o ho => Operand.advances_place ?_ _
      rw [Arena.isResolved, ho] at hx
      exact Bool.not_eq_true _ ▸ hx

theorem turns_eq_self {l : List OperandId} {s : Coloring} (h : ∀ x ∈ l, s.operands.isResolved x = true) :
    l.foldl (g.turn registers) s = s := by
  induction l with
  | nil => rfl
  | cons x l ih =>
    rw [List.foldl_cons, turn, if_pos (h x (by simp))]
    exact ih fun y hy => h y (by simp [hy])

end Interference

theorem Lasting.prepare (conv : Convention) (is : List Instr) :
    Lasting fun a => is.foldl conv.restrictInstr (is.foldl conv.pinAll a) :=
  (foldl fun z _ => pinAll conv z).comp (foldl fun z _ => restrictInstr conv z)

/-- Where liveness is known, the work of the phases before colouring is done, and every value has a place, allocation
changes nothing. -/
theorem Routine.allocate_eq_self {conv : Convention} {r : Routine} {c : Code} (hknows : c.Knows r.flow)
    (hprepare : r.prepare conv ⟨1, c, r.flow⟩ = c.operands)
    (horder : ∀ x ∈ (c.interference r.flow).order, c.operands.isResolved x = true) :
    r.allocate conv c = .ok ⟨c, { r with interference := c.interference r.flow, spilled := [] }, 1, []⟩ := by
  rw [allocate_eq_place hknows.analyze, place, hprepare, Interference.turns_eq_self horder]
  rfl

/-- Allocating a function twice changes nothing. After a function that was just cut from a table is allocated, with
whatever arena and for whatever convention, every value that colouring takes has a place; and to allocate the function
once more leaves the table, the arena, the blocks and the interference graph as they are, after one pass of liveness
and with no choice made. -/
theorem second_allocation_changes_nothing (symbols : SymbolTable) (c : Code) (hc : c.Numbered) (rs : List Routine)
    (hrs : c.routines symbols = .ok rs) (r : Routine) (hr : r ∈ rs) (a : Arena) (conv : Convention) :
    ∃ once twice, r.allocate conv { c with operands := a } = .ok once ∧
      (∀ x ∈ once.routine.interference.order, once.code.operands.isResolved x = true) ∧
      once.routine.allocate conv once.code = .ok twice ∧ twice.code = once.code ∧
      twice.routine = { once.routine with spilled := [] } ∧ twice.passes = 1 ∧ twice.choices = [] := by
  have hready := Code.routines_ready hc hrs a r hr
  obtain ⟨an, h, han, hs, hscan, -⟩ := hready.analyze
  set once := r.place conv an with honce
  have hlike : an.code.operands.Like once.code.operands := r.place_like conv an
  have hlasting := Lasting.prepare conv (an.code.slice r.first r.last)
  have hadvances : (r.prepare conv an).Advances once.code.operands := Interference.advances_turns _ { operands := _ }
  have hresolved : ∀ x ∈ (an.code.interference an.flow).order, once.code.operands.isResolved x = true := by
    intro x hx
    have hvalue := hready.isValue_of_mem_order hs hscan hx
    rw [← hscan.alike.operands, ← (hlasting.advances an.code.operands).like.isValue] at hvalue
    exact Interference.isResolved_turns (s := { operands := _ }) hx (Arena.lt_size_of_isValue hvalue)
  have hgraph : once.code.interference an.flow = an.code.interference an.flow :=
    Code.interference_congr (funext hlike.isValue) rfl
  refine ⟨once, _, Routine.allocate_eq_place han, hresolved,
    Routine.allocate_eq_self ((hready.knows han).of_like hlike) ?_ ?_, rfl, ?_, rfl, rfl⟩
  · exact hlasting.fixed an.code.operands _ hadvances
  · rw [show once.routine.flow = an.flow from rfl, hgraph]
    exact hresolved
  · rw [show once.routine.flow = an.flow from rfl, hgraph]
    rfl

/-- A loop with a call and a division, in an arena where the parameter `u` is in a register already:

    f:
      u = param 7
    L0:
      v = g(u)
      u = u / v
      if !u goto L0
      return w -/
def ferry : Code where
  instrs := #[
    { id := 0, op := .header, result := some 0 },
    { id := 1, op := .param 7, result := some 1 },
    { id := 2, op := .label, left := some 4 },
    { id := 3, op := .call, result := some 2, left := some 5, args := [1] },
    { id := 4, op := .binary (.arith .div), result := some 1, left := some 1, right := some 2 },
    { id := 5, op := .branch, left := some 1, right := some 4 },
    { id := 6, op := .ret, left := some 3 }]
  operands.operands := #[
    { kind := .symbol 0, isValue := false },
    { kind := .symbol 1, isValue := true, location := some (.register ⟨1, "r1"⟩) },
    { kind := .symbol 2, isValue := true },
    { kind := .symbol 3, isValue := true },
    { kind := .label ⟨0⟩, isValue := false },
    { kind := .symbol 4, isValue := false }]

def ferrySymbols : SymbolTable where
  symbols := #[
    { name := "f", kind := .function, ty := .function [] .int },
    { name := "u", kind := .param, ty := .int },
    { name := "v", kind := .localVar, ty := .int },
    { name := "w", kind := .localVar, ty := .int },
    { name := "g", kind := .function, ty := .function [.int] .int }]

def ferryRoutine : Routine where
  symbol := 0
  first := 0
  last := 6
  flow := (FlowGraph.build ferry "f" 0 6).toOption.getD {}

/-- A convention with one register, which calls overwrite. -/
def lonelyConvention : Convention where
  name := "lonely"
  registers := [⟨0, "r0"⟩]
  args := [⟨0, "r0"⟩]
  result := ⟨0, "r0"⟩
  callerSaved := [⟨0, "r0"⟩]
  divisionClobbers := []

/-- The first time the parameter is moved to the frame, where it is passed, and the value that is needed after the
call finds no register; the second time nothing happens. -/
theorem ferry_is_settled_at_once : ferry.Numbered ∧ ferry.routines ferrySymbols = .ok [ferryRoutine] ∧
    ∃ once twice, ferryRoutine.allocate lonelyConvention ferry = .ok once ∧
      once.code.operands.location 1 = some .frame ∧ once.routine.spilled = [3] ∧
      once.routine.allocate lonelyConvention once.code = .ok twice ∧ twice.code = once.code ∧
      twice.routine = { once.routine with spilled := [] } := by
  have hnumbered : ferry.Numbered := by
    intro i z hz
    have hall : ∀ i < 7, (ferry.instrs[i]?).all (·.id = i) := by decide +kernel
    simpa [hz] using hall i (Array.getElem?_eq_some_iff.mp hz).1
  have hrs : ferry.routines ferrySymbols = .ok [ferryRoutine] := rfl
  obtain ⟨once, twice, honce, -, htwice, hcode, hroutine, -⟩ := second_allocation_changes_nothing ferrySymbols ferry
    hnumbered _ hrs ferryRoutine List.mem_cons_self ferry.operands lonelyConvention
  have hrun : (ferryRoutine.allocate lonelyConvention ferry).toOption.any (fun al =>
      decide (al.code.operands.location 1 = some .frame ∧ al.routine.spilled = [3])) = true := by decide +kernel
  rw [show ferryRoutine.allocate lonelyConvention ferry = .ok once from honce] at hrun
  obtain ⟨hframe, hspilled⟩ := of_decide_eq_true hrun
  exact ⟨hnumbered, hrs, once, twice, honce, hframe, hspilled, htwice, hcode, hroutine⟩

end MiddleEnd
