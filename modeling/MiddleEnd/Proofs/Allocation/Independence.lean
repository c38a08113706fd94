import MiddleEnd.Proofs.Allocation.Footprint
import MiddleEnd.Proofs.Allocation.Unit

/-! Functions are allocated independently. An allocation looks at the instructions of its function and at the values
that they mention, and at nothing that the allocation of another function changes; so it does in any order of the
functions what it does alone. -/

namespace MiddleEnd

/-! ### Analysis looks at one function -/

/-- Two tables have the same instructions from `first` to `last`, and the same operands are values. -/
structure Code.Matches (first last : Nat) (c d : Code) : Prop where
  size : d.instrs.size = c.instrs.size
  isValue : d.operands.isValue = c.operands.isValue
  instrs : ∀ i, first ≤ i → i ≤ last → d.instrs[i]? = c.instrs[i]?

/-- The blocks stand between `first` and `last`. -/
def FlowGraph.Within (first last : Nat) (g : FlowGraph) : Prop :=
  ∀ k b, g.block? k = some b → first ≤ b.first ∧ b.last ≤ last

theorem FlowGraph.Within.modify {first last : Nat} {g : FlowGraph} (h : g.Within first last) (id : Nat)
    {f : Block → Block} (hf : ∀ b, (f b).first = b.first ∧ (f b).last = b.last) :
    (g.modify id f).Within first last := by
  intro k b hk
  rw [block?, FlowGraph.modify, Digraph.get?_modify] at hk
  split at hk
  · obtain ⟨d, hd, rfl⟩ := Option.map_eq_some_iff.mp hk
    rw [(hf d).1, (hf d).2]
    exact h k d hd
  · exact h k b hk

namespace Code.Matches

variable {first last : Nat} {c d : Code} (h : Code.Matches first last c d)
include h

theorem slice {i j : Nat} (hi : first ≤ i) (hj : j ≤ last) : d.slice i j = c.slice i j := by
  apply List.ext_getElem?
  intro k
  rw [slice_getElem?, slice_getElem?]
  split
  · exact h.instrs _ (by omega) (by omega)
  · rfl

theorem withLocalSets {g : FlowGraph} (hg : g.Within first last) : d.withLocalSets g = c.withLocalSets g := by
  unfold Code.withLocalSets Digraph.map
  congr 2
  apply Array.map_congr_left
  intro n hn
  obtain ⟨k, hk⟩ := Array.mem_iff_getElem?.mp hn
  obtain ⟨hf, hl⟩ := hg k n.val (congrArg (Option.map Node.val) hk)
  simp only [h.slice hf hl, localSets_congr h.isValue]

theorem setLiveOuts (pos : Nat) (sets : List LiveSet) :
    (c.setLiveOuts pos sets).Matches first last (d.setLiveOuts pos sets) := by
  unfold Code.setLiveOuts
  induction sets generalizing c d pos with
  | nil => exact h
  | cons s sets ih =>
    rw [List.zipIdx_cons, List.foldl_cons, List.foldl_cons]
    refine ih (c := { c with instrs := c.instrs.modify pos fun i => { i with liveOut := s } })
      (d := { d with instrs := d.instrs.modify pos fun i => { i with liveOut := s } }) ⟨?_, h.isValue, ?_⟩ (pos + 1)
    · simp [h.size]
    · intro i hf hl
      rw [Array.getElem?_modify, Array.getElem?_modify, h.instrs i hf hl]

theorem annotate {g : FlowGraph} (hg : g.Within first last) {k : Nat} {s : Code × FlowGraph}
    (hs : Code.annotate (c, g) k = .ok s) :
    ∃ t, Code.annotate (d, g) k = .ok t ∧ t.2 = s.2 ∧ s.2.Within first last ∧ s.1.Matches first last t.1 := by
  unfold Code.annotate at hs ⊢
  dsimp only at hs ⊢
  cases hk : g.block? k with
  | none =>
    rw [hk] at hs
    cases hs
    exact ⟨_, rfl, rfl, hg, h⟩
  | some b =>
    obtain ⟨hf, hl⟩ := hg k b hk
    rw [hk] at hs
    dsimp only at hs ⊢
    rw [h.slice hf hl, Scan.run_congr h.isValue]
    split at hs
    case isTrue hin =>
      cases hs
      rw [if_pos hin]
      exact ⟨_, rfl, rfl, hg.modify k fun _ => ⟨rfl, rfl⟩, h.setLiveOuts _ _⟩
    case isFalse => cases hs

theorem blockInstrs {g : FlowGraph} (hg : g.Within first last) : d.blockInstrs g = c.blockInstrs g := by
  unfold Code.blockInstrs
  rw [List.flatMap_def, List.flatMap_def]
  congr 1
  apply List.map_congr_left
  intro k _
  cases hk : g.block? k with
  | none => rfl
  | some b =>
    obtain ⟨hf, hl⟩ := hg k b hk
    rw [Option.elim_some, Option.elim_some, h.slice hf hl]
    apply List.map_congr_left
    intro i hi
    have hpos := List.le_snd_of_mem_zipIdx hi
    split
    · rw [h.instrs (i.2 + 1) (by omega) (by omega)]
    · rfl

theorem interference {g : FlowGraph} (hg : g.Within first last) : d.interference g = c.interference g :=
  interference_congr h.isValue (h.blockInstrs hg)

end Code.Matches

theorem Routine.Built.within {c : Code} {r : Routine} (hr : r.Built c) : r.flow.Within r.first r.last := by
  intro k b hk
  have := hr.block_bounds hk
  exact ⟨this.1, this.2.2⟩

theorem Code.Matches.analyze {c d : Code} {r : Routine} (h : c.Matches r.first r.last d) (hr : r.Built c)
    {an : Analysis} (han : c.analyze r.flow = .ok an) : ∃ an', d.analyze r.flow = .ok an' ∧ an'.passes = an.passes ∧
      an'.flow = an.flow ∧ an.flow.Within r.first r.last ∧ an.code.Matches r.first r.last an'.code := by
  obtain ⟨n, g, hsolve, -, hs⟩ := FlowGraph.solve_eq (Code.below_withLocalSets hr)
  have ht : Tiles r.last r.first g.blocks := hr.tiles.congr (Code.solved_blocks hs)
  have hg : g.Within r.first r.last := by
    intro k b hk
    have := ht.bounds ((FlowGraph.blocks_getElem? g k).trans hk)
    omega
  have hholds : d.holds = c.holds := by
    funext b
    rw [Code.holds, Code.holds, h.size]
  unfold Code.analyze at han ⊢
  rw [hholds, h.withLocalSets hr.within]
  split at han
  case isTrue => cases han
  case isFalse hin =>
    rw [hsolve] at han
    rw [if_neg hin, hsolve]
    obtain ⟨⟨code, flow⟩, hfold, han⟩ := Except.bind_eq_ok.mp han
    cases han
    obtain ⟨⟨code', flow'⟩, hfold', hflow, hwithin, hmatch⟩ := foldlM_related (t := (d, g))
      (R := fun s t : Code × FlowGraph => t.2 = s.2 ∧ s.2.Within r.first r.last ∧ s.1.Matches r.first r.last t.1)
      (by
        rintro s ⟨e, f⟩ k s' - ⟨rfl, hw, hm⟩ hstep
        exact hm.annotate hw hstep) hfold ⟨rfl, hg, h⟩
    exact ⟨_, Except.bind_eq_ok.mpr ⟨_, hfold', rfl⟩, rfl, hflow, hwithin, hmatch⟩

/-! ### Placing looks at the values of one function -/

/-- Two arenas have the same operands where `P` holds, and differ elsewhere at most in what allocation notes. -/
structure Arena.Agrees (P : OperandId → Prop) (a b : Arena) : Prop where
  like : a.Like b
  same : ∀ y, P y → b.get? y = a.get? y

namespace Arena.Agrees

variable {P : OperandId → Prop} {a b : Arena} (h : a.Agrees P b)
include h

theorem modify (x : OperandId) {f : Operand → Operand} (hf : Operand.Notes f) :
    (a.modify x f).Agrees P (b.modify x f) := by
  have hlike : ∀ a : Arena, a.Like (a.modify x f) := fun a =>
    (Arena.amends_modify (P := fun _ => True) hf (Or.inl trivial)).like
  refine ⟨((hlike a).symm.trans h.like).trans (hlike b), fun y hy => ?_⟩
  rw [get?_modify, get?_modify, h.same y hy]

theorem spillParam (conv : Convention) (z : Instr) : (conv.spillParam a z).Agrees P (conv.spillParam b z) := by
  unfold Convention.spillParam
  split
  case h_1 pos x hop hres =>
    rw [h.like.isValue]
    split
    · exact h.modify x ⟨fun _ => rfl, fun _ _ => rfl⟩
    · exact h
  case h_2 => exact h

theorem pinAll (conv : Convention) (z : Instr) : (conv.pinAll a z).Agrees P (conv.pinAll b z) :=
  spillParam (List.foldl_rel h fun x _ _ _ hab => hab.modify x conv.notes_pinOperand) conv z

theorem restrictInstr (conv : Convention) (z : Instr) :
    (conv.restrictInstr a z).Agrees P (conv.restrictInstr b z) := by
  unfold Convention.restrictInstr
  rw [Convention.divisor?_of_like h.like]
  exact List.foldl_rel h fun x _ _ _ hab => hab.modify x (Operand.notes_restrict _)

theorem register? {y : OperandId} (hy : P y) : b.register? y = a.register? y := by
  rw [Arena.register?, Arena.register?, h.same y hy]

theorem choice {g : Interference} (registers : List Register) {x : OperandId} (hx : P x)
    (hg : ∀ y, g.interferes x y = true → P y) : g.choice registers b x = g.choice registers a x := by
  have hheld : b.held (g.neighbors x).toList = a.held (g.neighbors x).toList := by
    apply List.filterMap_congr
    intro y hy
    rw [Std.ExtTreeSet.mem_toList] at hy
    exact h.register? (hg y (Std.ExtTreeSet.contains_iff_mem.mpr hy))
  rw [Interference.choice, Interference.choice, Interference.free?, Interference.free?, hheld, Arena.restricted,
    h.same x hx, Arena.restricted]

end Arena.Agrees

theorem Interference.turn_agrees {g : Interference} {registers : List Register} {P : OperandId → Prop} {s t : Coloring}
    (h : s.operands.Agrees P t.operands) (hchoices : t.choices = s.choices) {x : OperandId} (hx : P x)
    (hg : ∀ y, g.interferes x y = true → P y) :
    (g.turn registers s x).operands.Agrees P (g.turn registers t x).operands ∧
      (g.turn registers t x).choices = (g.turn registers s x).choices := by
  have hres : t.operands.isResolved x = s.operands.isResolved x := by
    rw [Arena.isResolved, Arena.isResolved, h.same x hx]
  unfold turn
  rw [hres, h.choice registers hx hg]
  split
  · exact ⟨h, hchoices⟩
  · exact ⟨h.modify x ⟨fun _ => rfl, fun _ _ => rfl⟩, by rw [hchoices]⟩

section Allocate

variable {conv : Convention} {c d : Code} {r : Routine}

theorem Analyzed.owns_of_interferes {an : Analysis} (hr : r.Built c) (h : Analyzed c r an) {x y : OperandId}
    (hxy : (an.code.interference an.flow).interferes x y = true) : r.Owns c y := by
  obtain ⟨i, z, hf, hl, hz, hclash⟩ := (h.interferes_iff_clash (.refl c) hr x y).mp hxy
  exact hclash.symm.occurs.mentions hr hf hl hz

/-- Allocation of a function does the same in all tables that agree on the function and on its values. -/
theorem Routine.place_agrees (conv : Convention) {an an' : Analysis} (hr : r.Built c) (hA : Analyzed c r an)
    (hwithin : an.flow.Within r.first r.last) (hflow : an'.flow = an.flow)
    (hmatch : an.code.Matches r.first r.last an'.code) (hagree : an.code.operands.Agrees (r.Owns c) an'.code.operands) :
    (r.place conv an).code.operands.Agrees (r.Owns c) (r.place conv an').code.operands ∧
      (r.place conv an').routine = (r.place conv an).routine := by
  have hslice := hmatch.slice (Nat.le_refl r.first) (Nat.le_refl r.last)
  have hgraph : an'.code.interference an'.flow = an.code.interference an.flow := by
    rw [hflow, hmatch.interference hwithin]
  have hprepare : (r.prepare conv an).Agrees (r.Owns c) (r.prepare conv an') := by
    unfold prepare
    rw [hslice]
    exact List.foldl_rel (List.foldl_rel hagree fun z _ _ _ h => h.pinAll conv z) fun z _ _ _ h =>
      h.restrictInstr conv z
  obtain ⟨hoperands, hchoices⟩ := List.foldl_rel (l := (an.code.interference an.flow).order)
    (f := (an.code.interference an.flow).turn conv.registers) (g := (an.code.interference an.flow).turn conv.registers)
    (r := fun s t : Coloring => s.operands.Agrees (r.Owns c) t.operands ∧ t.choices = s.choices)
    (a := { operands := r.prepare conv an }) (b := { operands := r.prepare conv an' }) ⟨hprepare, rfl⟩
    fun x hx _ _ h => Interference.turn_agrees h.1 h.2 (hA.owns_of_mem_order hr (.refl c) hx) fun y hxy =>
      hA.owns_of_interferes hr hxy
  unfold place
  dsimp only
  rw [hgraph]
  refine ⟨hoperands, ?_⟩
  rw [hflow, Coloring.spilled, hchoices]
  rfl

/-! ### The functions of a unit -/

/-- Two functions stand apart and mention no value in common. -/
def Routine.Apart (c : Code) (r s : Routine) : Prop :=
  (r.last < s.first ∨ s.last < r.first) ∧ ∀ y, r.Owns c y → ¬ s.Owns c y

theorem Routine.Apart.symm {r s : Routine} (h : r.Apart c s) : s.Apart c r :=
  ⟨h.1.symm, fun y hs hr => h.2 y hr hs⟩

/-- `e` is `c` in which each of the functions is as `al` says, its instructions and its values, and all else is as
it was. -/
structure Code.Merges (c : Code) (al : Routine → Allocation) (rs : List Routine) (e : Code) : Prop where
  like : c.Like e
  interned : e.operands.interned = c.operands.interned
  instrs : ∀ r ∈ rs, ∀ i, r.first ≤ i → i ≤ r.last → e.instrs[i]? = (al r).code.instrs[i]?
  operands : ∀ r ∈ rs, ∀ y, r.Owns c y → e.operands.get? y = (al r).code.operands.get? y
  otherInstrs : ∀ i, (∀ r ∈ rs, i < r.first ∨ r.last < i) → e.instrs[i]? = c.instrs[i]?
  otherOperands : ∀ y, (∀ r ∈ rs, ¬ r.Owns c y) → e.operands.get? y = c.operands.get? y

theorem Code.Merges.nil (c : Code) (al : Routine → Allocation) : c.Merges al [] c :=
  ⟨.refl c, rfl, by simp, by simp, fun _ _ => rfl, fun _ _ => rfl⟩

theorem Code.Merges.unique {al : Routine → Allocation} {rs ss : List Routine} {e f : Code} (h : c.Merges al rs e)
    (k : c.Merges al ss f) (hmem : ∀ r, r ∈ ss ↔ r ∈ rs) : f = e := by
  have hinstrs : f.instrs = e.instrs := by
    apply Array.ext_getElem?
    intro i
    by_cases hi : ∃ r ∈ rs, r.first ≤ i ∧ i ≤ r.last
    · obtain ⟨r, hr, hf, hl⟩ := hi
      rw [h.instrs r hr i hf hl, k.instrs r ((hmem r).mpr hr) i hf hl]
    · have hout : ∀ r ∈ rs, i < r.first ∨ r.last < i := by
        intro r hr
        by_contra hin
        exact hi ⟨r, hr, by omega, by omega⟩
      rw [h.otherInstrs i hout, k.otherInstrs i fun r hr => hout r ((hmem r).mp hr)]
  have hoperands : f.operands = e.operands := by
    refine Arena.ext_get? (k.interned.trans h.interned.symm) fun y => ?_
    by_cases hy : ∃ r ∈ rs, r.Owns c y
    · obtain ⟨r, hr, hy⟩ := hy
      rw [h.operands r hr y hy, k.operands r ((hmem r).mpr hr) y hy]
    · have hout : ∀ r ∈ rs, ¬ r.Owns c y := fun r hr h => hy ⟨r, hr, h⟩
      rw [h.otherOperands y hout, k.otherOperands y fun r hr => hout r ((hmem r).mp hr)]
  cases e
  cases f
  simp only at hinstrs hoperands
  rw [hinstrs, hoperands]

theorem Code.Merges.allocate {al : Routine → Allocation} {rs : List Routine} (h : c.Merges al rs d)
    (htemps : c.operands.TempsAreValues) (hr : r.Built c) (hapart : ∀ s ∈ rs, r.Apart c s)
    (hal : r.allocate conv c = .ok (al r)) :
    ∃ done, r.allocate conv d = .ok done ∧ done.routine = (al r).routine ∧ c.Merges al (r :: rs) done.code := by
  obtain ⟨an, han, hA⟩ := Code.analyze_eq_ok hr
  rw [Routine.allocate_eq_place han] at hal
  have hal : r.place conv an = al r := Except.ok.inj hal
  have hmatch : c.Matches r.first r.last d := by
    refine ⟨h.like.size, funext h.like.operands.isValue, fun i hf hl => h.otherInstrs i fun s hs => ?_⟩
    have := (hapart s hs).1
    omega
  have hagree : c.operands.Agrees (r.Owns c) d.operands :=
    ⟨h.like.operands, fun y hy => h.otherOperands y fun s hs => (hapart s hs).2 y hy⟩
  obtain ⟨an', han', -, hflow, hwithin, hmatch'⟩ := hmatch.analyze hr han
  have hA' : Analyzed d r an' := by
    obtain ⟨an'', han'', hA'⟩ := Code.analyze_eq_ok (h.like.built hr)
    rw [han'] at han''
    cases han''
    exact hA'
  rw [← hA.alike.operands, ← hA'.alike.operands] at hagree
  obtain ⟨hoperands, hroutine⟩ := Routine.place_agrees conv hr hA hwithin hflow hmatch' hagree
  have hamends := Routine.place_amends conv hr h.like htemps hA'
  have houtside : ∀ i, i < r.first ∨ r.last < i → (r.place conv an').code.instrs[i]? = d.instrs[i]? := hA'.outside
  refine ⟨_, Routine.allocate_eq_place han', hroutine.trans (by rw [hal]), ?_, hamends.interned.trans h.interned,
    ?_, ?_, ?_, ?_⟩
  · exact ⟨h.like.operands.trans hamends.like, (h.like.trans hA'.alike.like).instrs⟩
  · intro s hs i hf hl
    rcases List.mem_cons.mp hs with rfl | hs
    · rw [← hal]
      exact hmatch'.instrs i hf hl
    · have := (hapart s hs).1
      rw [houtside i (by omega), h.instrs s hs i hf hl]
  · intro s hs y hy
    rcases List.mem_cons.mp hs with rfl | hs
    · rw [← hal]
      exact hoperands.same y hy
    · rw [hamends.outside y fun hr => (hapart s hs).2 y hr hy, h.operands s hs y hy]
  · intro i hi
    rw [houtside i (hi r (by simp)), h.otherInstrs i fun s hs => hi s (by simp [hs])]
  · intro y hy
    rw [hamends.outside y (hy r (by simp)), h.otherOperands y fun s hs => hy s (by simp [hs])]

theorem Code.Merges.allocateAll {al : Routine → Allocation} {rs before : List Routine} (h : c.Merges al before d)
    (htemps : c.operands.TempsAreValues) (hrs : ∀ r ∈ rs, r.Built c) (hpairs : rs.Pairwise (Routine.Apart c))
    (hapart : ∀ r ∈ rs, ∀ s ∈ before, r.Apart c s) (hal : ∀ r ∈ rs, r.allocate conv c = .ok (al r)) :
    ∃ e done, MiddleEnd.allocateAll conv rs d = .ok (e, done) ∧
      done.map (·.routine) = rs.map (fun r => (al r).routine) ∧ c.Merges al (rs.reverse ++ before) e := by
  induction rs generalizing d before with
  | nil => exact ⟨d, [], rfl, rfl, h⟩
  | cons r rs ih =>
    obtain ⟨hfirst, hpairs⟩ := List.pairwise_cons.mp hpairs
    obtain ⟨one, hone, hroutine, hmerges⟩ := h.allocate htemps (hrs r (by simp)) (hapart r (by simp)) (hal r (by simp))
    have hapart' : ∀ s ∈ rs, ∀ t ∈ r :: before, s.Apart c t := by
      intro s hs t ht
      rcases List.mem_cons.mp ht with rfl | ht
      · exact (hfirst s hs).symm
      · exact hapart s (by simp [hs]) t ht
    obtain ⟨e, done, hall, hroutines, hmerged⟩ := ih hmerges (fun s hs => hrs s (by simp [hs])) hpairs hapart'
      fun s hs => hal s (by simp [hs])
    refine ⟨e, one :: done, ?_, ?_, ?_⟩
    · exact Except.bind_eq_ok.mpr ⟨one, hone, Except.bind_eq_ok.mpr ⟨(e, done), hall, rfl⟩⟩
    · rw [List.map_cons, List.map_cons, hroutine, hroutines]
    · rwa [List.reverse_cons, List.append_assoc]

end Allocate

theorem Code.Laid.routines_apart {symbols : SymbolTable} {ds : List Decl} {c : Code} (hc : c.Laid symbols ds)
    {rs : List Routine} (hrs : c.routines symbols = .ok rs) : rs.Pairwise (Routine.Apart c) :=
  ((Code.routines_ranges hrs).and (hc.values_apart hrs)).imp fun ⟨hlt, hvalues⟩ =>
    ⟨Or.inl hlt, fun y hr hs => hvalues y hr.1 hr.2 hs.2⟩

/-- Functions are allocated independently. In a program that lowers and whose flow graphs can be built, in which no
local variable or parameter is mentioned by two functions, allocating the functions in any order gives one and the
same code, live-out sets and all that is noted on operands included, and makes of each function what allocating it
alone makes of it: its blocks, its interference graph and its list of spilled values. -/
theorem functions_are_allocated_independently (conv : Convention) (p : Program) (hapart : p.LocalsApart) (l : Lowered)
    (hl : p.lower = .ok l) (rs : List Routine) (hrs : l.code.routines p.symbols = .ok rs) :
    ∃ (code : Code) (result : Routine → Routine),
      (∀ r ∈ rs, ∃ alone, r.allocate conv l.code = .ok alone ∧ alone.routine = result r) ∧
      ∀ order : List Routine, order.Perm rs → ∃ done, allocateAll conv order l.code = .ok (code, done) ∧
        done.map (·.routine) = order.map result := by
  have hlaid := p.lower_laid hl hapart
  have htemps := hlaid.sound.fresh.tempsAreValues
  have hbuilt := Code.routines_built hlaid.sound.numbered hrs
  have halone : ∀ r ∈ rs, ∃ al, r.allocate conv l.code = .ok al := by
    intro r hr
    obtain ⟨an, han, -⟩ := Code.analyze_eq_ok (hbuilt r hr)
    exact ⟨_, Routine.allocate_eq_place han⟩
  have : Nonempty Allocation := ⟨⟨{}, ⟨0, 0, 0, {}, {}, []⟩, 0, []⟩⟩
  choose! al hal using halone
  -- an order of the functions has the same functions, any two of them apart
  have hrun : ∀ order : List Routine, order.Perm rs → ∃ e done, allocateAll conv order l.code = .ok (e, done) ∧
      done.map (·.routine) = order.map (fun r => (al r).routine) ∧ l.code.Merges al (order.reverse ++ []) e := by
    intro order hperm
    have hmem : ∀ r ∈ order, r ∈ rs := fun r hr => hperm.mem_iff.mp hr
    exact Code.Merges.allocateAll (.nil l.code al) htemps (fun r hr => hbuilt r (hmem r hr))
      (hperm.symm.pairwise (hlaid.routines_apart hrs) fun h => h.symm) (by simp) fun r hr => hal r (hmem r hr)
  obtain ⟨code, -, -, -, hcode⟩ := hrun rs (.refl rs)
  refine ⟨code, fun r => (al r).routine, fun r hr => ⟨al r, hal r hr, rfl⟩, fun order hperm => ?_⟩
  obtain ⟨e, done, hall, hroutines, hmerges⟩ := hrun order hperm
  obtain rfl : e = code := hcode.unique hmerges fun r => by simp [hperm.mem_iff]
  exact ⟨done, hall, hroutines⟩

/-- Two functions that share a global variable, and of which one calls the other:

    int total;
    int f(int a) { total = a; return g(a) + total; }
    int g(int b) { return b / total; } -/
def relay : Program where
  symbols.symbols := #[
    { name := "total", kind := .globalVar, ty := .int },
    { name := "f", kind := .function, ty := .function [.int] .int },
    { name := "a", kind := .param, ty := .int },
    { name := "g", kind := .function, ty := .function [.int] .int },
    { name := "b", kind := .param, ty := .int }]
  decls := [.global 0 none,
    .function 1 [2] (.seq (.assign 0 (.name 2 .int)) (.ret (some (.binary (.arith .add)
      (.call 3 [.name 2 .int] .int) (.name 0 .int) .int)))),
    .function 3 [4] (.ret (some (.binary (.arith .div) (.name 4 .int) (.name 0 .int) .int)))]

/-- The callee can be allocated first. -/
theorem relay_in_reverse : relay.LocalsApart ∧ ∃ l rs, relay.lower = .ok l ∧ l.code.routines relay.symbols = .ok rs ∧
    rs.length = 2 ∧ ∃ code done done', allocateAll narrowConvention rs l.code = .ok (code, done) ∧
      allocateAll narrowConvention rs.reverse l.code = .ok (code, done') ∧
      done'.map (·.routine) = (done.map (·.routine)).reverse := by
  have hapart : relay.LocalsApart := by decide
  have hrun : relay.lower.toOption.any (fun l => (l.code.routines relay.symbols).toOption.any
      fun rs => decide (rs.length = 2)) = true := by decide +kernel
  cases hl : relay.lower with
  | error e => rw [hl] at hrun; cases hrun
  | ok l =>
    rw [hl] at hrun
    cases hrs : l.code.routines relay.symbols with
    | error e => simp only [Except.toOption, Option.any_some, hrs, Option.any_none] at hrun; cases hrun
    | ok rs =>
      simp only [Except.toOption, Option.any_some, hrs, decide_eq_true_eq] at hrun
      obtain ⟨code, result, -, hall⟩ :=
        functions_are_allocated_independently narrowConvention relay hapart l hl rs hrs
      obtain ⟨done, hdone, hresult⟩ := hall rs (.refl rs)
      obtain ⟨done', hdone', hresult'⟩ := hall rs.reverse rs.reverse_perm
      exact ⟨hapart, l, rs, rfl, hrs, hrun, code, done, done', hdone, hdone',
        by rw [hresult, hresult', List.map_reverse]⟩

end MiddleEnd
