import MiddleEnd.Compile
import MiddleEnd.Proofs.Allocation.Function
import MiddleEnd.Proofs.Lowering.Program

/-! Allocation of all functions of a program, one after the other. No function mentions a value of another,
so each stays as well allocated as it was when its turn was over. -/

namespace MiddleEnd

/-- Functions that are built from the code and share no value. -/
structure Code.Separate (c : Code) (rs : List Routine) : Prop where
  built : ∀ r ∈ rs, r.Built c
  lone : ∀ r ∈ rs, r.Lone c
  ranges : rs.Pairwise fun r s => r.last < s.first
  apart : rs.Pairwise fun r s => ∀ y, c.operands.isValue y = true → r.Mentions c y → ¬ s.Mentions c y

section Separate

variable {symbols : SymbolTable} {ds : List Decl} {c : Code}

theorem Code.Laid.mem_headers_of_header (hc : c.Laid symbols ds)
    (htyped : ∀ d ∈ ds, ∀ id s, d.function? = some id → symbols.get? id = some s → s.ty.isFunction = true) {i : Nat}
    {z : Instr} (hz : c.instrs[i]? = some z) (hop : z.op = .header) : ∃ h, (i, h) ∈ c.headers symbols := by
  obtain ⟨d, hd, id, s, y, hfun, hs, hres, -, hget⟩ := hc.header i z hz hop
  refine ⟨(id, s.name), (Code.mem_headers symbols c i _).mpr ⟨z, hz, Code.header?_eq_some.mpr ?_⟩⟩
  exact ⟨hop, y, s.operand id, s, hres, hget, rfl, hs, htyped d hd id s hfun hs, rfl⟩

theorem Code.routines_ranges {rs : List Routine} (hrs : c.routines symbols = .ok rs) :
    rs.Pairwise fun r s => r.last < s.first := by
  have hcut := Code.cut_pairwise (@Code.headers_lt symbols c) (Code.sorted_headers symbols c)
  exact pairwise_of_forall₂ (Code.routines_become hrs) hcut fun p q r s hpq hp hq => by
    rw [hp.last, hq.first]
    exact hpq

theorem Code.Laid.values_apart (hc : c.Laid symbols ds) {rs : List Routine} (hrs : c.routines symbols = .ok rs) :
    rs.Pairwise fun r s => ∀ y, c.operands.isValue y = true → r.Mentions c y → ¬ s.Mentions c y := by
  -- of two functions the second one has its header behind everything in the first
  refine (Code.routines_ranges hrs).imp_of_mem
    fun {r s} _ hs hlt y hval ⟨i, z, hfi, hil, hz, hy⟩ ⟨j, w, hfj, hjl, hw, hy'⟩ => ?_
  obtain ⟨x, hx, hop⟩ := (Code.routines_built hc.sound.numbered hrs s hs).header
  exact hc.apart i j z w hz hw y hy hy' hval s.first (by omega) hfj x hx hop

theorem Code.Laid.separate (hc : c.Laid symbols ds)
    (htyped : ∀ d ∈ ds, ∀ id s, d.function? = some id → symbols.get? id = some s → s.ty.isFunction = true)
    {rs : List Routine} (hrs : c.routines symbols = .ok rs) : c.Separate rs := by
  refine ⟨Code.routines_built hc.sound.numbered hrs, fun r hr m x hm hl hx hop => ?_, Code.routines_ranges hrs,
    hc.values_apart hrs⟩
  obtain ⟨h, hh⟩ := hc.mem_headers_of_header htyped hx hop
  obtain ⟨-, -, -, hbetween, -⟩ := Code.mem_routines hrs hr
  have := hbetween _ hh
  dsimp only at this
  omega

end Separate

section Allocate

variable {symbols : SymbolTable} {conv : Convention} {c d : Code}

theorem Routine.Placed.congr {r : Routine} (hr : r.Built c) {g : Interference} {a b : Arena}
    (h : r.Placed conv c g a)
    (hloc : ∀ y, c.operands.isValue y = true → r.Mentions c y → b.location y = a.location y) :
    r.Placed conv c g b := by
  have hoccurs : ∀ {i : Nat} {z : Instr} {y : OperandId}, r.first ≤ i → i ≤ r.last → c.instrs[i]? = some z →
      c.Occurs r.flow i z y → b.location y = a.location y := by
    intro i z y hf hl hz hy
    obtain ⟨hval, hm⟩ := hy.mentions hr hf hl hz
    exact hloc y hval hm
  refine ⟨h.clash, fun x y reg hxy => ?_, fun i z y hf hl hz hy => ?_, fun i z y reg hf hl hz hclob hy => ?_⟩
  · obtain ⟨i, z, hf, hl, hz, hcl⟩ := (h.clash x y).mp hxy
    rw [Arena.register?_eq, Arena.register?_eq, hoccurs hf hl hz hcl.occurs, hoccurs hf hl hz hcl.symm.occurs,
      ← Arena.register?_eq, ← Arena.register?_eq]
    exact h.shared x y reg hxy
  · rw [Arena.isResolved_eq, hoccurs hf hl hz hy, ← Arena.isResolved_eq]
    exact h.located i z y hf hl hz hy
  · have hocc : c.Occurs r.flow i z y := by
      rcases hy with hdiv | ⟨hw, -⟩
      · exact Or.inr (Or.inl (Instr.mem_reads_of_divisor hdiv))
      · exact Or.inr (Or.inr hw)
    rw [Arena.register?_eq, hoccurs hf hl hz hocc, ← Arena.register?_eq]
    exact h.spared i z y reg hf hl hz hclob hy

theorem allocateAll_placed (hc : c.Sound symbols) {rs : List Routine} (hrs : c.Separate rs) (hlike : c.Like d)
    (hnew : ∀ r ∈ rs, ∀ y, c.operands.isValue y = true → r.Mentions c y → d.operands.location y = none) {e : Code}
    {als : List Allocation} (h : allocateAll conv rs d = .ok (e, als)) :
    c.Like e ∧
      (∀ y, e.operands.location y ≠ d.operands.location y → c.operands.isValue y = true ∧ ∃ r ∈ rs, r.Mentions c y) ∧
      (∀ i, (∀ r ∈ rs, i < r.first ∨ r.last < i) → e.instrs[i]? = d.instrs[i]?) ∧
      List.Forall₂ (fun r al =>
        (al.routine.symbol = r.symbol ∧ al.routine.first = r.first ∧ al.routine.last = r.last) ∧
        r.Placed conv c al.routine.interference e.operands ∧ r.Noted c e) rs als := by
  induction rs generalizing d als with
  | nil =>
    obtain ⟨rfl, rfl⟩ : d = e ∧ [] = als := by simpa [allocateAll] using h
    exact ⟨hlike, fun y hy => absurd rfl hy, fun i _ => rfl, .nil⟩
  | cons r rs ih =>
    obtain ⟨al, hal, h⟩ := Except.bind_eq_ok.mp h
    obtain ⟨⟨e', als'⟩, hrest, h⟩ := Except.bind_eq_ok.mp h
    cases h
    obtain ⟨hapart, hpairs⟩ := List.pairwise_cons.mp hrs.apart
    obtain ⟨hbehind, hranges⟩ := List.pairwise_cons.mp hrs.ranges
    have hr := hrs.built r (by simp)
    have hset := Routine.allocate_settles hc hr (hrs.lone r (by simp)) hlike (hnew r (by simp)) hal
    -- the values of the other functions are where they were
    have hstay : ∀ s ∈ rs, ∀ y, c.operands.isValue y = true → s.Mentions c y →
        al.code.operands.location y = d.operands.location y := by
      intro s hs y hval hm
      by_contra hne
      exact hapart s hs y hval (hset.moved y hne).2 hm
    obtain ⟨hlike', hmoved, houtside, hals⟩ := ih
      ⟨fun s hs => hrs.built s (by simp [hs]), fun s hs => hrs.lone s (by simp [hs]), hranges, hpairs⟩ hset.like
      (fun s hs y hval hm => (hstay s hs y hval hm).trans (hnew s (by simp [hs]) y hval hm)) hrest
    refine ⟨hlike', fun y hy => ?_, fun i hi => ?_, .cons ⟨hset.extent, ?_, fun i w hf hl hw => ?_⟩ hals⟩
    · by_cases hne : e.operands.location y = al.code.operands.location y
      · obtain ⟨hval, hm⟩ := hset.moved y (hne ▸ hy)
        exact ⟨hval, r, by simp, hm⟩
      · obtain ⟨hval, s, hs, hm⟩ := hmoved y hne
        exact ⟨hval, s, by simp [hs], hm⟩
    · rw [houtside i fun s hs => hi s (by simp [hs]), hset.outside i (hi r (by simp))]
    · refine hset.placed.congr hr fun y hval hm => ?_
      by_contra hne
      obtain ⟨-, s, hs, hm'⟩ := hmoved y hne
      exact hapart s hs y hval hm hm'
    · -- the functions behind leave the instructions of this one alone
      rw [houtside i fun s hs => Or.inl (by have := hbehind s hs; omega)] at hw
      exact hset.noted i w hf hl hw

end Allocate

/-- A function of code that has been allocated, with the graph `g` it was coloured by. -/
structure Routine.Settled (conv : Convention) (e : Code) (r : Routine) (g : Interference) : Prop where
  built : r.Built e
  entry : ∀ z, e.instrs[r.first]? = some z → z.sources = []
  silent : ∀ (i : Nat) (z : Instr), e.instrs[i]? = some z → z.op.isSilent = true → z.result = none
  noted : r.Noted e e
  placed : r.Placed conv e g e.operands

structure Routine.Finished (conv : Convention) (e : Code) (r : Routine) (g : Interference) : Prop
    extends r.Settled conv e g where
  allotted : r.Allotted conv e g e.operands

/-- A program that compiles has code that its functions take up, and all of them have their places. -/
theorem Program.compile_settled {conv : Convention} {p : Program} (htyped : p.FunctionsTyped)
    (hapart : p.LocalsApart) {u : Compiled} (h : p.compile conv = .ok u) :
    ∃ rs : List Routine, Spans u.code.instrs.size 0 (rs.map fun r => (r.first, r.last)) ∧
      List.Forall₂ (fun r r' => r'.first = r.first ∧ r'.last = r.last ∧ r.Settled conv u.code r'.interference)
        rs u.routines := by
  obtain ⟨l, hl, h⟩ := Except.bind_eq_ok.mp h
  obtain ⟨rs, hrs, h⟩ := Except.bind_eq_ok.mp h
  obtain ⟨⟨code, als⟩, hals, h⟩ := Except.bind_eq_ok.mp h
  cases h
  have hrs := mapError_eq_ok hrs
  have hlaid := lower_laid (mapError_eq_ok hl) hapart
  have hsep := hlaid.separate htyped hrs
  obtain ⟨hlike, -, -, hall⟩ := allocateAll_placed hlaid.sound hsep (.refl _)
    (fun r _ y _ _ => hlaid.sound.fresh.location_eq_none y) (mapError_eq_ok hals)
  refine ⟨rs, ?_, ?_⟩
  · have hsize : code.instrs.size = l.code.instrs.size := hlike.size
    rw [hsize]
    exact Code.routines_spans hrs
  rw [List.forall₂_map_right_iff]
  refine forall₂_imp_of_mem hall fun r hr al ⟨⟨_, hfirst, hlast⟩, hplaced, hnoted⟩ => ?_
  have hbuilt := hsep.built r hr
  refine ⟨hfirst, hlast, hlike.built hbuilt, fun z hz => ?_, fun i z hz => ?_, hnoted.of_like hlike,
    hplaced.of_like hlike⟩
  · obtain ⟨x, hx, hop⟩ := hbuilt.header
    obtain ⟨-, -, -, -, -, -, -, -, hsources, -⟩ := hlaid.header _ _ hx hop
    obtain ⟨live, hx'⟩ := hlike.instr hx
    rw [hz] at hx'
    cases hx'
    exact hsources
  · obtain ⟨live, hz'⟩ := hlike.symm.instr hz
    exact (hlaid.sound.fits i _ hz').silent

theorem Program.compile_finished {conv : Convention} {p : Program} (hargs : conv.args.Nodup)
    (htyped : p.FunctionsTyped) (hapart : p.LocalsApart) {u : Compiled} (h : p.compile conv = .ok u) :
    ∀ r' ∈ u.routines, ∃ r : Routine, r'.first = r.first ∧ r'.last = r.last ∧
      r.Finished conv u.code r'.interference := by
  intro r' hr'
  obtain ⟨rs, -, hall⟩ := compile_settled htyped hapart h
  obtain ⟨r, -, hfirst, hlast, hr⟩ := (mem_of_forall₂ hall).1 r' hr'
  exact ⟨r, hfirst, hlast, hr, hr.placed.allotted hargs⟩

/-- Interference is sound in the whole pipeline. In a program that compiles, whose functions have function types
and share no local variable, no two operands that interfere hold the same register, be it that colouring chose
it or that the convention fixed it. -/
theorem interfering_operands_hold_different_registers (conv : Convention) (hargs : conv.args.Nodup) (p : Program)
    (htyped : p.FunctionsTyped) (hapart : p.LocalsApart) (u : Compiled) (hu : p.compile conv = .ok u) :
    ∀ r ∈ u.routines, ∀ x y, r.interference.interferes x y = true → ∀ reg,
      u.code.operands.register? x = some reg → u.code.operands.register? y ≠ some reg := by
  intro r hr x y hxy reg
  obtain ⟨s, -, -, hs⟩ := Program.compile_finished hargs htyped hapart hu r hr
  exact hs.allotted.apart x y reg hxy

/-- A convention that hands out no register and returns a value where it passes the first argument. -/
def bareConvention : Convention where
  name := "bare"
  registers := []
  args := [⟨0, "r0"⟩, ⟨1, "r1"⟩]
  result := ⟨0, "r0"⟩
  callerSaved := [⟨0, "r0"⟩, ⟨1, "r1"⟩]
  divisionClobbers := []

/-- A function that passes its two parameters on, in the other order:

    int f(int a, int b) { return g(b, a); } -/
def swapper : Program where
  symbols.symbols := #[
    { name := "f", kind := .function, ty := .function [.int, .int] .int },
    { name := "g", kind := .function, ty := .function [.int, .int] .int },
    { name := "a", kind := .param, ty := .int },
    { name := "b", kind := .param, ty := .int }]
  decls := [.function 0 [2, 3] (.ret (some (.call 1 [.name 3 .int, .name 2 .int] .int)))]

/-- The two arguments of the call are live together, and the first is where the convention fixes it. -/
theorem swapper_arguments_apart : bareConvention.args.Nodup ∧ swapper.FunctionsTyped ∧ swapper.LocalsApart ∧
    ∃ u, swapper.compile bareConvention = .ok u ∧ ∃ r ∈ u.routines, r.interference.interferes 6 7 = true ∧
      u.code.operands.register? 6 = some bareConvention.result ∧
      u.code.operands.register? 7 ≠ some bareConvention.result := by
  have hargs : bareConvention.args.Nodup := by decide
  have htyped : swapper.FunctionsTyped := by
    intro d hd id s hid hs
    obtain rfl := List.mem_singleton.mp hd
    cases hid
    cases hs
    rfl
  have hapart : swapper.LocalsApart := List.pairwise_singleton _ _
  have hrun : (swapper.compile bareConvention).toOption.any (fun u => decide (∃ r ∈ u.routines,
      r.interference.interferes 6 7 = true ∧ u.code.operands.register? 6 = some bareConvention.result)) = true := by
    decide +kernel
  cases hu : swapper.compile bareConvention with
  | error e => rw [hu] at hrun; cases hrun
  | ok u =>
    rw [hu] at hrun
    obtain ⟨r, hr, hxy, hx⟩ := of_decide_eq_true hrun
    exact ⟨hargs, htyped, hapart, u, rfl, r, hr, hxy, hx, interfering_operands_hold_different_registers _ hargs _
      htyped hapart u hu r hr 6 7 hxy _ hx⟩

theorem Program.compile_spares {conv : Convention} {p : Program} (htyped : p.FunctionsTyped)
    (hapart : p.LocalsApart) {u : Compiled} (h : p.compile conv = .ok u) {i : Nat} {z : Instr}
    (hz : u.code.instrs[i]? = some z) {reg : Register} (hreg : reg ∈ conv.clobbers z.op) {y : OperandId}
    (hy : z.divisor? u.code.operands = some y ∨ y ∈ z.exposed) : u.code.operands.register? y ≠ some reg := by
  obtain ⟨rs, hspans, hall⟩ := compile_settled htyped hapart h
  -- the functions leave no position out, so one of them has the instruction
  obtain ⟨range, hmem, hf, hl⟩ := hspans.cover (Nat.zero_le i) (Array.getElem?_eq_some_iff.mp hz).1
  obtain ⟨r, hr, rfl⟩ := List.mem_map.mp hmem
  obtain ⟨r', -, -, -, hset⟩ := (mem_of_forall₂ hall).2 r hr
  refine hset.placed.spared i z y reg hf hl hz hreg (hy.imp_right fun hy => ?_)
  obtain ⟨hlive, hdest⟩ := Instr.mem_exposed.mp hy
  exact ⟨(hset.noted i z hf hl hz y).mp hlive, fun hw => hdest (Instr.writes?_eq_some.mp hw).1⟩

/-- No value sits in a register that is overwritten behind its back. In a program that compiles, whose functions
have function types and share no local variable, no operand that is live after a call, other than its result, holds
a register that calls do not keep, and neither the divisor of a division nor an operand that is live after it, other
than its result, holds a register that divisions overwrite. This needs nothing of the convention: its lists may
overlap and name a register twice. -/
theorem overwritten_registers_hold_no_live_value (conv : Convention) (p : Program) (htyped : p.FunctionsTyped)
    (hapart : p.LocalsApart) (u : Compiled) (hu : p.compile conv = .ok u) :
    ∀ (i : Nat) (z : Instr), u.code.instrs[i]? = some z →
      (z.op = .call → ∀ y ∈ z.liveOut, z.result ≠ some y →
        ∀ reg ∈ conv.callerSaved, u.code.operands.register? y ≠ some reg) ∧
      (z.op = .binary (.arith .div) ∨ z.op = .binary (.arith .mod) →
        ∀ y, (z.right = some y ∧ u.code.operands.isValue y = true) ∨ (y ∈ z.liveOut ∧ z.result ≠ some y) →
        ∀ reg ∈ conv.divisionClobbers, u.code.operands.register? y ≠ some reg) := by
  intro i z hz
  have hexposed : z.op ≠ .header → ∀ y ∈ z.liveOut, z.result ≠ some y → y ∈ z.exposed := fun hop y hlive hne =>
    Instr.mem_exposed.mpr ⟨hlive, Instr.dest?_eq_result hop ▸ hne⟩
  refine ⟨fun hop y hlive hne reg hreg => ?_, fun hop y hy reg hreg => ?_⟩
  · refine p.compile_spares htyped hapart hu hz ?_ (Or.inr (hexposed (by rw [hop]; nofun) y hlive hne))
    rw [hop]
    exact hreg
  · have hclobber : reg ∈ conv.clobbers z.op := by
      rcases hop with hop | hop <;> rw [hop] <;> exact hreg
    refine p.compile_spares htyped hapart hu hz hclobber ?_
    rcases hy with hy | ⟨hlive, hne⟩
    · exact Or.inl (Instr.divisor?_eq_some.mpr ⟨hop, hy⟩)
    · exact Or.inr (hexposed (by rcases hop with hop | hop <;> rw [hop] <;> nofun) y hlive hne)

/-- A convention that passes all arguments in one register, which calls overwrite, and divides with another. -/
def narrowConvention : Convention where
  name := "narrow"
  registers := [⟨0, "r0"⟩, ⟨1, "r1"⟩, ⟨2, "r2"⟩, ⟨3, "r3"⟩]
  args := [⟨0, "r0"⟩, ⟨0, "r0"⟩]
  result := ⟨0, "r0"⟩
  callerSaved := [⟨0, "r0"⟩]
  divisionClobbers := [⟨1, "r1"⟩]

/-- A function that needs its second parameter after two divisions and a call:

    int f(int a, int b) { return g(a / b, a % b) + b; } -/
def divider : Program where
  symbols.symbols := #[
    { name := "f", kind := .function, ty := .function [.int, .int] .int },
    { name := "g", kind := .function, ty := .function [.int, .int] .int },
    { name := "a", kind := .param, ty := .int },
    { name := "b", kind := .param, ty := .int }]
  decls := [.function 0 [2, 3] (.ret (some (.binary (.arith .add)
    (.call 1 [.binary (.arith .div) (.name 2 .int) (.name 3 .int) .int,
      .binary (.arith .mod) (.name 2 .int) (.name 3 .int) .int] .int)
    (.name 3 .int) .int)))]

/-- The second parameter has a register, which is neither the one of the call nor the one of the division. -/
theorem divider_parameter_spared : divider.FunctionsTyped ∧ divider.LocalsApart ∧
    ∃ u, divider.compile narrowConvention = .ok u ∧ u.code.operands.register? 4 = some ⟨3, "r3"⟩ ∧
      (∃ z, u.code.instrs[3]? = some z ∧ z.op = .binary (.arith .div) ∧ z.right = some 4 ∧ 2 ∈ z.liveOut ∧
        z.result ≠ some 2 ∧ ∀ reg ∈ narrowConvention.divisionClobbers, u.code.operands.register? 4 ≠ some reg ∧
          u.code.operands.register? 2 ≠ some reg) ∧
      (∃ z, u.code.instrs[7]? = some z ∧ z.op = .call ∧ 4 ∈ z.liveOut ∧ z.result ≠ some 4 ∧
        ∀ reg ∈ narrowConvention.callerSaved, u.code.operands.register? 4 ≠ some reg) := by
  have htyped : divider.FunctionsTyped := by decide
  have hapart : divider.LocalsApart := by decide
  have hrun : (divider.compile narrowConvention).toOption.any (fun u => decide (
      u.code.operands.register? 4 = some ⟨3, "r3"⟩ ∧ u.code.operands.isValue 4 = true ∧
      u.code.instrs[3]?.any (fun z => decide (z.op = .binary (.arith .div) ∧ z.right = some 4 ∧ 2 ∈ z.liveOut ∧
        z.result ≠ some 2)) = true ∧
      u.code.instrs[7]?.any (fun z => decide (z.op = .call ∧ 4 ∈ z.liveOut ∧ z.result ≠ some 4)) = true)) = true := by
    decide +kernel
  cases hu : divider.compile narrowConvention with
  | error e => rw [hu] at hrun; cases hrun
  | ok u =>
    rw [hu] at hrun
    obtain ⟨hplace, hval, hdiv, hcall⟩ := of_decide_eq_true hrun
    obtain ⟨x, hx, hdiv⟩ := (Option.any_eq_true _ _).mp hdiv
    obtain ⟨z, hz, hcall⟩ := (Option.any_eq_true _ _).mp hcall
    obtain ⟨hxop, hright, hxlive, hxres⟩ := of_decide_eq_true hdiv
    obtain ⟨hzop, hzlive, hzres⟩ := of_decide_eq_true hcall
    have spared := overwritten_registers_hold_no_live_value _ _ htyped hapart u hu
    refine ⟨htyped, hapart, u, rfl, hplace, ⟨x, hx, hxop, hright, hxlive, hxres, fun reg hreg => ⟨?_, ?_⟩⟩,
      z, hz, hzop, hzlive, hzres, (spared 7 z hz).1 hzop 4 hzlive hzres⟩
    · exact (spared 3 x hx).2 (Or.inl hxop) 4 (Or.inl ⟨hright, hval⟩) reg hreg
    · exact (spared 3 x hx).2 (Or.inl hxop) 2 (Or.inr ⟨hxlive, hxres⟩) reg hreg

end MiddleEnd
