import MiddleEnd.Proofs.Allocation.Footprint
import MiddleEnd.Proofs.Allocation.Unit
import MiddleEnd.Proofs.Lowering.WellFormed

/-! Which operands allocation gives a place. An instruction of lowered code reads or writes every value that it
mentions, so each of them is coloured; and what is no value stays as lowering made it. -/

namespace MiddleEnd

open Builder

/-! ### The slots of lowered instructions -/

/-- A label or a jump mentions one label and nothing else, and what is placed is a label. -/
structure Code.Slotted (c : Code) : Prop where
  right : ∀ (i : Nat) (z : Instr), c.instrs[i]? = some z → z.op = .label ∨ z.op = .jump → z.right = none
  placed : ∀ y k, c.places y k = true → c.operands.isLabel y = true

theorem Code.Cumulative.right : Code.Cumulative fun c d =>
    (∀ (i : Nat) (z : Instr), c.instrs[i]? = some z → z.op = .label ∨ z.op = .jump → z.right = none) →
      ∀ (i : Nat) (z : Instr), d.instrs[i]? = some z → z.op = .label ∨ z.op = .jump → z.right = none where
  refl := fun _ h => h
  trans := fun h k hc => k (h hc)
  operand := fun _ _ h => h
  symbol := fun _ _ _ h => h
  instr := fun c z hz h i x hx => by
    rw [getElem?_addInstr] at hx
    split at hx
    · cases hx
      exact hz
    · exact h i x hx

theorem lowerDecls_slotted {symbols : SymbolTable} {ds : List Decl} {b b' : Builder} {u : Unit}
    (h : lowerDecls symbols ds b = .ok u b') (hb : b.code.Slotted) : b'.code.Slotted := by
  induction ds generalizing b with
  | nil =>
    simp only [lowerDecls] at h
    obtain ⟨-, rfl⟩ := LowerM.pure_eq_ok.mp h
    exact hb
  | cons d ds ih =>
    simp only [lowerDecls, LowerM.bind_eq_ok] at h
    obtain ⟨_, b₁, hd, hds⟩ := h
    apply ih hds
    cases d with
    | global id init =>
      rw [lowerGlobal_eq_ok hd]
      exact hb
    | function id params body =>
      obtain ⟨hlands, -⟩ := lowerFunction_lands hd
      refine ⟨makes_lowerFunction Code.Cumulative.right.clausal hd hb.right, fun y k hp => ?_⟩
      rcases Nat.lt_or_ge k b.code.instrs.size with hlt | hge
      · obtain ⟨x, hx, hop⟩ := (Code.places_iff _ y k).mp hp
        have hx := hlands.grows.instr_of_lt hx hlt
        exact hlands.grows.isLabel (hb.placed y k ((Code.places_iff _ y k).mpr ⟨x, hx, hop⟩))
      · exact hlands.placed y k hge hp

theorem Program.lower_slotted {p : Program} {l : Lowered} (h : p.lower = .ok l) : l.code.Slotted := by
  obtain ⟨b, hb, hcode⟩ := lowerProgram_eq_ok h
  rw [hcode]
  exact lowerDecls_slotted hb ⟨fun i z hz => by simp at hz, fun y k hp => by simp [Code.places] at hp⟩

/-- Which operands are values: the temporaries, and the variables of functions that fit in a register. -/
def OperandKind.isValue (symbols : SymbolTable) : OperandKind → Bool
  | .temp _ _ => true
  | .symbol id => (symbols.get? id).any (·.isRegisterCandidate)
  | .label _ => false
  | .int _ => false

theorem Arena.Fresh.isValue_eq {symbols : SymbolTable} {a : Arena} (h : a.Fresh symbols) {y : OperandId} {o : Operand}
    (ho : a.get? y = some o) : o.isValue = o.kind.isValue symbols := by
  rcases h.operand y o ho with (⟨t, tag, rfl⟩ | ⟨l, rfl⟩ | ⟨v, rfl⟩) | ⟨id, s, hs, -, rfl⟩
  · rfl
  · rfl
  · rfl
  · simp only [Symbol.operand, OperandKind.isValue, hs, Option.any_some]

theorem Arena.Fresh.bare_eq {symbols : SymbolTable} {a : Arena} (h : a.Fresh symbols) {y : OperandId} {o : Operand}
    (ho : a.get? y = some o) : o.bare = o := by
  rcases h.operand y o ho with (⟨t, tag, rfl⟩ | ⟨l, rfl⟩ | ⟨v, rfl⟩) | ⟨id, s, -, -, rfl⟩ <;> rfl

theorem Arena.Fresh.isValue_of_isLabel {symbols : SymbolTable} {a : Arena} (h : a.Fresh symbols) {y : OperandId}
    (hy : a.isLabel y = true) : a.isValue y = false := by
  obtain ⟨o, ho, hl⟩ := (Option.any_eq_true _ _).mp hy
  rw [Arena.isValue, ho, Option.any_some, h.isValue_eq ho]
  unfold Operand.isLabel at hl
  split at hl
  case h_1 l hk => rw [hk]; rfl
  case h_2 => cases hl

theorem Code.Formed.isValue_of_header {symbols : SymbolTable} {ds : List Decl} {c : Code} (hc : c.Formed symbols ds)
    {i : Nat} {z : Instr} (hz : c.instrs[i]? = some z) (hop : z.op = .header) {y : OperandId} (hy : z.result = some y) :
    c.operands.isValue y = false := by
  obtain ⟨⟨id, name⟩, hh⟩ := hc.header i z hz hop
  obtain ⟨x, hx, hh⟩ := (Code.mem_headers symbols c i _).mp hh
  obtain rfl : z = x := by simpa [hz] using hx
  obtain ⟨-, y', o, s, hres, ho, hsym, hs, hfun, -⟩ := Code.header?_eq_some.mp hh
  obtain rfl : y = y' := by simpa [hy] using hres
  have hkind : o.kind = .symbol id := by
    unfold Operand.symbol? at hsym
    split at hsym
    case h_1 id' hk => cases hsym; exact hk
    case h_2 => cases hsym
  have hscalar : s.ty.isScalar = false := by
    cases hty : s.ty with
    | function => rfl
    | _ => rw [hty] at hfun; cases hfun
  rw [Arena.isValue, ho, Option.any_some, hc.sound.fresh.isValue_eq ho, hkind, OperandKind.isValue, hs,
    Option.any_some, Symbol.isRegisterCandidate, hscalar, Bool.and_false]

theorem Code.Formed.occurs_of_mentions {symbols : SymbolTable} {ds : List Decl} {c : Code} (hc : c.Formed symbols ds)
    (hslot : c.Slotted) (g : FlowGraph) {i : Nat} {z : Instr} (hz : c.instrs[i]? = some z) {y : OperandId}
    (hy : y ∈ z.mentions) (hval : c.operands.isValue y = true) : c.Occurs g i z y := by
  have hlabel : ∀ {v}, c.operands.isLabel v = true → v ≠ y := by
    rintro v hv rfl
    rw [hc.sound.fresh.isValue_of_isLabel hv] at hval
    cases hval
  -- a label in a slot is no value, so that each other slot is read or written
  have key : z.dest? = some y ∨ y ∈ z.sources := by
    have hslots : z.result = some y ∨ z.left = some y ∨ z.right = some y ∨ y ∈ z.args := by
      simpa [Instr.mentions, or_assoc] using hy
    have htarget := fun hop => hc.target i z hz hop
    cases hop : z.op with
    | header =>
      refine Or.inr ?_
      have hres : z.result ≠ some y := fun h => by
        rw [hc.isValue_of_header hz hop h] at hval
        cases hval
      simpa [Instr.sources, hop, or_assoc] using hslots.resolve_left hres
    | label =>
      have hleft : z.left ≠ some y := fun h =>
        hlabel (hslot.placed y i ((places_iff c y i).mpr ⟨z, hz, hop, h⟩)) rfl
      simpa [Instr.dest?, Instr.sources, hop, hslot.right i z hz (Or.inl hop), hleft] using hslots
    | jump =>
      obtain ⟨v, -, hv, hl, -⟩ := htarget (Or.inl hop)
      have hleft : z.left ≠ some y := fun h => hlabel hl (by simpa [Instr.target?, hop, h] using hv.symm)
      simpa [Instr.dest?, Instr.sources, hop, hslot.right i z hz (Or.inr hop), hleft] using hslots
    | branch =>
      obtain ⟨v, -, hv, hl, -⟩ := htarget (Or.inr hop)
      have hright : z.right ≠ some y := fun h => hlabel hl (by simpa [Instr.target?, hop, h] using hv.symm)
      simpa [Instr.dest?, Instr.sources, hop, hright] using hslots
    | _ => simpa [Instr.dest?, Instr.sources, hop, or_assoc] using hslots
  rcases key with h | h
  · exact Or.inl (Instr.writes?_eq_some.mpr ⟨h, hval⟩)
  · exact Or.inr (Or.inl (Instr.mem_reads.mpr ⟨h, hval⟩))

/-! ### The places of a unit -/

section Allocate

variable {conv : Convention} {c d : Code}

/-- Allocation of functions one after the other touches nothing but values, and in the end every value that occurs
in one of them has a place, whichever of them gave it. -/
theorem allocateAll_amends (htemps : c.operands.TempsAreValues) {rs : List Routine} (hrs : ∀ r ∈ rs, r.Built c)
    (hlike : c.Like d) {e : Code} {als : List Allocation} (h : allocateAll conv rs d = .ok (e, als)) :
    c.Like e ∧ d.operands.Amends (fun y => c.operands.isValue y = true) e.operands ∧
      ∀ r ∈ rs, ∀ (i : Nat) (z : Instr) (y : OperandId), r.first ≤ i → i ≤ r.last → c.instrs[i]? = some z →
        c.Occurs r.flow i z y → e.operands.isResolved y = true := by
  induction rs generalizing d als with
  | nil =>
    obtain ⟨rfl, rfl⟩ : d = e ∧ [] = als := by simpa [allocateAll] using h
    exact ⟨hlike, .refl _ _, by simp⟩
  | cons r rs ih =>
    obtain ⟨al, hal, h⟩ := Except.bind_eq_ok.mp h
    obtain ⟨⟨e', als'⟩, hrest, h⟩ := Except.bind_eq_ok.mp h
    cases h
    have hr := hrs r (by simp)
    obtain ⟨an, han, hA⟩ := Code.analyze_eq_ok (hlike.built hr)
    rw [Routine.allocate_eq_place han] at hal
    cases hal
    have hamends := (Routine.place_amends conv hr hlike htemps hA).mono fun y hy => hy.1
    have hlike' : c.Like (r.place conv an).code :=
      ⟨hlike.operands.trans hamends.like, (hlike.trans hA.alike.like).instrs⟩
    obtain ⟨hlikee, hamendse, hplaced⟩ := ih (fun s hs => hrs s (by simp [hs])) hlike' hrest
    refine ⟨hlikee, hamends.trans hamendse, fun s hs i z y hf hl hz hy => ?_⟩
    rcases List.mem_cons.mp hs with rfl | hs
    · exact hamendse.kept y (s.place_resolves hr hlike htemps hA hf hl hz hy)
    · exact hplaced s hs i z y hf hl hz hy

end Allocate

/-- Every value is placed and nothing else is. In a program that compiles, whose functions have function types, every
value that an instruction mentions has exactly one location. The values are the temporaries and the local variables
and parameters of scalar type; every other operand has no location and is kept out of no register. -/
theorem every_value_is_placed (conv : Convention) (p : Program) (htyped : p.FunctionsTyped) (u : Compiled)
    (hu : p.compile conv = .ok u) :
    (∀ (i : Nat) (z : Instr), u.code.instrs[i]? = some z → ∀ y ∈ z.mentions, u.code.operands.isValue y = true →
      ∃! loc, u.code.operands.location y = some loc) ∧
    ∀ (y : OperandId) (o : Operand), u.code.operands.get? y = some o → o.isValue = o.kind.isValue p.symbols ∧
      (o.isValue = false → o.location = none ∧ o.restricted = []) := by
  obtain ⟨l, hl, hu⟩ := Except.bind_eq_ok.mp hu
  obtain ⟨rs, hrs, hu⟩ := Except.bind_eq_ok.mp hu
  obtain ⟨⟨e, als⟩, hals, hu⟩ := Except.bind_eq_ok.mp hu
  cases hu
  have hl := mapError_eq_ok hl
  have hrs := mapError_eq_ok hrs
  have hc := p.lower_formed hl htyped
  have hfresh := hc.sound.fresh
  obtain ⟨hlike, hamends, hplaced⟩ := allocateAll_amends hfresh.tempsAreValues
    (Code.routines_built hc.sound.numbered hrs) (.refl _) (mapError_eq_ok hals)
  refine ⟨fun i z hz y hy hval => ?_, fun y o ho => ?_⟩
  · obtain ⟨live, hz⟩ := hlike.symm.instr hz
    rw [hamends.like.isValue] at hval
    -- the functions take up the whole table, so one of them has the instruction
    have hi := (Array.getElem?_eq_some_iff.mp hz).1
    obtain ⟨range, hmem, hf, hlast⟩ := (Code.routines_spans hrs).cover (Nat.zero_le i) hi
    obtain ⟨r, hr, rfl⟩ := List.mem_map.mp hmem
    have hres := hplaced r hr i _ y hf hlast hz (hc.occurs_of_mentions (p.lower_slotted hl) r.flow hz hy hval)
    rw [Arena.isResolved_eq] at hres
    obtain ⟨loc, hloc⟩ := Option.isSome_iff_exists.mp hres
    exact ⟨loc, hloc, fun loc' h => Option.some.inj (h.symm.trans hloc)⟩
  · have hbare := hamends.like y
    rw [ho, Option.map_some, eq_comm, Option.map_eq_some_iff] at hbare
    obtain ⟨o', ho', hbare⟩ := hbare
    rw [hfresh.bare_eq ho'] at hbare
    subst hbare
    refine ⟨(hfresh.isValue_eq ho' :), fun hnot => ?_⟩
    have hsame := hamends.outside y (by rw [Arena.isValue, ho', Option.any_some]; exact ne_true_of_eq_false hnot)
    have he : o = o.bare := Option.some.inj (ho.symm.trans (hsame.trans ho'))
    exact ⟨congrArg Operand.location he, congrArg Operand.restricted he⟩

/-- A function with an array, whose last statement is never reached and reads a variable that nothing else mentions:

    int f(int n) { int t[4]; int m; return t[n] + total; n = m; } -/
def dresser : Program where
  symbols.symbols := #[
    { name := "f", kind := .function, ty := .function [.int] .int },
    { name := "n", kind := .param, ty := .int },
    { name := "t", kind := .localVar, ty := .array .int 4 },
    { name := "m", kind := .localVar, ty := .int },
    { name := "total", kind := .globalVar, ty := .int }]
  decls := [.function 0 [1] (.seq
    (.ret (some (.binary (.arith .add) (.index 2 (.name 1 .int) .int) (.name 4 .int) .int)))
    (.assign 1 (.name 3 .int)))]

/-- The variable that only dead code reads has a place, and the array has none. -/
theorem dresser_drawers : dresser.FunctionsTyped ∧ ∃ u, dresser.compile bareConvention = .ok u ∧
    (∃ z, u.code.instrs[8]? = some z ∧ 11 ∈ z.mentions ∧ u.code.operands.isValue 11 = true ∧
      ∃! loc, u.code.operands.location 11 = some loc) ∧
    ∃ o, u.code.operands.get? 6 = some o ∧ o.kind = .symbol 2 ∧ o.location = none ∧ o.restricted = [] := by
  have htyped : dresser.FunctionsTyped := by decide
  have hrun : (dresser.compile bareConvention).toOption.any (fun u => decide (
      u.code.operands.isValue 11 = true ∧ u.code.instrs[8]?.any (fun z => decide (11 ∈ z.mentions)) = true ∧
      (u.code.operands.get? 6).any (fun o => decide (o.kind = .symbol 2 ∧ o.isValue = false)) = true)) = true := by
    decide +kernel
  cases hu : dresser.compile bareConvention with
  | error e => rw [hu] at hrun; cases hrun
  | ok u =>
    rw [hu] at hrun
    obtain ⟨hval, hread, harray⟩ := of_decide_eq_true hrun
    obtain ⟨z, hz, hmem⟩ := (Option.any_eq_true _ _).mp hread
    obtain ⟨o, ho, hkind⟩ := (Option.any_eq_true _ _).mp harray
    obtain ⟨hkind, hnot⟩ := of_decide_eq_true hkind
    obtain ⟨hplaced, hrest⟩ := every_value_is_placed bareConvention dresser htyped u hu
    exact ⟨htyped, u, rfl, ⟨z, hz, of_decide_eq_true hmem, hval, hplaced 8 z hz 11 (of_decide_eq_true hmem) hval⟩,
      o, ho, hkind, (hrest 6 o ho).2 hnot⟩

end MiddleEnd
