import MiddleEnd.Compile
import MiddleEnd.Proofs.Allocation.Arena

/-! What a calling convention has a say in. Analysis looks at no place, and fixing places, restricting and
colouring never fail and touch nothing else; so compiling does the same for every convention, the places apart. -/

namespace MiddleEnd

/-! ### Forgetting the places -/

/-- The arena without what allocation notes on its operands. -/
def Arena.unplaced (a : Arena) : Arena := { a with operands := a.operands.map Operand.bare }

def Code.unplaced (c : Code) : Code := { c with operands := c.operands.unplaced }

/-- The function without the list of what was put in the frame. -/
def Routine.unplaced (r : Routine) : Routine := { r with spilled := [] }

/-- What a compiled program is apart from the places of its operands. -/
def Compiled.unplaced (u : Compiled) : Compiled :=
  { u with code := u.code.unplaced, routines := u.routines.map Routine.unplaced }

namespace Arena

theorem size_unplaced (a : Arena) : a.unplaced.size = a.size := Array.size_map

@[simp] theorem isValue_unplaced (a : Arena) : a.unplaced.isValue = a.isValue := by
  funext y
  simp only [isValue, get?, unplaced, Array.getElem?_map, Option.any_map]
  rfl

theorem unplaced_modify (a : Arena) (x : OperandId) {f : Operand → Operand} (hf : ∀ o, (f o).bare = o.bare) :
    (a.modify x f).unplaced = a.unplaced := by
  simp only [unplaced, modify, mk.injEq, and_true]
  apply Array.ext_getElem?
  intro y
  rw [Array.getElem?_map, Array.getElem?_map, Array.getElem?_modify]
  split
  · rw [Option.map_map]
    congr 1
    exact funext hf
  · rfl

theorem unplaced_spill (a : Arena) (x : OperandId) : (a.spill x).unplaced = a.unplaced :=
  a.unplaced_modify x fun _ => rfl

theorem assign_succeeds {a : Arena} {x : OperandId} (reg : Register) (hx : a.isResolved x = false) :
    ∃ b, a.assign x reg = .ok b ∧ b.unplaced = a.unplaced :=
  ⟨_, assign_outside_frame reg fun _ ho => inFrame_of_unresolved hx ho, a.unplaced_modify x fun _ => rfl⟩

theorem unplaced_restrictAll (a : Arena) (regs : List Register) (ids : List OperandId) :
    (a.restrictAll regs ids).unplaced = a.unplaced := by
  induction ids generalizing a with
  | nil => rfl
  | cons x ids ih => exact (ih _).trans (a.unplaced_modify x fun _ => rfl)

end Arena

theorem Code.operands_unplaced (c : Code) : c.unplaced.operands = c.operands.unplaced := rfl

theorem Code.slice_unplaced (c : Code) (first last : Nat) : c.unplaced.slice first last = c.slice first last := rfl

/-! ### Placing never fails and changes nothing else -/

namespace Convention

variable (conv : Convention)

theorem pin_succeeds (a : Arena) (x : OperandId) : ∃ b, conv.pin a x = .ok b ∧ b.unplaced = a.unplaced := by
  unfold pin
  split
  case isTrue => exact ⟨a, rfl, rfl⟩
  case isFalse hx =>
    split
    case h_1 reg _ => exact a.assign_succeeds reg (by simpa using hx)
    case h_2 => exact ⟨_, rfl, a.unplaced_spill x⟩
    case h_3 => exact ⟨a, rfl, rfl⟩

theorem unplaced_spillParam (a : Arena) (z : Instr) : (conv.spillParam a z).unplaced = a.unplaced := by
  unfold spillParam
  split
  case h_1 =>
    split
    case isTrue => exact a.unplaced_spill _
    case isFalse => rfl
  case h_2 => rfl

theorem pinInstr_succeeds (a : Arena) (z : Instr) : ∃ b, conv.pinInstr a z = .ok b ∧ b.unplaced = a.unplaced := by
  obtain ⟨b, hb, hkept⟩ := foldlM_succeeds (P := fun b => b.unplaced = a.unplaced) (l := z.mentions)
    (fun s x hs => (conv.pin_succeeds s x).imp fun _ h => ⟨h.1, h.2.trans hs⟩) rfl
  refine ⟨conv.spillParam b z, ?_, (conv.unplaced_spillParam b z).trans hkept⟩
  rw [pinInstr, hb]
  rfl

theorem unplaced_foldl_restrictInstr (is : List Instr) (a : Arena) :
    (is.foldl conv.restrictInstr a).unplaced = a.unplaced := by
  induction is generalizing a with
  | nil => rfl
  | cons z is ih => exact (ih _).trans (a.unplaced_restrictAll _ _)

end Convention

namespace Interference

variable (g : Interference) (registers : List Register)

theorem colorOne_succeeds (s : Coloring) (x : OperandId) :
    ∃ t, g.colorOne registers s x = .ok t ∧ t.operands.unplaced = s.operands.unplaced := by
  unfold colorOne
  split
  case isTrue => exact ⟨s, rfl, rfl⟩
  case isFalse hx =>
    split
    case h_1 reg _ =>
      obtain ⟨b, hb, hkept⟩ := s.operands.assign_succeeds reg (by simpa using hx)
      rw [hb]
      exact ⟨_, rfl, hkept⟩
    case h_2 => exact ⟨_, rfl, s.operands.unplaced_spill x⟩

theorem color_succeeds (a : Arena) :
    ∃ s, g.color registers a = .ok s ∧ s.operands.unplaced = a.unplaced :=
  foldlM_succeeds (P := fun s : Coloring => s.operands.unplaced = a.unplaced)
    (fun s x hs => (g.colorOne_succeeds registers s x).imp fun _ h => ⟨h.1, h.2.trans hs⟩) rfl

end Interference

/-! ### Analysis looks at no place -/

namespace Code

variable (c : Code)

theorem withLocalSets_unplaced (g : FlowGraph) : c.unplaced.withLocalSets g = c.withLocalSets g := by
  simp only [withLocalSets, operands_unplaced, slice_unplaced, localSets_congr c.operands.isValue_unplaced]

theorem annotate_unplaced (s : Code × FlowGraph) (id : Nat) :
    annotate (s.1.unplaced, s.2) id = (annotate s id).map fun t => (t.1.unplaced, t.2) := by
  unfold annotate
  dsimp only
  cases s.2.block? id with
  | none => rfl
  | some b =>
    simp only [operands_unplaced, slice_unplaced, Scan.run_congr s.1.operands.isValue_unplaced]
    by_cases h : (Scan.run s.1.operands b.first (s.1.slice b.first b.last) b.liveOut).live = b.liveIn
    · rw [if_pos h, if_pos h]
      rfl
    · rw [if_neg h, if_neg h]
      rfl

theorem analyze_unplaced (g : FlowGraph) :
    c.unplaced.analyze g = (c.analyze g).map fun an => { an with code := an.code.unplaced } := by
  unfold analyze
  rw [withLocalSets_unplaced, show c.unplaced.holds = c.holds from rfl]
  split
  case isTrue => rfl
  case isFalse =>
    split
    case h_1 => rfl
    case h_2 passes g _ =>
      have hfold := foldlM_map (e := fun s : Code × FlowGraph => (s.1.unplaced, s.2)) (l := g.graph.ids)
        annotate_unplaced (c, g)
      simp only at hfold
      rw [hfold]
      cases g.graph.ids.foldlM annotate (c, g) with
      | error f => rfl
      | ok s => rfl

theorem interference_unplaced (g : FlowGraph) : c.unplaced.interference g = c.interference g :=
  interference_congr c.operands.isValue_unplaced rfl

end Code

/-! ### Compiling without a target -/

/-- What there is to know of a function before anything in it has a place. -/
def Routine.outline (r : Routine) (c : Code) : Except Fault (Code × Routine) := do
  let analysis ← c.analyze r.flow
  return (analysis.code, { r with
    flow := analysis.flow, interference := analysis.code.interference analysis.flow, spilled := [] })

def outlineAll : List Routine → Code → Except Fault (Code × List Routine)
  | [], c => .ok (c, [])
  | r :: rs, c => do
    let (c, done) ← r.outline c
    let (c, rest) ← outlineAll rs c
    return (c, done :: rest)

/-- The program in three-address code with its analyses, for no target in particular. -/
def Program.outline (p : Program) : Except CompileError Compiled := do
  let lowered ← p.lower.mapError .lower
  let routines ← (lowered.code.routines p.symbols).mapError .flow
  let (code, routines) ← (outlineAll routines lowered.code.unplaced).mapError .fault
  return { code, globals := lowered.globals, routines }

theorem Routine.allocate_outline (conv : Convention) (r : Routine) (c : Code) :
    (r.allocate conv c).map (fun al => (al.code.unplaced, al.routine.unplaced)) = r.outline c.unplaced := by
  unfold allocate outline
  rw [Code.analyze_unplaced]
  cases c.analyze r.flow with
  | error f => rfl
  | ok an =>
    let is := an.code.slice r.first r.last
    obtain ⟨pinned, hpin, hpinned⟩ := foldlM_succeeds (P := fun b => b.unplaced = an.code.operands.unplaced) (l := is)
      (fun s z hs => (conv.pinInstr_succeeds s z).imp fun _ h => ⟨h.1, h.2.trans hs⟩) rfl
    obtain ⟨s, hcolor, hs⟩ := (an.code.interference an.flow).color_succeeds conv.registers
      (is.foldl conv.restrictInstr pinned)
    have hoperands : s.operands.unplaced = an.code.operands.unplaced :=
      hs.trans ((conv.unplaced_foldl_restrictInstr is pinned).trans hpinned)
    simp only [Except.map, bind, Except.bind, pure, Except.pure, Code.interference_unplaced, is, hpin, hcolor] at *
    simp only [Code.unplaced, Routine.unplaced, hoperands]

theorem allocateAll_outline (conv : Convention) (rs : List Routine) (c : Code) :
    (allocateAll conv rs c).map (fun s => (s.1.unplaced, s.2.map (·.routine.unplaced))) =
      outlineAll rs c.unplaced := by
  induction rs generalizing c with
  | nil => rfl
  | cons r rs ih =>
    rw [outlineAll, allocateAll, ← r.allocate_outline conv c]
    cases r.allocate conv c with
    | error f => rfl
    | ok al =>
      change _ = Except.bind (outlineAll rs al.code.unplaced) _
      rw [← ih al.code]
      cases hrest : allocateAll conv rs al.code with
      | error f => simp only [bind, Except.bind, hrest]; rfl
      | ok s => simp only [bind, Except.bind, hrest]; rfl

theorem Program.compile_outline (conv : Convention) (p : Program) :
    (p.compile conv).map Compiled.unplaced = p.outline := by
  unfold compile outline
  cases p.lower.mapError CompileError.lower with
  | error e => rfl
  | ok l =>
    dsimp only [bind, Except.bind]
    cases (l.code.routines p.symbols).mapError CompileError.flow with
    | error e => rfl
    | ok rs =>
      dsimp only
      rw [← allocateAll_outline conv rs l.code]
      cases allocateAll conv rs l.code with
      | error f => rfl
      | ok s =>
        simp only [Except.map, Except.mapError, pure, Except.pure, Compiled.unplaced, List.map_map]
        rfl

/-- The target only affects placement. For any two conventions, a program compiles for one if and only if it
compiles for the other, and fails with the same error otherwise; and where it compiles, the two results are equal
once the locations and restrictions of the operands and the lists of spilled values are forgotten. -/
theorem target_only_affects_placement (p : Program) (conv conv' : Convention) :
    (p.compile conv).map Compiled.unplaced = (p.compile conv').map Compiled.unplaced := by
  rw [p.compile_outline conv, p.compile_outline conv']

end MiddleEnd
