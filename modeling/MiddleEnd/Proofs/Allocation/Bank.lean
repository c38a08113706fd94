import MiddleEnd.Allocation.Bank
import MiddleEnd.Proofs.Allocation.Footprint
import MiddleEnd.Proofs.Allocation.Target
import MiddleEnd.Proofs.Bank

/-! Allocation on operands as they are stored. As long as the operands that it looks at are there, each phase does to
them what it does to the arena they stand for; so it never comes upon an operand in two places. -/

namespace MiddleEnd

namespace Arena

variable {a : Arena}

theorem size_modify (a : Arena) (x : OperandId) (f : Operand → Operand) : (a.modify x f).size = a.size :=
  Array.size_modify

theorem outline_bank (a : Arena) : a.bank.outline = a.unplaced := by
  simp only [Bank.outline, bank, unplaced, Array.map_map]
  rfl

/-- Folds over banks do what folds over arenas do, as long as no step needs an operand that is not there. -/
theorem foldlM_bank {α : Type} {l : List α} {f : Bank → α → Except Fault Bank} {g : Arena → α → Arena}
    (hstep : ∀ b, ∀ x ∈ l, b.size = a.size → f b.bank x = .ok (g b x).bank ∧ (g b x).size = b.size) :
    l.foldlM f a.bank = .ok (l.foldl g a).bank ∧ (l.foldl g a).size = a.size := by
  refine foldlM_eq_foldl (P := fun b : Arena => b.size = a.size) (fun b x hx hb => ?_) rfl
  obtain ⟨hok, hsize⟩ := hstep b x hx hb
  exact ⟨hok, hsize.trans hb⟩

theorem pin_bank (conv : Convention) {x : OperandId} (hx : x < a.size) :
    a.bank.pin conv x = .ok (a.modify x conv.pinOperand).bank := by
  obtain ⟨o, ho⟩ := exists_of_lt_size hx
  have htag : a.tag? x = o.cell.tag? := by rw [tag?, ho, Option.bind_some]; rfl
  have hpin : a.bank.pin conv x = (conv.pin a x).map bank := by
    rw [Bank.pin, Convention.pin, isResolved_bank hx, fetch_bank ho, htag]
    simp only [bind, Except.bind]
    split
    case isTrue => rfl
    case isFalse =>
      cases o.cell.tag?.bind conv.fixed? with
      | none => rfl
      | some place =>
        cases place with
        | register reg => exact assign_bank ho reg
        | frame => exact spill_bank ho
  rw [hpin, conv.pin_eq]
  rfl

theorem spillParam_bank (conv : Convention) {z : Instr} (hz : ∀ x ∈ z.mentions, x < a.size) :
    a.bank.spillParam conv z = .ok (conv.spillParam a z).bank := by
  unfold Bank.spillParam Convention.spillParam
  cases z.op with
  | param pos =>
    cases hresult : z.result with
    | none => rfl
    | some x =>
      have hx : x < a.size := hz x (by simp [Instr.mentions, hresult])
      obtain ⟨o, ho⟩ := exists_of_lt_size hx
      by_cases hpos : conv.args.length ≤ pos <;> cases hvalue : a.isValue x <;>
        simp [hpos, hvalue, isValue_bank hx, spill_bank ho, bind, Except.bind, pure, Except.pure]
  | _ => rfl

theorem size_spillParam (conv : Convention) (a : Arena) (z : Instr) : (conv.spillParam a z).size = a.size := by
  unfold Convention.spillParam
  repeat' split
  all_goals first | exact a.size_modify _ _ | rfl

theorem pinInstr_bank (conv : Convention) {z : Instr} (hz : ∀ x ∈ z.mentions, x < a.size) :
    a.bank.pinInstr conv z = .ok (conv.pinAll a z).bank ∧ (conv.pinAll a z).size = a.size := by
  obtain ⟨hpins, hsize⟩ := foldlM_bank (a := a) (l := z.mentions) (f := Bank.pin conv)
    fun b x hx hb => ⟨pin_bank conv (hb.symm ▸ hz x hx), b.size_modify x conv.pinOperand⟩
  constructor
  · rw [Bank.pinInstr, hpins]
    exact spillParam_bank conv (hsize.symm ▸ hz)
  · exact (size_spillParam conv _ z).trans hsize

theorem restrictAll_bank (regs : List Register) {ids : List OperandId} (hids : ∀ x ∈ ids, x < a.size) :
    a.bank.restrictAll regs ids = .ok (a.restrictAll regs ids).bank ∧ (a.restrictAll regs ids).size = a.size := by
  refine foldlM_bank fun b x hx hb => ?_
  obtain ⟨o, ho⟩ := exists_of_lt_size (hb.symm ▸ hids x hx : x < b.size)
  exact ⟨restrict_bank ho regs, b.size_modify x _⟩

theorem storedDivisor?_bank {z : Instr} (hz : ∀ x ∈ z.mentions, x < a.size) :
    z.storedDivisor? a.bank = .ok (z.divisor? a) := by
  have hright : z.right.filterM a.bank.isValue = .ok (z.right.filter a.isValue) := by
    cases hr : z.right with
    | none => rfl
    | some x =>
      rw [Option.filterM, isValue_bank (hz x (by simp [Instr.mentions, hr])), Option.filter_some]
      cases a.isValue x <;> rfl
  unfold Instr.storedDivisor? Instr.divisor?
  cases z.op with
  | binary op =>
    cases op with
    | arith op =>
      cases op with
      | div | mod => exact hright
      | _ => rfl
    | _ => rfl
  | _ => rfl

theorem restrictAll_nil (a : Arena) (ids : List OperandId) : a.restrictAll [] ids = a := by
  induction ids with
  | nil => rfl
  | cons x ids ih =>
    rw [restrictAll, List.foldl_cons, show a.restrict x [] = a from modify_eq_self fun _ _ => rfl]
    exact ih

theorem restrictInstr_bank (conv : Convention) {z : Instr} (hz : ∀ x, x ∈ z.mentions ∨ x ∈ z.liveOut → x < a.size) :
    a.bank.restrictInstr conv z = .ok (conv.restrictInstr a z).bank ∧ (conv.restrictInstr a z).size = a.size := by
  have hdivisor : ∀ x ∈ (z.divisor? a).toList, x < a.size := fun x hx =>
    lt_size_of_isValue (Instr.divisor?_eq_some.mp (Option.mem_toList.mp hx)).2.2
  have hexposed : ∀ x ∈ z.exposed.toList, x < a.size := fun x hx =>
    hz x (Or.inr (Instr.mem_exposed.mp (Std.ExtTreeSet.mem_toList.mp hx)).1)
  obtain ⟨hfirst, hsize⟩ := restrictAll_bank (conv.clobbers z.op) hdivisor
  obtain ⟨hrest, hsize'⟩ := restrictAll_bank (conv.clobbers z.op) (hsize.symm ▸ hexposed)
  have hall : conv.restrictInstr a z =
      (a.restrictAll (conv.clobbers z.op) (z.divisor? a).toList).restrictAll (conv.clobbers z.op) z.exposed.toList :=
    List.foldl_append
  rw [hall, Bank.restrictInstr, storedDivisor?_bank fun x hx => hz x (Or.inl hx)]
  refine ⟨?_, hsize'.trans hsize⟩
  simp only [bind, Except.bind, hfirst, hrest]
  split
  case isTrue hnone =>
    rw [List.isEmpty_iff.mp hnone, restrictAll_nil, restrictAll_nil]
    rfl
  case isFalse => rfl

theorem held_bank {ids : List OperandId} (hids : ∀ x ∈ ids, x < a.size) : a.bank.held ids = .ok (a.held ids) := by
  induction ids with
  | nil => rfl
  | cons x ids ih =>
    obtain ⟨o, ho⟩ := exists_of_lt_size (hids x List.mem_cons_self)
    obtain ⟨cells, hcells, hheld⟩ := Except.bind_eq_ok.mp (ih fun y hy => hids y (List.mem_cons_of_mem _ hy))
    have hx : a.register? x = o.cell.register := by rw [register?, ho, Option.bind_some]; rfl
    rw [Bank.held, List.mapM_cons, fetch_bank ho, hcells]
    rw [held, List.filterMap_cons, hx, ← held, ← Except.ok.inj hheld]
    cases hreg : o.cell.register <;> simp [bind, Except.bind, pure, Except.pure, hreg]

end Arena

def Coloring.stored (s : Coloring) : StoredColoring where
  bank := s.operands.bank
  choices := s.choices

def Code.stored (c : Code) : StoredCode where
  instrs := c.instrs
  bank := c.operands.bank

def Allocation.stored (al : Allocation) : StoredAllocation where
  code := al.code.stored
  routine := al.routine
  passes := al.passes
  choices := al.choices

theorem Code.outline_stored (c : Code) : c.stored.outline = c.unplaced := by
  rw [StoredCode.outline, stored, Arena.outline_bank]
  rfl

namespace Interference

variable {g : Interference} {registers : List Register} {s : Coloring} {x : OperandId}

theorem colorCell_stored (hx : x < s.operands.size) (hnear : ∀ y ∈ g.neighbors x, y < s.operands.size) :
    g.colorCell registers s.stored x = .ok (g.turn registers s x).stored := by
  obtain ⟨o, ho⟩ := Arena.exists_of_lt_size hx
  have hrestricted : s.operands.restricted x = o.cell.restricted := by rw [Arena.restricted, ho]; rfl
  have hheld : s.operands.bank.held (g.neighbors x).toList = .ok (s.operands.held (g.neighbors x).toList) :=
    Arena.held_bank fun y hy => hnear y (Std.ExtTreeSet.mem_toList.mp hy)
  have hcolor : g.colorCell registers s.stored x = (g.colorOne registers s x).map Coloring.stored := by
    rw [colorCell, colorOne, Coloring.stored, Arena.isResolved_bank hx, hheld, Arena.fetch_bank ho, free?, hrestricted]
    simp only [bind, Except.bind]
    split
    case isTrue => rfl
    case isFalse =>
      cases firstFree? (s.operands.held (g.neighbors x).toList) o.cell.restricted registers with
      | none =>
        simp only [Arena.spill_bank ho]
        rfl
      | some reg =>
        simp only [Arena.assign_bank ho reg]
        cases s.operands.assign x reg <;> rfl
  rw [hcolor, colorOne_eq]
  rfl

theorem size_turn (g : Interference) (registers : List Register) (s : Coloring) (x : OperandId) :
    (g.turn registers s x).operands.size = s.operands.size := by
  unfold turn
  split
  case isTrue => rfl
  case isFalse => exact Arena.size_modify _ _ _

theorem colorBank_bank (registers : List Register) {a : Arena} (hx : ∀ x ∈ g.order, x < a.size)
    (hnear : ∀ x y, y ∈ g.neighbors x → y < a.size) :
    g.colorBank registers a.bank = .ok (g.order.foldl (g.turn registers) { operands := a }).stored := by
  refine (foldlM_eq_foldl (e := Coloring.stored) (P := fun s => s.operands.size = a.size)
    (fun s x hmem hs => ⟨?_, ?_⟩) (s := { operands := a }) rfl).1
  · exact colorCell_stored (hs.symm ▸ hx x hmem) fun y hy => hs.symm ▸ hnear x y hy
  · exact (g.size_turn registers s x).trans hs

end Interference

/-- Everything that an allocation looks up is there, and every operand is in one place at most. -/
structure StoredAllocation.InRange (al : StoredAllocation) : Prop where
  part : al.routine.first ≤ al.routine.last ∧ al.routine.last < al.code.instrs.size
  blocks : ∀ k b, al.routine.flow.block? k = some b →
    al.routine.first ≤ b.first ∧ b.first ≤ b.last ∧ b.last ≤ al.routine.last
  edges : ∀ k l, l ∈ al.routine.flow.succ k → l < al.routine.flow.size
  operands : ∀ z ∈ al.code.outline.slice al.routine.first al.routine.last, ∀ x, x ∈ z.mentions ∨ x ∈ z.liveOut →
    x < al.code.bank.size
  order : ∀ x ∈ al.routine.interference.order, x < al.code.bank.size
  neighbors : ∀ x y, al.routine.interference.interferes x y = true → y < al.code.bank.size
  place : ∀ y c, al.code.bank.get? y = some c → ∃ place, c.location = .ok place

/-- Where everything is there, allocation does to the operands as they are stored what it does to the arena. -/
theorem Routine.allocateStored_eq {conv : Convention} {r : Routine} {c : Code} {an : Analysis}
    (han : c.analyze r.flow = .ok an) (h : (r.place conv an).stored.InRange)
    (hsize : (r.place conv an).code.operands.size = c.operands.size) (hoperands : an.code.operands = c.operands) :
    r.allocateStored conv c.stored = .ok (r.place conv an).stored := by
  have hn : (r.place conv an).stored.code.bank.size = c.operands.size := (Arena.size_bank _).trans hsize
  have hslice : ∀ z ∈ an.code.slice r.first r.last, ∀ x, x ∈ z.mentions ∨ x ∈ z.liveOut → x < c.operands.size :=
    fun z hz x hx => hn ▸ h.operands z hz x hx
  obtain ⟨hpins, hpinned⟩ := Arena.foldlM_bank (a := c.operands) (f := Bank.pinInstr conv) fun b z hz hb =>
    Arena.pinInstr_bank conv fun x hx => hb ▸ hslice z hz x (Or.inl hx)
  obtain ⟨hrestricts, hprepared⟩ := Arena.foldlM_bank (f := Bank.restrictInstr conv) fun b z hz hb =>
    Arena.restrictInstr_bank conv fun x hx => hb.trans hpinned ▸ hslice z hz x hx
  have hprepare : r.prepare conv an = (an.code.slice r.first r.last).foldl conv.restrictInstr
      ((an.code.slice r.first r.last).foldl conv.pinAll c.operands) := by rw [prepare, hoperands]
  have hcolor := Interference.colorBank_bank (g := an.code.interference an.flow) conv.registers (a := r.prepare conv an)
    (fun x hx => by rw [hprepare, hprepared, hpinned]; exact hn ▸ h.order x hx)
    (fun x y hy => by
      rw [hprepare, hprepared, hpinned]
      exact hn ▸ h.neighbors x y (Std.ExtTreeSet.contains_iff_mem.mpr hy))
  rw [hprepare] at hcolor
  rw [allocateStored, Code.outline_stored, Code.analyze_unplaced, han]
  simp only [Except.map, bind, Except.bind, Code.interference_unplaced, Code.slice_unplaced]
  rw [if_pos ⟨Nat.le_succ_of_le h.part.1, h.part.2⟩, show c.stored.bank = c.operands.bank from rfl]
  simp only [hpins, hrestricts, hcolor]
  rw [place, hprepare]
  rfl

end MiddleEnd
