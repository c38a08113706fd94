import MiddleEnd.Operand.Bank
import MiddleEnd.Proofs.Arena
import MiddleEnd.Proofs.Except

/-! Operands as they are stored, and the arena they stand for. A stored operand has a location exactly if its register
and its mark do not contradict each other. On the bank of an arena every operation does what it does on the arena. -/

namespace MiddleEnd

/-- The operand is not in a register and in the frame at once. -/
def Cell.Apart (c : Cell) : Prop := ¬(c.register.isSome = true ∧ c.inFrame = true)

/-- The operand that a symbol gets, as it is stored. -/
def Symbol.cell (id : SymbolId) (s : Symbol) : Cell := { kind := .symbol id, isValue := s.isRegisterCandidate }

/-- The operand as it is stored. -/
def Operand.cell (o : Operand) : Cell where
  kind := o.kind
  isValue := o.isValue
  register := o.register?
  inFrame := o.inFrame
  restricted := o.restricted

namespace Operand

theorem location_cell (o : Operand) : o.cell.location = .ok o.location := by
  obtain ⟨kind, isValue, location, restricted⟩ := o
  obtain _ | reg | _ := location <;> rfl

theorem operand_cell (o : Operand) : o.cell.operand = .ok o := by
  rw [Cell.operand, location_cell]
  rfl

theorem isResolved_cell (o : Operand) : o.cell.isResolved = .ok o.isResolved := by
  rw [Cell.isResolved, location_cell]
  rfl

theorem assign_cell (o : Operand) (reg : Register) : o.cell.assign reg = (o.assign reg).map cell := by
  rw [Cell.assign, Operand.assign, show o.cell.inFrame = o.inFrame from rfl]
  split
  case isTrue => rfl
  case isFalse h =>
    simpa [Except.map, cell, register?, inFrame, Location.register?, Location.isFrame] using h

end Operand

namespace Cell

variable {c : Cell}

theorem location_eq_ok_iff : (∃ place, c.location = .ok place) ↔ c.Apart := by
  obtain ⟨kind, isValue, register, inFrame, restricted⟩ := c
  cases register <;> cases inFrame <;> simp [location, Apart]

theorem getD_assign (c : Cell) (reg : Register) :
    (c.assign reg).toOption.getD c = if c.inFrame then c else { c with register := some reg } := by
  unfold assign
  split <;> rfl

end Cell

namespace Bank

variable (b : Bank)

theorem lt_size_of_get? {b : Bank} {y : OperandId} {c : Cell} (h : b.get? y = some c) : y < b.size :=
  (Array.getElem?_eq_some_iff.mp h).1

theorem exists_of_lt_size {b : Bank} {y : OperandId} (h : y < b.size) : ∃ c, b.get? y = some c :=
  ⟨_, Array.getElem?_eq_getElem h⟩

theorem ext_get? {b d : Bank} (hi : b.interned = d.interned) (h : ∀ y, b.get? y = d.get? y) : b = d := by
  cases b
  cases d
  simp only [mk.injEq]
  exact ⟨Array.ext_getElem? h, hi⟩

theorem get?_push (c : Cell) (y : OperandId) : (b.push c).2.get? y = if y = b.size then some c else b.get? y :=
  Array.getElem?_push

theorem symbol_cases (id : SymbolId) (s : Symbol) :
    (∃ y, b.interned[id]? = some y ∧ b.symbol id s = (y, b)) ∨
      (b.interned[id]? = none ∧ (b.symbol id s).1 = b.size ∧
        (∀ y, (b.symbol id s).2.get? y = if y = b.size then some (s.cell id) else b.get? y) ∧
        ∀ t, (b.symbol id s).2.interned[t]? = if t = id then some b.size else b.interned[t]?) := by
  unfold symbol
  cases h : b.interned[id]? with
  | some y => exact Or.inl ⟨y, rfl, rfl⟩
  | none => exact Or.inr ⟨rfl, rfl, b.get?_push _, fun t => Arena.interned_insert b.interned id t b.size⟩

theorem interned_symbol (id : SymbolId) (s : Symbol) : (b.symbol id s).2.interned[id]? = some (b.symbol id s).1 := by
  obtain ⟨y, hy, h⟩ | ⟨-, hfst, -, hint⟩ := b.symbol_cases id s
  · rw [h]
    exact hy
  · rw [hfst]
    exact (hint id).trans (if_pos rfl)

theorem fetch_of_get? {b : Bank} {x : OperandId} {c : Cell} (h : b.get? x = some c) : b.fetch x = .ok c := by
  rw [fetch, h]

theorem fetch_eq_ok {b : Bank} {x : OperandId} {c : Cell} : b.fetch x = .ok c ↔ b.get? x = some c := by
  unfold fetch
  cases b.get? x <;> simp

theorem update_eq_ok {b d : Bank} {x : OperandId} {f : Cell → Except Fault Cell} :
    b.update x f = .ok d ↔ ∃ c c', b.get? x = some c ∧ f c = .ok c' ∧ d.interned = b.interned ∧
      ∀ y, d.get? y = if x = y then some c' else b.get? y := by
  have hget : ∀ {c c' : Cell}, b.get? x = some c → ∀ y,
      ({ b with cells := b.cells.setIfInBounds x c' } : Bank).get? y = if x = y then some c' else b.get? y := by
    intro c c' hc y
    rw [get?, Array.getElem?_setIfInBounds, if_pos (show x < b.cells.size from lt_size_of_get? hc)]
    rfl
  simp only [update, Except.bind_eq_ok, fetch_eq_ok, pure, Except.pure, Except.ok.injEq]
  constructor
  · rintro ⟨c, hc, c', hc', rfl⟩
    exact ⟨c, c', hc, hc', rfl, hget hc⟩
  · rintro ⟨c, c', hc, hc', hi, hd⟩
    exact ⟨c, hc, c', hc', ext_get? hi.symm fun y => (hget hc y).trans (hd y).symm⟩

theorem assign_in_frame {b : Bank} {x : OperandId} {c : Cell} (hc : b.get? x = some c) (hframe : c.inFrame = true)
    (reg : Register) : b.assign x reg = .error .assignedInFrame := by
  rw [assign, update, fetch_of_get? hc]
  simp only [bind, Except.bind, Cell.assign, hframe, if_true]

end Bank

/-- The arena as it is stored. -/
def Arena.bank (a : Arena) : Bank where
  cells := a.operands.map Operand.cell
  interned := a.interned

namespace Arena

variable (a : Arena)

theorem bank_empty : ({} : Arena).bank = {} := by simp [bank]

theorem get?_bank (x : OperandId) : a.bank.get? x = (a.get? x).map Operand.cell := Array.getElem?_map

theorem size_bank : a.bank.size = a.size := Array.size_map ..

theorem arena_bank : a.bank.arena = .ok a := by
  rw [Bank.arena, bank, Array.toList_map, mapM_map_eq_ok fun o _ => o.operand_cell]
  rfl

theorem bank_push (o : Operand) : (a.push o).2.bank = (a.bank.push o.cell).2 := by
  simp [push, bank, Bank.push]

theorem bank_symbol (id : SymbolId) (s : Symbol) :
    a.bank.symbol id s = ((a.symbol id s).1, (a.symbol id s).2.bank) := by
  unfold symbol Bank.symbol
  rw [show a.bank.interned = a.interned from rfl]
  cases a.interned[id]? with
  | some y => rfl
  | none => simp [push, bank, Bank.push, Bank.size, size, Operand.cell, Operand.register?, Operand.inFrame]

variable {a} {x : OperandId} {o : Operand}

theorem fetch_bank (ho : a.get? x = some o) : a.bank.fetch x = .ok o.cell :=
  Bank.fetch_of_get? (by rw [get?_bank, ho, Option.map_some])

theorem update_bank (ho : a.get? x = some o) {f : Cell → Except Fault Cell} {g : Operand → Operand}
    (hf : f o.cell = .ok (g o).cell) : a.bank.update x f = .ok (a.modify x g).bank := by
  refine Bank.update_eq_ok.mpr ⟨o.cell, _, by rw [get?_bank, ho, Option.map_some], hf, rfl, fun y => ?_⟩
  rw [get?_bank, get?_bank, get?_modify]
  split
  case isTrue hxy => rw [← hxy, ho, Option.map_some, Option.map_some]
  case isFalse => rfl

theorem assign_bank (ho : a.get? x = some o) (reg : Register) :
    a.bank.assign x reg = (a.assign x reg).map bank := by
  by_cases hin : o.inFrame = true
  · rw [assign_in_frame ho hin, Bank.assign_in_frame (c := o.cell) (by rw [get?_bank, ho, Option.map_some]) hin]
    rfl
  · have hout : o.inFrame = false := by simpa using hin
    rw [assign_outside_frame reg fun p hp => by rw [← Option.some.inj (ho.symm.trans hp), hout]]
    refine update_bank ho ?_
    rw [o.assign_cell, Operand.assign, if_neg hin]
    rfl

theorem spill_bank (ho : a.get? x = some o) : a.bank.spill x = .ok (a.spill x).bank := update_bank ho rfl

theorem restrict_bank (ho : a.get? x = some o) (regs : List Register) :
    a.bank.restrict x regs = .ok (a.restrict x regs).bank := update_bank ho rfl

theorem isResolved_bank (hx : x < a.size) : a.bank.isResolved x = .ok (a.isResolved x) := by
  obtain ⟨o, ho⟩ := exists_of_lt_size hx
  rw [Bank.isResolved, fetch_bank ho, isResolved, ho, Option.any_some]
  exact o.isResolved_cell

theorem isValue_bank (hx : x < a.size) : a.bank.isValue x = .ok (a.isValue x) := by
  obtain ⟨o, ho⟩ := exists_of_lt_size hx
  rw [Bank.isValue, fetch_bank ho, isValue, ho, Option.any_some]
  rfl

theorem location_bank {c : Cell} (hc : a.bank.get? x = some c) : ∃ place, c.location = .ok place := by
  rw [get?_bank] at hc
  obtain ⟨o, -, rfl⟩ := Option.map_eq_some_iff.mp hc
  exact ⟨_, o.location_cell⟩

end Arena

end MiddleEnd
