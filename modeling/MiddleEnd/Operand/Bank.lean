import MiddleEnd.Operand.Arena

/-! Operands as they are stored. The register of an operand and the mark that it is in the frame are two fields, and
nothing in their types keeps both from being set. An operand with both has no location. -/

namespace MiddleEnd

structure Cell where
  kind : OperandKind
  isValue : Bool
  register : Option Register := none
  inFrame : Bool := false
  /-- Registers the operand must stay out of, in the order they were named. -/
  restricted : List Register := []
  deriving DecidableEq

namespace Cell

def tag? (c : Cell) : Option Tag :=
  match c.kind with
  | .temp _ tag => some tag
  | _ => none

def location (c : Cell) : Except Fault (Option Location) :=
  match c.register, c.inFrame with
  | some reg, false => .ok (some (.register reg))
  | none, true => .ok (some .frame)
  | none, false => .ok none
  | some _, true => .error .twoPlaces

def isResolved (c : Cell) : Except Fault Bool := return (← c.location).isSome

/-- Gives the operand a register, unless it is in the frame. -/
def assign (c : Cell) (reg : Register) : Except Fault Cell :=
  if c.inFrame then .error .assignedInFrame else .ok { c with register := some reg }

def spill (c : Cell) : Cell := { c with register := none, inFrame := true }

/-- Adds the registers that are not yet listed, each once. -/
def restrict (c : Cell) (regs : List Register) : Cell :=
  { c with restricted := regs.foldl (fun rs r => if r ∈ rs then rs else rs ++ [r]) c.restricted }

/-- The operand with the one place it is in. -/
def operand (c : Cell) : Except Fault Operand := do
  return { kind := c.kind, isValue := c.isValue, location := ← c.location, restricted := c.restricted }

end Cell

/-- The operands of a unit as they are stored. -/
structure Bank where
  cells : Array Cell := #[]
  /-- The operand of each symbol that has one. -/
  interned : Std.ExtTreeMap SymbolId OperandId := ∅
  deriving DecidableEq

namespace Bank

def size (b : Bank) : Nat := b.cells.size

def get? (b : Bank) (id : OperandId) : Option Cell := b.cells[id]?

def push (b : Bank) (c : Cell) : OperandId × Bank :=
  (b.size, { b with cells := b.cells.push c })

/-- The operand of symbol `id`, which is declared as `s`. -/
def symbol (b : Bank) (id : SymbolId) (s : Symbol) : OperandId × Bank :=
  match b.interned[id]? with
  | some o => (o, b)
  | none =>
    let (o, b) := b.push { kind := .symbol id, isValue := s.isRegisterCandidate }
    (o, { b with interned := b.interned.insert id o })

def temp (b : Bank) (t : Temp) (tag : Tag) : OperandId × Bank :=
  b.push { kind := .temp t tag, isValue := true }

def label (b : Bank) (l : Label) : OperandId × Bank :=
  b.push { kind := .label l, isValue := false }

def int (b : Bank) (value : Int64) : OperandId × Bank :=
  b.push { kind := .int value, isValue := false }

/-- The operand at a position, which has to be there. -/
def fetch (b : Bank) (id : OperandId) : Except Fault Cell :=
  match b.get? id with
  | some c => .ok c
  | none => .error .noOperand

/-- Changes one operand. -/
def update (b : Bank) (id : OperandId) (f : Cell → Except Fault Cell) : Except Fault Bank := do
  let c ← f (← b.fetch id)
  return { b with cells := b.cells.setIfInBounds id c }

def assign (b : Bank) (id : OperandId) (reg : Register) : Except Fault Bank :=
  b.update id (·.assign reg)

def spill (b : Bank) (id : OperandId) : Except Fault Bank :=
  b.update id fun c => .ok c.spill

def restrict (b : Bank) (id : OperandId) (regs : List Register) : Except Fault Bank :=
  b.update id fun c => .ok (c.restrict regs)

def isValue (b : Bank) (id : OperandId) : Except Fault Bool := return (← b.fetch id).isValue

def isResolved (b : Bank) (id : OperandId) : Except Fault Bool := do
  (← b.fetch id).isResolved

/-- What the operands are, without what was decided about them. -/
def outline (b : Bank) : Arena where
  operands := b.cells.map fun c => { kind := c.kind, isValue := c.isValue }
  interned := b.interned

/-- The operands, each with the place it is in. -/
def arena (b : Bank) : Except Fault Arena := do
  return { operands := (← b.cells.toList.mapM Cell.operand).toArray, interned := b.interned }

end Bank

end MiddleEnd
