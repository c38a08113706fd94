import MiddleEnd.Proofs.Allocation.Arena
import MiddleEnd.Proofs.Code
import MiddleEnd.Proofs.Source.Semantics

/-! Execution of three-address code, one instruction at a time. Where the values of a function are kept is
left to a `Storage`: there is one in which every value has a variable of its own, and one in which a value is
found at the location it was given. All else, the globals and the memory of arrays, is the same for both. -/

namespace MiddleEnd

/-- What an execution shares with the functions it calls. -/
structure World where
  globals : SymbolId → Word
  memory : Memory

structure Meaning extends Operators where
  /-- The result of a call and the world it leaves behind. -/
  call : SymbolId → List Word → World → Option (Word × World)

/-- A way to keep the values of a function. -/
structure Storage (σ : Type) where
  read : σ → OperandId → Option Word
  write : σ → OperandId → Word → Option σ
  /-- What an instruction does to the storage besides writing its result. -/
  overwrite : Opcode → σ → σ

structure State (σ : Type) where
  values : σ
  world : World

inductive Config (σ : Type) where
  | running (pc : Nat) (state : State σ)
  | returned (value : Option Word) (world : World)

/-- The instruction at a position of a function that stands from `first` to `last`. -/
def Code.fetch (c : Code) (first last pos : Nat) : Option Instr :=
  if first ≤ pos ∧ pos ≤ last then c.instrs[pos]? else none

theorem Code.fetch_eq_some {c : Code} {first last pos : Nat} {z : Instr} : c.fetch first last pos = some z ↔
    first ≤ pos ∧ pos ≤ last ∧ c.instrs[pos]? = some z := by
  rw [Code.fetch, Option.ite_none_right_eq_some, and_assoc]

def Arena.symbol? (a : Arena) (y : OperandId) : Option SymbolId := (a.get? y).bind (·.symbol?)

theorem Arena.symbol?_of_tag {a : Arena} {y : OperandId} {tag : Tag} (h : a.tag? y = some tag) :
    a.symbol? y = none := by
  obtain ⟨o, ho, htag⟩ := Option.bind_eq_some_iff.mp h
  rw [symbol?, ho]
  revert htag
  rw [Operand.tag?, Option.bind_some, Operand.symbol?]
  cases o.kind <;> simp

namespace Storage

variable {σ : Type} (S : Storage σ) (M : Meaning) (c : Code) (first last : Nat)

def word (st : State σ) (y : OperandId) : Option Word := do
  let o ← c.operands.get? y
  if o.isValue then S.read st.values y
  else
    match o.kind with
    | .symbol id => some (st.world.globals id)
    | .int v => some v
    | _ => none

def assign (st : State σ) (y : OperandId) (v : Word) : Option (State σ) := do
  let o ← c.operands.get? y
  if o.isValue then return { st with values := ← S.write st.values y v }
  else
    match o.kind with
    | .symbol id => some { st with world.globals := Function.update st.world.globals id v }
    | _ => none

/-- Writes the result of the instruction at `pc` and goes on behind it. -/
def finish (pc : Nat) (st : State σ) (result : Option OperandId) (v : Word) : Option (Config σ) := do
  return .running (pc + 1) (← S.assign c st (← result) v)

def goto (st : State σ) (label : Option OperandId) : Option (Config σ) := do
  return .running (← c.labelAt? first last (← label)) st

def step (pc : Nat) (st : State σ) : Option (Config σ) := do
  let z ← c.fetch first last pc
  match z.op with
  | .header | .label => return .running (pc + 1) st
  | .assign | .arg _ | .param _ => S.finish c pc st z.result (← S.word c st (← z.left))
  | .unary op => S.finish c pc st z.result (← M.unary op (← S.word c st (← z.left)))
  | .binary op =>
    let l ← S.word c st (← z.left)
    let st' := { st with values := S.overwrite z.op st.values }
    let r ← S.word c st' (← z.right)
    S.finish c pc st' z.result (← M.binary op l r)
  | .address =>
    let id ← c.operands.symbol? (← z.left)
    let offset ← S.word c st (← z.right)
    S.finish c pc st z.result (M.base id + offset)
  | .load =>
    let address ← S.word c st (← z.left)
    S.finish c pc st z.result (st.world.memory address)
  | .store =>
    let address ← S.word c st (← z.left)
    let v ← S.word c st (← z.right)
    return .running (pc + 1) { st with world.memory := Function.update st.world.memory address v }
  | .call =>
    let id ← c.operands.symbol? (← z.left)
    let (v, world) ← M.call id (← z.args.mapM (S.word c st)) st.world
    let st' : State σ := ⟨S.overwrite z.op st.values, world⟩
    match z.result with
    | none => return .running (pc + 1) st'
    | some y => S.finish c pc st' (some y) v
  | .branch =>
    let test ← S.word c st (← z.left)
    if test = 0 then goto c first last st z.right else return .running (pc + 1) st
  | .jump => goto c first last st z.left
  | .ret =>
    match z.left with
    | none => return .returned none st.world
    | some y => return .returned (some (← S.word c st y)) st.world

end Storage

/-- The configuration after some steps, unless one of them fails; `S k` keeps the values in step `k`. -/
def run {σ : Type} (S : Nat → Storage σ) (M : Meaning) (c : Code) (first last : Nat) (k : Config σ) :
    Nat → Option (Config σ)
  | 0 => some k
  | n + 1 => do
    match ← run S M c first last k n with
    | .running pc st => (S n).step M c first last pc st
    | .returned v w => return .returned v w

/-- Every value has a variable of its own. -/
def Storage.virtual : Storage (OperandId → Word) where
  read s y := some (s y)
  write s y v := some (Function.update s y v)
  overwrite _ s := s

/-- The registers of a machine, and the frame of a function with a slot for each operand. -/
structure Physical where
  registers : Register → Word
  frame : OperandId → Word

def Physical.read (a : Arena) (s : Physical) (y : OperandId) : Option Word :=
  (a.location y).map fun
    | .register reg => s.registers reg
    | .frame => s.frame y

def Physical.write (a : Arena) (s : Physical) (y : OperandId) (v : Word) : Option Physical :=
  (a.location y).map fun
    | .register reg => { s with registers := Function.update s.registers reg v }
    | .frame => { s with frame := Function.update s.frame y v }

def Physical.spoil (regs : List Register) (junk : Register → Word) (s : Physical) : Physical :=
  { s with registers := fun reg => if reg ∈ regs then junk reg else s.registers reg }

/-- Every value is at its location. A call leaves `junk` in the registers that a callee need not save, and a
division in those that it works with. -/
def Storage.physical (conv : Convention) (a : Arena) (junk : Register → Word) : Storage Physical where
  read := Physical.read a
  write := Physical.write a
  overwrite
    | .call => Physical.spoil conv.callerSaved junk
    | .binary (.arith .div) | .binary (.arith .mod) => Physical.spoil conv.divisionClobbers junk
    | _ => id

end MiddleEnd
