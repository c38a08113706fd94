import MiddleEnd.Event
import MiddleEnd.Instr
import MiddleEnd.Routine

/-! Cutting an instruction table into functions, and the flow graph of each. A function starts at a
header and reaches to the next one. A block starts at the header, at every label, and after every
instruction from which control may go elsewhere; a jump right after a return stays with it. -/

namespace MiddleEnd

inductive FlowError where
  /-- A function is begun where there is no header. -/
  | orphanInstruction (instr : Nat)
  /-- No label of the function places the target of a branch. -/
  | unresolvedLabel (function : String) (instr : Nat)
  | missingTarget (instr : Nat)
  /-- A block ends beyond the table, which the numbering of the instructions does not follow. -/
  | outOfTable
  deriving DecidableEq

def FlowError.message : FlowError → String
  | orphanInstruction instr => s!"instruction {instr} is not inside any function"
  | unresolvedLabel function instr =>
    s!"branch at {instr} in `{function}` targets a label that is never placed"
  | missingTarget instr => s!"branch at {instr} has no target"
  | outOfTable => "block beyond the instruction table"

namespace FlowGraph

/-- Where each label is placed; of two places the later one counts. -/
def placedLabels (is : List Instr) : Std.ExtTreeMap OperandId Nat :=
  is.foldl (fun labels i =>
    match i.op, i.left with
    | .label, some label => labels.insert label i.id
    | _, _ => labels) ∅

/-- The jumps and branches, each with its target. -/
def branchTargets : List Instr → Except FlowError (List (Nat × OperandId))
  | [] => .ok []
  | i :: is =>
    if i.op = .jump || i.op = .branch then
      match i.target? with
      | none => .error (.missingTarget i.id)
      | some label => do return (i.id, label) :: (← branchTargets is)
    else branchTargets is

/-- The position that each branch goes to. -/
def resolveTargets (function : String) (labels : Std.ExtTreeMap OperandId Nat) :
    List (Nat × OperandId) → Except FlowError (List (Nat × Nat))
  | [] => .ok []
  | (src, label) :: branches =>
    match labels[label]? with
    | none => .error (.unresolvedLabel function src)
    | some dst => do return (src, dst) :: (← resolveTargets function labels branches)

/-- The block start that an instruction causes in a function that ends at `last`. -/
def leader? (c : Code) (last : Nat) (i : Instr) : Option Nat :=
  match i.op with
  | .label => some i.id
  | .jump | .branch => if i.id < last then some (i.id + 1) else none
  | .ret =>
    if i.id < last && !c.instrs[i.id + 1]?.any (·.op = .jump) then some (i.id + 1) else none
  | _ => none

/-- The positions at which blocks start, ascending. -/
def leaders (c : Code) (first last : Nat) (targets : List (Nat × Nat)) : List Nat :=
  let starts := (c.slice first last).filterMap (leader? c last)
  (Std.ExtTreeSet.ofList (first :: starts ++ targets.map (·.2))).toList

/-- The blocks that start at the given positions, the last of which ends at `last`. -/
def blocksFrom (last : Nat) : List Nat → List Block
  | [] => []
  | [start] => [{ first := start, last }]
  | start :: next :: rest => { first := start, last := next - 1 } :: blocksFrom last (next :: rest)

/-- The blocks to which control goes after the one that ends with an instruction `op`. -/
def successors (op : Opcode) (fallthrough target : Option Nat) : List Nat :=
  match op with
  | .jump => target.toList
  | .branch => fallthrough.toList ++ target.toList
  | .ret => []
  | _ => fallthrough.toList

/-- The edges out of a block that ends within the table. -/
def edgesOf (c : Code) (starts : List Nat) (targets : Std.ExtTreeMap Nat Nat) (b : Block)
    (id : Nat) : Except FlowError (List (Nat × Nat)) :=
  match c.instrs[b.last]? with
  | none => .error .outOfTable
  | some i =>
    let fallthrough := if id + 1 < starts.length then some (id + 1) else none
    let target := targets[b.last]?.bind (starts.idxOf? ·)
    .ok ((successors i.op fallthrough target).map (id, ·))

/-- The flow graph of the function `name` that stands from `first` to `last`. -/
def build (c : Code) (name : String) (first last : Nat) : Except FlowError FlowGraph := do
  let is := c.slice first last
  let branches ← branchTargets is
  let targets ← resolveTargets name (placedLabels is) branches
  let starts := leaders c first last targets
  let blocks := blocksFrom last starts
  let byBranch := targets.foldl (fun m t => m.insert t.1 t.2) (∅ : Std.ExtTreeMap Nat Nat)
  let edges ← blocks.zipIdx.mapM fun b => edgesOf c starts byBranch b.1 b.2
  return {
    graph := (Digraph.ofVals blocks).linkAll edges.flatten
    head := (starts.idxOf? first).getD 0 }

end FlowGraph

/-- The part of a table that one function takes up. -/
structure Piece where
  symbol : SymbolId
  name : String
  first : Nat
  last : Nat
  deriving DecidableEq

namespace Code

/-- The function that starts here: a header whose operand is a symbol of function type. -/
def header? (symbols : SymbolTable) (c : Code) (i : Instr) : Option (SymbolId × String) := do
  guard (i.op = .header)
  let id ← (← c.operands.get? (← i.result)).symbol?
  let s ← symbols.get? id
  guard s.ty.isFunction
  return (id, s.name)

/-- The pieces from each of the given headers to the next. -/
def cut (size : Nat) : List (Nat × SymbolId × String) → List Piece
  | [] => []
  | [(first, symbol, name)] => [⟨symbol, name, first, size - 1⟩]
  | (first, symbol, name) :: next :: rest =>
    ⟨symbol, name, first, next.1 - 1⟩ :: cut size (next :: rest)

/-- The headers with the positions they stand at. -/
def headers (symbols : SymbolTable) (c : Code) : List (Nat × SymbolId × String) :=
  c.instrs.toList.zipIdx.filterMap fun i => (c.header? symbols i.1).map (i.2, ·)

/-- Where a function is begun: at the start of the table, and wherever a header ended the function before. -/
def rounds (symbols : SymbolTable) (c : Code) : List Nat :=
  if c.instrs.size = 0 then [] else 0 :: ((c.headers symbols).map (·.1)).filter (0 < ·)

/-- The header that a function begun at `first` has to have there. -/
def headerAt (symbols : SymbolTable) (c : Code) (first : Nat) : Except FlowError (Nat × SymbolId × String) :=
  match c.instrs[first]?.bind (c.header? symbols) with
  | some h => .ok (first, h)
  | none => .error (.orphanInstruction first)

def pieces (symbols : SymbolTable) (c : Code) : Except FlowError (List Piece) := do
  return cut c.instrs.size (← (c.rounds symbols).mapM (c.headerAt symbols))

def routine (c : Code) (p : Piece) : Except FlowError Routine := do
  let flow ← FlowGraph.build c p.name p.first p.last
  return { symbol := p.symbol, first := p.first, last := p.last, flow }

/-- The functions of a table in order. -/
def routines (symbols : SymbolTable) (c : Code) : Except FlowError (List Routine) := do
  (← c.pieces symbols).mapM c.routine

/-- One report for each piece up to the first that has no flow graph. -/
def pieceLog (c : Code) : List Piece → List Event
  | [] => []
  | p :: ps =>
    match c.routine p with
    | .ok r => .builtFunction p.name p.first p.last r.flow.size :: pieceLog c ps
    | .error _ => []

def routinesLog (symbols : SymbolTable) (c : Code) : List Event :=
  match c.pieces symbols with
  | .ok ps => c.pieceLog ps
  | .error _ => []

end Code

end MiddleEnd
