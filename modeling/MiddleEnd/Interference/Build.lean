import MiddleEnd.Event
import MiddleEnd.Instr
import MiddleEnd.Routine

/-! The interference graph of a function whose instructions know their live-out sets. A value that
is written interferes with everything live right after, and the values live after a header, which
arrive all at once, interfere with one another. -/

namespace MiddleEnd

/-- An instruction of a block, and the one after it if that is in the block too. -/
structure BlockInstr where
  block : Nat
  pos : Nat
  instr : Instr
  next : Option Instr

/-- The instructions of the blocks in order. -/
def Code.blockInstrs (c : Code) (g : FlowGraph) : List BlockInstr :=
  g.graph.ids.flatMap fun id =>
    (g.block? id).elim [] fun b =>
      ((c.slice b.first b.last).zipIdx b.first).map fun i =>
        { block := id, pos := i.2, instr := i.1
          next := if i.2 < b.last then c.instrs[i.2 + 1]? else none }

namespace BlockInstr

/-- The values that occur: the one written, those read, and those live after. -/
def touched (a : Arena) (s : BlockInstr) : List OperandId :=
  (s.instr.writes? a).toList ++ s.instr.reads a ++ s.instr.liveOut.toList

/-- A comparison that writes the condition of the branch right after it. -/
def feedsBranch (s : BlockInstr) (defined : OperandId) : Bool :=
  match s.instr.op with
  | .binary (.rel _) => s.next.any fun i => i.op = .branch && i.left = some defined
  | _ => false

def bundle? (a : Arena) (s : BlockInstr) : Option Bundle :=
  (s.instr.writes? a).map fun defined =>
    { defined, block := s.block, instr := s.pos
      interferes := s.instr.liveOut.erase defined
      feedsBranch := s.feedsBranch defined }

/-- Adds the edges that an instruction gives rise to. -/
def link (a : Arena) (adj : Adjacency) (s : BlockInstr) : Adjacency :=
  let live := s.instr.liveOut
  let adj := if s.instr.op = .header then adj.linkPairs live.toList else adj
  (s.instr.writes? a).elim adj fun defined => adj.linkAll defined (live.erase defined).toList

end BlockInstr

namespace Interference

/-- Lists an operand unless it was seen before. -/
def visit (s : LiveSet × Array OperandId) (x : OperandId) : LiveSet × Array OperandId :=
  if x ∈ s.1 then s else (s.1.insert x, s.2.push x)

/-- The operands in the order they first occur, each once. -/
def firstSeen (xs : List OperandId) : List OperandId := (xs.foldl visit (∅, #[])).2.toList

/-- The numbers of the bundles that define each operand. -/
def indexBundles (bundles : List Bundle) : Std.ExtTreeMap OperandId (List Nat) :=
  bundles.zipIdx.foldl (fun m b => m.insert b.1.defined (m.getD b.1.defined [] ++ [b.2])) ∅

end Interference

/-- The interference graph of the function with flow graph `g`. -/
def Code.interference (c : Code) (g : FlowGraph) : Interference :=
  let a := c.operands
  let instrs := c.blockInstrs g
  let bundles := instrs.filterMap (·.bundle? a)
  { bundles := bundles.toArray
    definitions := Interference.indexBundles bundles
    adjacency := instrs.foldl (BlockInstr.link a) ∅
    nodes := Interference.firstSeen (instrs.flatMap (·.touched a)) }

def Interference.log (g : Interference) : List Event :=
  g.bundles.toList.zipIdx.map fun b =>
    .bundled b.2 b.1.defined b.1.instr b.1.interferes.size

end MiddleEnd
