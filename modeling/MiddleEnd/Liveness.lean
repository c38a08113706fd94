import MiddleEnd.Instr
import MiddleEnd.Routine

/-! Liveness: which values each block and each instruction must keep. The sets of the blocks are the
result of passes over the flow graph, last block first, until a pass changes nothing. Then every
block is scanned backwards for the sets of its instructions. -/

namespace MiddleEnd

/-- What one more instruction adds to the uses and the definitions of a block. -/
def localStep (a : Arena) (sets : LiveSet × LiveSet) (i : Instr) : LiveSet × LiveSet :=
  (sets.1.insertMany ((i.reads a).filter (· ∉ sets.2)), sets.2.insertMany (i.writes? a).toList)

/-- The values read before they are written, and the values written. -/
def localSets (a : Arena) (is : List Instr) : LiveSet × LiveSet := is.foldl (localStep a) (∅, ∅)

namespace FlowGraph

/-- What the successors of a block need. -/
def outOf (g : FlowGraph) (id : Nat) : LiveSet :=
  (g.succ id).foldl (fun live s => live ∪ (g.block? s).elim ∅ (·.liveIn)) ∅

/-- Sets the live sets of one block from its successors. -/
def flowBlock (g : FlowGraph) (id : Nat) : FlowGraph :=
  let out := g.outOf id
  g.modify id fun b => { b with liveIn := b.uses ∪ (out \ b.defs), liveOut := out }

/-- Goes once over all blocks, the last one first. -/
def pass (g : FlowGraph) : FlowGraph := g.graph.ids.foldr (fun id g => g.flowBlock id) g

/-- The live sets of the blocks, which are all that a pass changes. -/
def liveSets (g : FlowGraph) : List (LiveSet × LiveSet) :=
  g.blocks.map fun b => (b.liveIn, b.liveOut)

/-- Makes passes until one changes nothing, `fuel` of them at most; `passes` were made before. -/
def settle : Nat → Nat → FlowGraph → Option (Nat × FlowGraph)
  | 0, _, _ => none
  | fuel + 1, passes, g =>
    let next := g.pass
    if next.liveSets = g.liveSets then some (passes + 1, next) else settle fuel (passes + 1) next

/-- The number of passes until the live sets settle, the last one included, and the settled graph.
A pass treats every operand apart and reads nothing but the live-in sets, in which an operand has
`2 ^ size` states; so sets that have not settled after `2 ^ size + 2` passes never do. -/
def solve (g : FlowGraph) : Option (Nat × FlowGraph) := settle (Nat.pow 2 g.size + 2) 0 g

end FlowGraph

/-- A backward scan: what is live, what is known of uses, and the live-out sets passed so far. -/
structure Scan where
  live : LiveSet
  nextUse : NextUse
  liveOuts : List LiveSet := []

namespace Scan

/-- Nothing is passed yet, and `liveOut` is live. -/
def start (liveOut : LiveSet) : Scan where
  live := liveOut
  nextUse := .ofList (liveOut.toList.map fun x => (x, UseInfo.mk true none))

/-- Steps back over the instruction at position `pos`. -/
def step (a : Arena) (i : Instr) (pos : Nat) (s : Scan) : Scan where
  live := ((i.writes? a).elim s.live s.live.erase).insertMany (i.reads a)
  nextUse :=
    let known := (i.writes? a).elim s.nextUse fun x => s.nextUse.insert x (UseInfo.mk false none)
    known.insertMany ((i.reads a).map fun x => (x, UseInfo.mk true (some pos)))
  liveOuts := s.live :: s.liveOuts

/-- Scans instructions that stand from position `first` on. -/
def run (a : Arena) (first : Nat) (is : List Instr) (liveOut : LiveSet) : Scan :=
  (is.zipIdx first).foldr (fun i s => s.step a i.1 i.2) (start liveOut)

end Scan

/-- The result of liveness: how many passes it took, the code with its live-out sets, and the flow
graph with its dataflow sets. -/
structure Analysis where
  passes : Nat
  code : Code
  flow : FlowGraph

namespace Code

def holds (c : Code) (b : Block) : Bool := b.first ≤ b.last + 1 && b.last < c.instrs.size

/-- Writes live-out sets to the instructions from position `first` on. -/
def setLiveOuts (c : Code) (first : Nat) (sets : List LiveSet) : Code :=
  { c with
    instrs := (sets.zipIdx first).foldl
      (fun is s => is.modify s.2 fun i => { i with liveOut := s.1 }) c.instrs }

/-- Finds the uses and definitions of every block. -/
def withLocalSets (c : Code) (g : FlowGraph) : FlowGraph :=
  { g with
    graph := g.graph.map fun b =>
      let sets := localSets c.operands (c.slice b.first b.last)
      { b with uses := sets.1, defs := sets.2 } }

/-- Scans one block, for the live-out sets of its instructions and its next uses. -/
def annotate (s : Code × FlowGraph) (id : Nat) : Except Fault (Code × FlowGraph) :=
  match s.2.block? id with
  | none => .ok s
  | some b =>
    let scan := Scan.run s.1.operands b.first (s.1.slice b.first b.last) b.liveOut
    if scan.live = b.liveIn then
      .ok (s.1.setLiveOuts b.first scan.liveOuts,
        s.2.modify id fun b => { b with nextUse := scan.nextUse })
    else .error .liveInMismatch

/-- Liveness of the function with flow graph `g`, from the live sets that its blocks already have. -/
def analyze (c : Code) (g : FlowGraph) : Except Fault Analysis :=
  if !g.blocks.all c.holds then .error .outOfTable
  else
    match (c.withLocalSets g).solve with
    | none => .error .unsettled
    | some (passes, g) => do
      let (code, flow) ← g.graph.ids.foldlM annotate (c, g)
      return { passes, code, flow }

end Code

end MiddleEnd
