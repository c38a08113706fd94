import MiddleEnd.Digraph
import MiddleEnd.LiveSet

/-! Flow graphs: the basic blocks of a function, in the order of the instruction table, and the
edges along which control goes. -/

namespace MiddleEnd

/-- Whether an operand is live at a point, and the nearest position after it that reads the operand
before anything writes it. -/
structure UseInfo where
  live : Bool
  nextUse : Option Nat
  deriving DecidableEq

abbrev NextUse := Std.ExtTreeMap OperandId UseInfo

/-- The instructions from position `first` to position `last`, with their dataflow sets. -/
structure Block where
  first : Nat
  last : Nat
  /-- Values read before the block writes them. -/
  uses : LiveSet := ∅
  /-- Values that the block writes. -/
  defs : LiveSet := ∅
  liveIn : LiveSet := ∅
  liveOut : LiveSet := ∅
  /-- The uses that are known on entry. -/
  nextUse : NextUse := ∅
  deriving DecidableEq

def Block.contains (b : Block) (pos : Nat) : Bool := b.first ≤ pos && pos ≤ b.last

structure FlowGraph where
  graph : Digraph Block := {}
  /-- The block that is entered first. -/
  head : Nat := 0
  deriving DecidableEq

/-- Looks for the end of the run on which `p` holds, among `size` numbers from `base` on, by
halving. It is the right one wherever `p` is never true after it was false. -/
def searchEnd (p : Nat → Bool) (base size : Nat) : Nat :=
  if size ≤ 1 then
    if size = 1 && p base then base + 1 else base
  else
    let mid := base + size / 2
    searchEnd p (if p mid then mid else base) (size - size / 2)
termination_by size

namespace FlowGraph

def size (g : FlowGraph) : Nat := g.graph.size

def blocks (g : FlowGraph) : List Block := g.graph.vals

def block? (g : FlowGraph) (id : Nat) : Option Block := g.graph.get? id

def succ (g : FlowGraph) (id : Nat) : List Nat := g.graph.succ id

def modify (g : FlowGraph) (id : Nat) (f : Block → Block) : FlowGraph :=
  { g with graph := g.graph.modify id f }

/-- The block that holds a position of the function. -/
def blockOf? (g : FlowGraph) (pos : Nat) : Option Nat :=
  match searchEnd (fun id => (g.block? id).any (·.first ≤ pos)) 0 g.size with
  | 0 => none
  | id + 1 => if (g.block? id).any (·.contains pos) then some id else none

end FlowGraph

end MiddleEnd
