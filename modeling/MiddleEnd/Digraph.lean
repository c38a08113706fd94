/-! Directed graphs whose nodes are numbered in the order they came. Every node keeps the edges out
of it and the edges into it, each in the order they were first linked. -/

namespace MiddleEnd

structure Node (α : Type) where
  id : Nat
  val : α
  succ : List Nat := []
  pred : List Nat := []
  deriving DecidableEq

structure Digraph (α : Type) where
  nodes : Array (Node α) := #[]
  deriving DecidableEq

namespace Digraph

variable {α : Type}

def size (g : Digraph α) : Nat := g.nodes.size

def ids (g : Digraph α) : List Nat := List.range g.size

def node? (g : Digraph α) (id : Nat) : Option (Node α) := g.nodes[id]?

def get? (g : Digraph α) (id : Nat) : Option α := (g.node? id).map (·.val)

def succ (g : Digraph α) (id : Nat) : List Nat := (g.node? id).elim [] (·.succ)

def pred (g : Digraph α) (id : Nat) : List Nat := (g.node? id).elim [] (·.pred)

def vals (g : Digraph α) : List α := g.nodes.toList.map (·.val)

def insert (g : Digraph α) (val : α) : Nat × Digraph α :=
  (g.size, ⟨g.nodes.push { id := g.size, val }⟩)

def modify (g : Digraph α) (id : Nat) (f : α → α) : Digraph α :=
  ⟨g.nodes.modify id fun n => { n with val := f n.val }⟩

def map (g : Digraph α) (f : α → α) : Digraph α :=
  ⟨g.nodes.map fun n => { n with val := f n.val }⟩

def addSucc (g : Digraph α) (src dst : Nat) : Digraph α :=
  ⟨g.nodes.modify src fun n => { n with succ := n.succ ++ [dst] }⟩

def addPred (g : Digraph α) (dst src : Nat) : Digraph α :=
  ⟨g.nodes.modify dst fun n => { n with pred := n.pred ++ [src] }⟩

/-- Adds the edge from `src` to `dst`, and says whether it is new. -/
def link (g : Digraph α) (src dst : Nat) : Bool × Digraph α :=
  if dst ∈ g.succ src then (false, g) else (true, (g.addSucc src dst).addPred dst src)

def ofVals (vals : List α) : Digraph α := vals.foldl (fun g v => (g.insert v).2) {}

def linkAll (g : Digraph α) (edges : List (Nat × Nat)) : Digraph α :=
  edges.foldl (fun g e => (g.link e.1 e.2).2) g

/-- The text of a node's number. -/
def idText (id : Nat) : String := s!"B{id}"

end Digraph

end MiddleEnd
