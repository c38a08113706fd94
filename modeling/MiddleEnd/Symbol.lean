import MiddleEnd.Ty

/-! Declarations as a front end resolves them, and the table they are numbered in. -/

namespace MiddleEnd

inductive SymbolKind where
  | localVar
  | param
  | globalVar
  | function
  deriving DecidableEq

def SymbolKind.text : SymbolKind → String
  | .localVar => "local"
  | .param => "param"
  | .globalVar => "global"
  | .function => "function"

/-- The position of a symbol in its table. -/
abbrev SymbolId := Nat

structure Symbol where
  name : String
  kind : SymbolKind
  ty : Ty
  /-- Frame offset chosen by the front end, for a symbol that lives in a frame. -/
  offset : Option Int64 := none
  deriving DecidableEq

/-- Whether the symbol's value may live in a register. -/
def Symbol.isRegisterCandidate (s : Symbol) : Bool :=
  (s.kind = .localVar || s.kind = .param) && s.ty.isScalar

structure SymbolTable where
  symbols : Array Symbol := #[]

namespace SymbolTable

def size (t : SymbolTable) : Nat := t.symbols.size

/-- Adds a symbol at the end; its position is its id. -/
def insert (t : SymbolTable) (s : Symbol) : SymbolId × SymbolTable :=
  (t.size, ⟨t.symbols.push s⟩)

def get? (t : SymbolTable) (id : SymbolId) : Option Symbol := t.symbols[id]?

/-- The first symbol declared under a name. -/
def lookup? (t : SymbolTable) (name : String) : Option SymbolId :=
  t.symbols.findIdx? (·.name = name)

end SymbolTable

end MiddleEnd
