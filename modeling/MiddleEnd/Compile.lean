import MiddleEnd.Allocation
import MiddleEnd.FlowGraph.Build
import MiddleEnd.Instr.Listing
import MiddleEnd.Lowering.Program

/-! The whole way from a checked program to code with a place for every value. -/

namespace MiddleEnd

/-- Code for a back end: the instructions with their operands, the globals and the functions. -/
structure Compiled where
  code : Code
  globals : List Global
  routines : List Routine

/-- The first function of a symbol. -/
def Compiled.routine? (u : Compiled) (symbol : SymbolId) : Option Routine :=
  u.routines.find? (·.symbol = symbol)

inductive CompileError where
  | lower (e : LowerError)
  | flow (e : FlowError)
  | fault (f : Fault)
  deriving DecidableEq

def CompileError.message : CompileError → String
  | lower e => e.message
  | flow e => "malformed instruction stream: " ++ e.message
  | fault f => f.message

/-- Allocates functions one after the other. -/
def allocateAll (conv : Convention) : List Routine → Code → Except Fault (Code × List Allocation)
  | [], c => .ok (c, [])
  | r :: rs, c => do
    let done ← r.allocate conv c
    let (c, rest) ← allocateAll conv rs done.code
    return (c, done :: rest)

namespace Program

def compile (conv : Convention) (p : Program) : Except CompileError Compiled := do
  let lowered ← p.lower.mapError .lower
  let routines ← (lowered.code.routines p.symbols).mapError .flow
  let (code, done) ← (allocateAll conv routines lowered.code).mapError .fault
  return { code, globals := lowered.globals, routines := done.map (·.routine) }

/-- What is reported once the functions are known. -/
def allocateLog (conv : Convention) (routines : List Routine) (c : Code) : List Event :=
  match allocateAll conv routines c with
  | .error _ => []
  | .ok (c, done) =>
    done.flatMap (·.log conv) ++ [.compiled conv.name done.length c.instrs.size
      (done.foldl (fun n r => n + r.routine.spilled.length) 0)]

/-- What compiling reports, up to a failure if there is one. -/
def compileLog (conv : Convention) (p : Program) : List Event :=
  p.lowerLog ++
    match p.lower with
    | .error _ => []
    | .ok lowered =>
      lowered.code.routinesLog p.symbols ++
        match lowered.code.routines p.symbols with
        | .error _ => []
        | .ok routines => allocateLog conv routines lowered.code

end Program

end MiddleEnd
