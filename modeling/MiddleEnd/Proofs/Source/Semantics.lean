import MiddleEnd.Source.Program
import Mathlib.Logic.Function.Basic

/-! What programs mean, one big step at a time. An expression has a value and may change the memory of
arrays, by a call; it changes no variable. A statement ends normally, leaves the innermost loop around it,
goes on to that loop's next round, or returns. -/

namespace MiddleEnd

abbrev Word := Int64

abbrev Memory := Word → Word

/-- What operators compute, if they do not fail, and where arrays start. -/
structure Operators where
  binary : BinaryOp → Word → Word → Option Word
  unary : UnaryOp → Word → Option Word
  base : SymbolId → Word

/-- Operators, and calls that change nothing but the memory of arrays. -/
structure Effects extends Operators where
  call : SymbolId → List Word → Memory → Option (Word × Memory)

structure Store where
  vars : SymbolId → Word
  memory : Memory

/-- Bytes of an element, if they can be counted; a symbol that is no array has elements of a word. -/
def Symbol.elementSize? (s : Symbol) : Option Nat := s.ty.element?.elim (some Ty.wordSize) Ty.size?

def Operators.element (O : Operators) (symbols : SymbolTable) (array : SymbolId) (pos : Word) : Option Word := do
  let s ← symbols.get? array
  let size ← s.elementSize?
  return O.base array + (← O.binary (.arith .mul) pos (Int64.ofNat size))

theorem Operators.element_eq {O : Operators} {symbols : SymbolTable} {array : SymbolId} {s : Symbol} {size : Nat}
    (hs : symbols.get? array = some s) (hsize : s.elementSize? = some size) (i : Word) :
    O.element symbols array i = (O.binary (.arith .mul) i (Int64.ofNat size)).map (O.base array + ·) := by
  simp only [element, hs, hsize, Option.bind_eq_bind, Option.bind_some, Option.map_eq_bind]
  rfl

/-- The value of an expression that needs to have one, and what is there after it. -/
def needed {α β : Type} (r : Option α × β) : Option (α × β) := r.1.map (·, r.2)

theorem needed_eq_some {α β : Type} {r : Option α × β} {a : α} {b : β} : needed r = some (a, b) ↔ r = (some a, b) := by
  obtain ⟨v, k⟩ := r
  cases v with
  | none => simp [needed]
  | some v => simp [needed]

namespace Expr

variable (F : Effects) (symbols : SymbolTable) (vars : SymbolId → Word)

mutual
/-- The value of an expression, which a call that returns nothing does not have, and the memory after it. -/
def eval : Expr → Memory → Option (Option Word × Memory)
  | .literal lit _, m => some (lit.word, m)
  | .name s _, m => some (vars s, m)
  | .binary op lhs rhs _, m => do
    let (x, m) ← needed (← eval lhs m)
    let (y, m) ← needed (← eval rhs m)
    return (← F.binary op x y, m)
  | .unary op arg _, m => do
    let (x, m) ← needed (← eval arg m)
    return (← F.unary op x, m)
  | .call callee args ty, m => do
    let (xs, m) ← evalAll args m
    let (v, m) ← F.call callee xs m
    return (if ty = .void then none else some v, m)
  | .index array pos _, m => do
    let (i, m) ← needed (← eval pos m)
    return (m (← F.element symbols array i), m)

def evalAll : List Expr → Memory → Option (List Word × Memory)
  | [], m => some ([], m)
  | arg :: args, m => do
    let (x, m) ← needed (← eval arg m)
    let (xs, m) ← evalAll args m
    return (x :: xs, m)
end

def value (e : Expr) (m : Memory) : Option (Word × Memory) := do needed (← e.eval F symbols vars m)

/-- Whether the test of a loop lets another round begin. -/
def passes : Option Expr → Memory → Option (Bool × Memory)
  | none, m => some (true, m)
  | some test, m => do
    let (v, m) ← test.value F symbols vars m
    return (v != 0, m)

variable {F symbols vars} {v : Option Word} {w : Word} {m m' : Memory}

theorem value_eq_some {e : Expr} : e.value F symbols vars m = some (w, m') ↔
    e.eval F symbols vars m = some (some w, m') := by
  simp [value, Option.bind_eq_some_iff, needed_eq_some]

theorem eval_binary {op : BinaryOp} {lhs rhs : Expr} {ty : Ty}
    (h : (binary op lhs rhs ty).eval F symbols vars m = some (v, m')) : ∃ x y z m₁,
      lhs.eval F symbols vars m = some (some x, m₁) ∧ rhs.eval F symbols vars m₁ = some (some y, m') ∧
      F.binary op x y = some z ∧ v = some z := by
  simp only [eval, Option.bind_eq_bind, Option.bind_eq_some_iff, Prod.exists, needed_eq_some, pure, Option.some.injEq,
    Prod.mk.injEq] at h
  obtain ⟨_, _, hx, x, _, ⟨rfl, rfl⟩, _, _, hy, y, _, ⟨rfl, rfl⟩, z, hz, rfl, rfl⟩ := h
  exact ⟨x, y, z, _, hx, hy, hz, rfl⟩

theorem eval_unary {op : UnaryOp} {arg : Expr} {ty : Ty}
    (h : (unary op arg ty).eval F symbols vars m = some (v, m')) : ∃ x z,
      arg.eval F symbols vars m = some (some x, m') ∧ F.unary op x = some z ∧ v = some z := by
  simp only [eval, Option.bind_eq_bind, Option.bind_eq_some_iff, Prod.exists, needed_eq_some, pure, Option.some.injEq,
    Prod.mk.injEq] at h
  obtain ⟨_, _, hx, x, _, ⟨rfl, rfl⟩, z, hz, rfl, rfl⟩ := h
  exact ⟨x, z, hx, hz, rfl⟩

theorem eval_call {callee : SymbolId} {args : List Expr} {ty : Ty}
    (h : (call callee args ty).eval F symbols vars m = some (v, m')) : ∃ xs z m₁,
      evalAll F symbols vars args m = some (xs, m₁) ∧ F.call callee xs m₁ = some (z, m') ∧
      v = if ty = .void then none else some z := by
  simp only [eval, Option.bind_eq_bind, Option.bind_eq_some_iff, Prod.exists, pure, Option.some.injEq,
    Prod.mk.injEq] at h
  obtain ⟨xs, m₁, hxs, z, m₂, hz, rfl, rfl⟩ := h
  exact ⟨xs, z, m₁, hxs, hz, rfl⟩

theorem eval_index {array : SymbolId} {pos : Expr} {ty : Ty}
    (h : (index array pos ty).eval F symbols vars m = some (v, m')) : ∃ i a,
      pos.eval F symbols vars m = some (some i, m') ∧ F.element symbols array i = some a ∧ v = some (m' a) := by
  simp only [eval, Option.bind_eq_bind, Option.bind_eq_some_iff, Prod.exists, needed_eq_some, pure, Option.some.injEq,
    Prod.mk.injEq] at h
  obtain ⟨_, _, hi, i, _, ⟨rfl, rfl⟩, a, ha, rfl, rfl⟩ := h
  exact ⟨i, a, hi, ha, rfl⟩

theorem evalAll_cons {arg : Expr} {args : List Expr} {xs : List Word}
    (h : evalAll F symbols vars (arg :: args) m = some (xs, m')) : ∃ x ys m₁,
      arg.eval F symbols vars m = some (some x, m₁) ∧ evalAll F symbols vars args m₁ = some (ys, m') ∧
      xs = x :: ys := by
  simp only [evalAll, Option.bind_eq_bind, Option.bind_eq_some_iff, Prod.exists, needed_eq_some, pure,
    Option.some.injEq, Prod.mk.injEq] at h
  obtain ⟨_, _, hx, x, _, ⟨rfl, rfl⟩, ys, _, hys, rfl, rfl⟩ := h
  exact ⟨x, ys, _, hx, hys, rfl⟩

end Expr

theorem Operators.element_eq_some {O : Operators} {symbols : SymbolTable} {array : SymbolId} {i a : Word}
    (h : O.element symbols array i = some a) : ∃ s size offset, symbols.get? array = some s ∧
      s.elementSize? = some size ∧ O.binary (.arith .mul) i (Int64.ofNat size) = some offset ∧
      a = O.base array + offset := by
  simp only [element, Option.bind_eq_bind, Option.bind_eq_some_iff, pure, Option.some.injEq] at h
  obtain ⟨s, hs, size, hsize, offset, hoffset, rfl⟩ := h
  exact ⟨s, size, offset, hs, hsize, hoffset, rfl⟩

def Chain.select (F : Effects) (symbols : SymbolTable) (vars : SymbolId → Word) :
    Chain → Memory → Option (Stmt × Memory)
  | .done, m => some (.skip, m)
  | .otherwise body, m => some (body, m)
  | .arm test body rest, m => do
    let (v, m) ← test.value F symbols vars m
    if v = 0 then rest.select F symbols vars m else return (body, m)

theorem Chain.select_arm {F : Effects} {symbols : SymbolTable} {vars : SymbolId → Word} {test : Expr}
    {body chosen : Stmt} {rest : Chain} {m m' : Memory}
    (h : (arm test body rest).select F symbols vars m = some (chosen, m')) : ∃ v m₁,
      test.value F symbols vars m = some (v, m₁) ∧
      ((v = 0 ∧ rest.select F symbols vars m₁ = some (chosen, m')) ∨ (v ≠ 0 ∧ chosen = body ∧ m' = m₁)) := by
  simp only [select, Option.bind_eq_bind, Option.bind_eq_some_iff, Prod.exists] at h
  obtain ⟨v, m₁, hv, h⟩ := h
  refine ⟨v, m₁, hv, ?_⟩
  split at h
  case isTrue hzero => exact Or.inl ⟨hzero, h⟩
  case isFalse hne =>
    cases h
    exact Or.inr ⟨hne, rfl, rfl⟩

inductive Outcome where
  | normal
  | leave
  | next
  | returned (value : Option Word)

/-- Executing a statement in the first store has the outcome and ends in the second store. A loop whose
initialization is over goes on as the loop with nothing to initialize. -/
inductive Exec (F : Effects) (symbols : SymbolTable) : Stmt → Store → Outcome → Store → Prop
  | skip {s : Store} : Exec F symbols .skip s .normal s
  | seq {first second : Stmt} {s t u : Store} {o : Outcome} (hfirst : Exec F symbols first s .normal t)
      (hsecond : Exec F symbols second t o u) : Exec F symbols (.seq first second) s o u
  | seqStop {first second : Stmt} {s t : Store} {o : Outcome} (hfirst : Exec F symbols first s o t)
      (ho : o ≠ .normal) : Exec F symbols (.seq first second) s o t
  | declare {id : SymbolId} {s : Store} : Exec F symbols (.declare id none) s .normal s
  | declareInit {id : SymbolId} {init : Expr} {s : Store} {v : Word} {m : Memory}
      (hv : init.value F symbols s.vars s.memory = some (v, m)) :
      Exec F symbols (.declare id (some init)) s .normal ⟨Function.update s.vars id v, m⟩
  | assign {id : SymbolId} {value : Expr} {s : Store} {v : Word} {m : Memory}
      (hv : value.value F symbols s.vars s.memory = some (v, m)) :
      Exec F symbols (.assign id value) s .normal ⟨Function.update s.vars id v, m⟩
  | store {array : SymbolId} {pos value : Expr} {s : Store} {v i a : Word} {m m' : Memory}
      (hv : value.value F symbols s.vars s.memory = some (v, m))
      (hi : pos.value F symbols s.vars m = some (i, m')) (ha : F.element symbols array i = some a) :
      Exec F symbols (.store array pos value) s .normal ⟨s.vars, Function.update m' a v⟩
  | eval {expr : Expr} {s : Store} {v : Option Word} {m : Memory}
      (hv : expr.eval F symbols s.vars s.memory = some (v, m)) : Exec F symbols (.eval expr) s .normal ⟨s.vars, m⟩
  | cond {chain : Chain} {body : Stmt} {s t : Store} {m : Memory} {o : Outcome}
      (hselect : chain.select F symbols s.vars s.memory = some (body, m))
      (hbody : Exec F symbols body ⟨s.vars, m⟩ o t) : Exec F symbols (.cond chain) s o t
  | loop {init update body : Stmt} {test : Option Expr} {s t u : Store} {o : Outcome}
      (hinit : Exec F symbols init s .normal t) (hloop : Exec F symbols (.loop .skip test update body) t o u) :
      Exec F symbols (.loop init test update body) s o u
  /-- A loop control in the initialization is one of the loop around. -/
  | loopStop {init update body : Stmt} {test : Option Expr} {s t : Store} {o : Outcome}
      (hinit : Exec F symbols init s o t) (ho : o ≠ .normal) : Exec F symbols (.loop init test update body) s o t
  | loopDone {update body : Stmt} {test : Option Expr} {s : Store} {m : Memory}
      (htest : Expr.passes F symbols s.vars test s.memory = some (false, m)) :
      Exec F symbols (.loop .skip test update body) s .normal ⟨s.vars, m⟩
  | loopLeave {update body : Stmt} {test : Option Expr} {s t : Store} {m : Memory}
      (htest : Expr.passes F symbols s.vars test s.memory = some (true, m))
      (hbody : Exec F symbols body ⟨s.vars, m⟩ .leave t) :
      Exec F symbols (.loop .skip test update body) s .normal t
  | loopReturn {update body : Stmt} {test : Option Expr} {s t : Store} {m : Memory} {v : Option Word}
      (htest : Expr.passes F symbols s.vars test s.memory = some (true, m))
      (hbody : Exec F symbols body ⟨s.vars, m⟩ (.returned v) t) :
      Exec F symbols (.loop .skip test update body) s (.returned v) t
  /-- A loop control in the update is one of the loop around. -/
  | loopUpdateStop {update body : Stmt} {test : Option Expr} {s t u : Store} {m : Memory} {o o' : Outcome}
      (htest : Expr.passes F symbols s.vars test s.memory = some (true, m))
      (hbody : Exec F symbols body ⟨s.vars, m⟩ o t) (ho : o = .normal ∨ o = .next)
      (hupdate : Exec F symbols update t o' u) (ho' : o' ≠ .normal) :
      Exec F symbols (.loop .skip test update body) s o' u
  | loopAgain {update body : Stmt} {test : Option Expr} {s t u w : Store} {m : Memory} {o o' : Outcome}
      (htest : Expr.passes F symbols s.vars test s.memory = some (true, m))
      (hbody : Exec F symbols body ⟨s.vars, m⟩ o t) (ho : o = .normal ∨ o = .next)
      (hupdate : Exec F symbols update t .normal u) (hloop : Exec F symbols (.loop .skip test update body) u o' w) :
      Exec F symbols (.loop .skip test update body) s o' w
  | leave {s : Store} : Exec F symbols .leave s .leave s
  | next {s : Store} : Exec F symbols .next s .next s
  | ret {s : Store} : Exec F symbols (.ret none) s (.returned none) s
  | retValue {value : Expr} {s : Store} {v : Word} {m : Memory}
      (hv : value.value F symbols s.vars s.memory = some (v, m)) :
      Exec F symbols (.ret (some value)) s (.returned (some v)) ⟨s.vars, m⟩

/-- The variables once the parameters have received the arguments, one after the other. -/
def receive : List SymbolId → List Word → (SymbolId → Word) → SymbolId → Word
  | id :: ids, v :: vs, vars => receive ids vs (Function.update vars id v)
  | _, _, vars => vars

end MiddleEnd
