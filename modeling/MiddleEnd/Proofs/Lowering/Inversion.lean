import MiddleEnd.Proofs.Lowering.Builder
import MiddleEnd.Proofs.Source.Semantics

/-! What lowering did, by the form of what was lowered: from where each part was lowered and what was added
in between. -/

namespace MiddleEnd

open LowerM

section Expr

variable {symbols : SymbolTable} {b b' : Builder} {o : Option OperandId}

theorem elementSize_eq_ok {s : Symbol} {size : Nat} (h : elementSize s b = .ok size b') :
    s.elementSize? = some size ∧ b' = b := by
  unfold elementSize at h
  unfold Symbol.elementSize?
  cases hs : s.ty.element? with
  | none =>
    rw [hs] at h
    obtain ⟨rfl, rfl⟩ := pure_eq_ok.mp h
    exact ⟨rfl, rfl⟩
  | some elem =>
    rw [hs] at h
    dsimp only at h
    cases he : elem.size? with
    | none =>
      rw [he] at h
      exact absurd h throw_ne_ok
    | some n =>
      rw [he] at h
      obtain ⟨rfl, rfl⟩ := pure_eq_ok.mp h
      exact ⟨he, rfl⟩

theorem marshal_nil {pos : Nat} {args : List OperandId} (h : marshal pos [] b = .ok args b') :
    args = [] ∧ b' = b := by
  obtain ⟨rfl, rfl⟩ := pure_eq_ok.mp h
  exact ⟨rfl, rfl⟩

theorem marshal_cons {pos : Nat} {value : OperandId} {values args : List OperandId}
    (h : marshal pos (value :: values) b = .ok args b') : ∃ rest, args = b.code.operands.size :: rest ∧
      marshal (pos + 1) values ((b.withTemp (.arg pos)).withInstr (.arg pos) (some b.code.operands.size)
        (some value) none []) = .ok rest b' := by
  simp only [marshal, bind_eq_ok, newTemp_eq_ok, emit_eq_ok, pure_eq_ok] at h
  obtain ⟨_, _, ⟨rfl, rfl⟩, _, _, rfl, rest, _, hrest, rfl, rfl⟩ := h
  exact ⟨rest, rfl, hrest⟩

theorem lowerCall_void {callee : SymbolId} {values : List OperandId} {ty : Ty} (hty : ty = .void)
    (h : lowerCall symbols callee values ty b = .ok o b') : ∃ args b₁ s, marshal 0 values b = .ok args b₁ ∧
      symbols.get? callee = some s ∧ o = none ∧
      b'.code = ((b₁.withSymbol callee s).withInstr .call none (some (b₁.code.operands.symbol callee s).1) none
        args).code := by
  simp only [lowerCall, if_pos hty, bind_eq_ok, lookup_eq_ok, symbol_eq_ok, emit_eq_ok, report_eq_ok, pure_eq_ok] at h
  obtain ⟨args, b₁, hargs, s, _, ⟨-, rfl⟩, _, _, ⟨s', hs, rfl, rfl⟩, _, _, rfl, _, _, rfl, rfl, rfl⟩ := h
  exact ⟨args, _, s', hargs, hs, rfl, rfl⟩

theorem lowerCall_value {callee : SymbolId} {values : List OperandId} {ty : Ty} (hty : ty ≠ .void)
    (h : lowerCall symbols callee values ty b = .ok o b') : ∃ args b₁ s b₂ b₃, marshal 0 values b = .ok args b₁ ∧
      symbols.get? callee = some s ∧ b₂ = b₁.withSymbol callee s ∧
      b₃ = (b₂.withTemp .callResult).withInstr .call (some b₂.code.operands.size)
        (some (b₁.code.operands.symbol callee s).1) none args ∧
      o = some b₃.code.operands.size ∧
      b'.code = ((b₃.withTemp .copy).withInstr .assign (some b₃.code.operands.size)
        (some b₂.code.operands.size) none []).code := by
  simp only [lowerCall, if_neg hty, bind_eq_ok, lookup_eq_ok, symbol_eq_ok, newTemp_eq_ok, emit_eq_ok, report_eq_ok,
    pure_eq_ok] at h
  obtain ⟨args, b₁, hargs, s, _, ⟨-, rfl⟩, _, _, ⟨s', hs, rfl, rfl⟩, _, _, ⟨rfl, rfl⟩, _, _, rfl, _, _, rfl, _, _,
    ⟨rfl, rfl⟩, _, _, rfl, rfl, rfl⟩ := h
  exact ⟨args, _, s', _, _, hargs, hs, rfl, rfl, rfl, rfl⟩

theorem lowerAddress_eq_ok {array : SymbolId} {size : Nat} {pos address : OperandId}
    (h : lowerAddress symbols array size pos b = .ok address b') : ∃ s b₁ b₂, symbols.get? array = some s ∧
      b₁ = ((b.withInt (Int64.ofNat size)).withTemp .offset).withInstr (.binary (.arith .mul))
        (some (b.withInt (Int64.ofNat size)).code.operands.size) (some pos) (some b.code.operands.size) [] ∧
      b₂ = b₁.withSymbol array s ∧ address = b₂.code.operands.size ∧
      b' = (b₂.withTemp .address).withInstr .address (some b₂.code.operands.size)
        (some (b₁.code.operands.symbol array s).1) (some (b.withInt (Int64.ofNat size)).code.operands.size) [] := by
  simp only [lowerAddress, bind_eq_ok, symbol_eq_ok, int_eq_ok, newTemp_eq_ok, emit_eq_ok, pure_eq_ok] at h
  obtain ⟨_, _, ⟨rfl, rfl⟩, _, _, ⟨rfl, rfl⟩, _, _, rfl, _, _, ⟨s, hs, rfl, rfl⟩, _, _, ⟨rfl, rfl⟩, _, _, rfl, rfl,
    rfl⟩ := h
  exact ⟨s, _, _, hs, rfl, rfl, rfl, rfl⟩

theorem lowerExpr_literal {lit : Literal} {ty : Ty} (h : lowerExpr symbols (.literal lit ty) b = .ok o b') :
    o = some b.code.operands.size ∧ b' = b.withInt lit.word := by
  rw [lowerExpr] at h
  obtain ⟨_, hint, rfl⟩ := map_eq_ok.mp h
  obtain ⟨rfl, rfl⟩ := int_eq_ok.mp hint
  exact ⟨rfl, rfl⟩

theorem lowerExpr_name {id : SymbolId} {ty : Ty} (h : lowerExpr symbols (.name id ty) b = .ok o b') :
    ∃ s, symbols.get? id = some s ∧ o = some (b.code.operands.symbol id s).1 ∧ b' = b.withSymbol id s := by
  simp only [lowerExpr, map_eq_ok, symbol_eq_ok] at h
  obtain ⟨_, ⟨s, hs, rfl, rfl⟩, rfl⟩ := h
  exact ⟨s, hs, rfl, rfl⟩

theorem lowerExpr_binary {op : BinaryOp} {lhs rhs : Expr} {ty : Ty}
    (h : lowerExpr symbols (.binary op lhs rhs ty) b = .ok o b') : ∃ l b₁ r b₂,
      lowerExpr symbols lhs b = .ok (some l) b₁ ∧ lowerExpr symbols rhs b₁ = .ok (some r) b₂ ∧
      o = some b₂.code.operands.size ∧
      b' = (b₂.withTemp (.binary op)).withInstr (.binary op) (some b₂.code.operands.size) (some l) (some r) [] := by
  simp only [lowerExpr, bind_eq_ok, require_eq_ok, newTemp_eq_ok, emit_eq_ok, pure_eq_ok] at h
  obtain ⟨_, b₁, hl, l, _, ⟨rfl, rfl⟩, _, b₂, hr, r, _, ⟨rfl, rfl⟩, _, _, ⟨rfl, rfl⟩, _, _, rfl, rfl, rfl⟩ := h
  exact ⟨l, _, r, _, hl, hr, rfl, rfl⟩

theorem lowerExpr_unary {op : UnaryOp} {arg : Expr} {ty : Ty}
    (h : lowerExpr symbols (.unary op arg ty) b = .ok o b') : ∃ a b₁,
      lowerExpr symbols arg b = .ok (some a) b₁ ∧ o = some b₁.code.operands.size ∧
      b' = (b₁.withTemp (.unary op)).withInstr (.unary op) (some b₁.code.operands.size) (some a) none [] := by
  simp only [lowerExpr, bind_eq_ok, require_eq_ok, newTemp_eq_ok, emit_eq_ok, pure_eq_ok] at h
  obtain ⟨_, b₁, ha, a, _, ⟨rfl, rfl⟩, _, _, ⟨rfl, rfl⟩, _, _, rfl, rfl, rfl⟩ := h
  exact ⟨a, _, ha, rfl, rfl⟩

theorem lowerExpr_call {callee : SymbolId} {args : List Expr} {ty : Ty}
    (h : lowerExpr symbols (.call callee args ty) b = .ok o b') : ∃ values b₁,
      lowerArgs symbols args b = .ok values b₁ ∧ lowerCall symbols callee values ty b₁ = .ok o b' := by
  simpa only [lowerExpr, bind_eq_ok] using h

theorem lowerExpr_index {array : SymbolId} {pos : Expr} {ty : Ty}
    (h : lowerExpr symbols (.index array pos ty) b = .ok o b') : ∃ s size p b₁ address b₂,
      symbols.get? array = some s ∧ s.elementSize? = some size ∧ lowerExpr symbols pos b = .ok (some p) b₁ ∧
      lowerAddress symbols array size p b₁ = .ok address b₂ ∧ o = some b₂.code.operands.size ∧
      b' = (b₂.withTemp .load).withInstr .load (some b₂.code.operands.size) (some address) none [] := by
  simp only [lowerExpr, bind_eq_ok, lookup_eq_ok, require_eq_ok, newTemp_eq_ok, emit_eq_ok, pure_eq_ok] at h
  obtain ⟨s, _, ⟨hs, rfl⟩, size, _, hsize, _, b₁, hp, p, _, ⟨rfl, rfl⟩, address, b₂, haddr, _, _, ⟨rfl, rfl⟩, _, _,
    rfl, rfl, rfl⟩ := h
  obtain ⟨hn, rfl⟩ := elementSize_eq_ok hsize
  exact ⟨s, size, p, _, address, b₂, hs, hn, hp, haddr, rfl, rfl⟩

theorem lowerArgs_nil {values : List OperandId} (h : lowerArgs symbols [] b = .ok values b') :
    values = [] ∧ b' = b := by
  simp only [lowerArgs] at h
  obtain ⟨rfl, rfl⟩ := pure_eq_ok.mp h
  exact ⟨rfl, rfl⟩

theorem lowerArgs_cons {arg : Expr} {args : List Expr} {values : List OperandId}
    (h : lowerArgs symbols (arg :: args) b = .ok values b') : ∃ v b₁ vs, values = v :: vs ∧
      lowerExpr symbols arg b = .ok (some v) b₁ ∧ lowerArgs symbols args b₁ = .ok vs b' := by
  simp only [lowerArgs, bind_eq_ok, require_eq_ok, pure_eq_ok] at h
  obtain ⟨_, b₁, hv, v, _, ⟨rfl, rfl⟩, vs, _, hvs, rfl, rfl⟩ := h
  exact ⟨v, _, vs, rfl, hv, hvs⟩

theorem lowerValue_eq_ok {site : ValueSite} {e : Expr} {x : OperandId} (h : lowerValue symbols site e b = .ok x b') :
    lowerExpr symbols e b = .ok (some x) b' := by
  simp only [lowerValue, bind_eq_ok, require_eq_ok] at h
  obtain ⟨_, b₁, hx, rfl, rfl⟩ := h
  exact hx

end Expr

section Stmt

variable {scope : Scope} {b b' : Builder} {u : Unit}

theorem lowerStmt_seq {first second : Stmt} (h : lowerStmt scope (.seq first second) b = .ok u b') :
    ∃ b₁, lowerStmt scope first b = .ok () b₁ ∧ lowerStmt scope second b₁ = .ok () b' := by
  simp only [lowerStmt, bind_eq_ok] at h
  obtain ⟨_, b₁, h₁, h₂⟩ := h
  exact ⟨b₁, h₁, h₂⟩

theorem lowerStmt_assign {id : SymbolId} {value : Expr} (h : lowerStmt scope (.assign id value) b = .ok u b') :
    ∃ v b₁ s, lowerExpr scope.symbols value b = .ok (some v) b₁ ∧ scope.symbols.get? id = some s ∧
      b' = (b₁.withSymbol id s).withInstr .assign (some (b₁.code.operands.symbol id s).1) (some v) none [] := by
  simp only [lowerStmt, bind_eq_ok, symbol_eq_ok, emit_eq_ok] at h
  obtain ⟨v, b₁, hv, _, _, ⟨s, hs, rfl, rfl⟩, rfl⟩ := h
  exact ⟨v, b₁, s, lowerValue_eq_ok hv, hs, rfl⟩

theorem lowerStmt_declare {id : SymbolId} {init : Expr} (h : lowerStmt scope (.declare id (some init)) b = .ok u b') :
    ∃ v b₁ s, lowerExpr scope.symbols init b = .ok (some v) b₁ ∧ scope.symbols.get? id = some s ∧
      b' = (b₁.withSymbol id s).withInstr .assign (some (b₁.code.operands.symbol id s).1) (some v) none [] := by
  simp only [lowerStmt, bind_eq_ok, symbol_eq_ok, emit_eq_ok] at h
  obtain ⟨v, b₁, hv, _, _, ⟨s, hs, rfl, rfl⟩, rfl⟩ := h
  exact ⟨v, b₁, s, lowerValue_eq_ok hv, hs, rfl⟩

theorem lowerStmt_store {array : SymbolId} {pos value : Expr}
    (h : lowerStmt scope (.store array pos value) b = .ok u b') : ∃ v b₁ s size p b₂ address b₃,
      lowerExpr scope.symbols value b = .ok (some v) b₁ ∧ scope.symbols.get? array = some s ∧
      s.elementSize? = some size ∧ lowerExpr scope.symbols pos b₁ = .ok (some p) b₂ ∧
      lowerAddress scope.symbols array size p b₂ = .ok address b₃ ∧
      b' = b₃.withInstr .store none (some address) (some v) [] := by
  simp only [lowerStmt, bind_eq_ok, lookup_eq_ok, emit_eq_ok] at h
  obtain ⟨v, b₁, hv, s, _, ⟨hs, rfl⟩, size, _, hsize, p, b₂, hp, address, b₃, haddr, rfl⟩ := h
  obtain ⟨hn, rfl⟩ := elementSize_eq_ok hsize
  exact ⟨v, _, s, size, p, b₂, address, b₃, lowerValue_eq_ok hv, hs, hn, lowerValue_eq_ok hp, haddr, rfl⟩

theorem lowerStmt_eval {expr : Expr} (h : lowerStmt scope (.eval expr) b = .ok u b') :
    ∃ o, lowerExpr scope.symbols expr b = .ok o b' := by
  simp only [lowerStmt, bind_eq_ok, pure_eq_ok] at h
  obtain ⟨o, b₁, ho, -, rfl⟩ := h
  exact ⟨o, ho⟩

theorem lowerStmt_cond {chain : Chain} (h : lowerStmt scope (.cond chain) b = .ok u b') :
    ∃ b₁, lowerChain scope b.code.operands.size chain b.withLabel = .ok () b₁ ∧
      b' = b₁.withInstr .label none (some b.code.operands.size) none [] := by
  simp only [lowerStmt, place, bind_eq_ok, newLabel_eq_ok, emit_eq_ok] at h
  obtain ⟨_, _, ⟨rfl, rfl⟩, _, b₁, hchain, rfl⟩ := h
  exact ⟨b₁, hchain, rfl⟩

/-- How the test of a loop was lowered, if it has one: it goes to `exit` when it fails. -/
def LowersTest (symbols : SymbolTable) (exit : OperandId) (b : Builder) : Option Expr → Builder → Prop
  | none, b' => b' = b
  | some test, b' => ∃ t b₁, lowerExpr symbols test b = .ok (some t) b₁ ∧
      b' = b₁.withInstr .branch none (some t) (some exit) []

theorem lowerStmt_loop {init update body : Stmt} {test : Option Expr}
    (h : lowerStmt scope (.loop init test update body) b = .ok u b') : ∃ b₁ b₂ b₃ b₄ b₅ start next exit,
      lowerStmt scope init b = .ok () b₁ ∧ start = b₁.code.operands.size ∧
      next = b₁.withLabel.code.operands.size ∧ exit = b₁.withLabel.withLabel.code.operands.size ∧
      b₂ = b₁.withLabel.withLabel.withLabel.withInstr .label none (some start) none [] ∧
      LowersTest scope.symbols exit b₂ test b₃ ∧
      lowerStmt { scope with loop := some ⟨next, exit⟩ } body b₃ = .ok () b₄ ∧
      lowerStmt scope update (b₄.withInstr .label none (some next) none []) = .ok () b₅ ∧
      b' = (b₅.withInstr .jump none (some start) none []).withInstr .label none (some exit) none [] := by
  simp only [lowerStmt, place, jump, branch, bind_eq_ok, newLabel_eq_ok, emit_eq_ok] at h
  obtain ⟨_, b₁, hinit, _, _, ⟨rfl, rfl⟩, _, _, ⟨rfl, rfl⟩, _, _, ⟨rfl, rfl⟩, _, _, rfl, h⟩ := h
  cases test with
  | none =>
    simp only [bind_eq_ok, emit_eq_ok] at h
    obtain ⟨_, b₄, hbody, _, _, rfl, _, b₅, hupdate, _, _, rfl, rfl⟩ := h
    exact ⟨b₁, _, _, b₄, b₅, _, _, _, hinit, rfl, rfl, rfl, rfl, rfl, hbody, hupdate, rfl⟩
  | some test =>
    simp only [bind_eq_ok, emit_eq_ok] at h
    obtain ⟨t, bt, ht, _, _, rfl, _, b₄, hbody, _, _, rfl, _, b₅, hupdate, _, _, rfl, rfl⟩ := h
    exact ⟨b₁, _, _, b₄, b₅, _, _, _, hinit, rfl, rfl, rfl, rfl, ⟨t, bt, lowerValue_eq_ok ht, rfl⟩, hbody, hupdate, rfl⟩

theorem lowerStmt_leave (h : lowerStmt scope .leave b = .ok u b') :
    ∃ labels, scope.loop = some labels ∧ b' = b.withInstr .jump none (some labels.exit) none [] := by
  simp only [lowerStmt, jump] at h
  cases hl : scope.loop with
  | none =>
    rw [hl] at h
    exact absurd h throw_ne_ok
  | some labels =>
    rw [hl] at h
    exact ⟨labels, rfl, emit_eq_ok.mp h⟩

theorem lowerStmt_next (h : lowerStmt scope .next b = .ok u b') :
    ∃ labels, scope.loop = some labels ∧ b' = b.withInstr .jump none (some labels.update) none [] := by
  simp only [lowerStmt, jump] at h
  cases hl : scope.loop with
  | none =>
    rw [hl] at h
    exact absurd h throw_ne_ok
  | some labels =>
    rw [hl] at h
    exact ⟨labels, rfl, emit_eq_ok.mp h⟩

theorem returnSlot_eq_ok {slot : OperandId} (h : returnSlot scope b = .ok slot b') :
    ∃ f, scope.function = some f ∧ slot = f.returnValue ∧ b' = b := by
  obtain ⟨hslot, rfl⟩ := require_eq_ok.mp h
  obtain ⟨f, hf, rfl⟩ := Option.map_eq_some_iff.mp hslot
  exact ⟨f, hf, rfl, rfl⟩

theorem lowerStmt_ret_none (h : lowerStmt scope (.ret none) b = .ok u b') : b' = b.withInstr .ret none none none [] := by
  simp only [lowerStmt, bind_eq_ok, emit_eq_ok] at h
  obtain ⟨slot, b₁, hslot, rfl⟩ := h
  obtain ⟨f, -, -, rfl⟩ := returnSlot_eq_ok hslot
  rfl

theorem lowerStmt_ret {value : Expr} (h : lowerStmt scope (.ret (some value)) b = .ok u b') :
    ∃ f v b₁, scope.function = some f ∧ lowerExpr scope.symbols value b = .ok (some v) b₁ ∧
      b' = (b₁.withInstr .assign (some f.returnValue) (some v) none []).withInstr .ret none
        (some f.returnValue) none [] := by
  simp only [lowerStmt, bind_eq_ok, emit_eq_ok] at h
  obtain ⟨v, b₁, hv, slot, b₂, hslot, _, _, rfl, rfl⟩ := h
  obtain ⟨f, hf, rfl, rfl⟩ := returnSlot_eq_ok hslot
  exact ⟨f, v, b₂, hf, lowerValue_eq_ok hv, rfl⟩

theorem lowerChain_last {exit : OperandId} {test : Expr} {body : Stmt} {rest : Chain} (hrest : rest.isDone = true)
    (h : lowerChain scope exit (.arm test body rest) b = .ok u b') : ∃ t b₁,
      lowerExpr scope.symbols test b = .ok (some t) b₁ ∧
      lowerStmt scope body (b₁.withInstr .branch none (some t) (some exit) []) = .ok () b' := by
  simp only [lowerChain, branch, hrest, if_true, bind_eq_ok, pure_eq_ok, emit_eq_ok] at h
  obtain ⟨_, _, ⟨rfl, rfl⟩, t, b₁, ht, _, _, rfl, _, b₂, hbody, h⟩ := h
  cases rest with
  | done =>
    simp only [lowerChain] at h
    obtain ⟨-, rfl⟩ := pure_eq_ok.mp h
    exact ⟨t, b₁, lowerValue_eq_ok ht, hbody⟩
  | otherwise body => cases hrest
  | arm test body rest => cases hrest

theorem lowerChain_arm {exit : OperandId} {test : Expr} {body : Stmt} {rest : Chain} (hrest : rest.isDone = false)
    (h : lowerChain scope exit (.arm test body rest) b = .ok u b') : ∃ t b₁ b₂ b₃,
      lowerExpr scope.symbols test b.withLabel = .ok (some t) b₁ ∧
      lowerStmt scope body (b₁.withInstr .branch none (some t) (some b.code.operands.size) []) = .ok () b₂ ∧
      b₃ = (if b₂.code.instrs.back?.any (·.isTransfer) then b₂ else b₂.withInstr .jump none (some exit) none []) ∧
      lowerChain scope exit rest (b₃.withInstr .label none (some b.code.operands.size) none []) = .ok () b' := by
  simp only [lowerChain, branch, place, jump, hrest, bind_eq_ok, emit_eq_ok, newLabel_eq_ok, endsInTransfer_eq_ok,
    if_false, Bool.false_eq_true] at h
  obtain ⟨_, _, ⟨rfl, rfl⟩, t, b₁, ht, _, _, rfl, _, b₂, hbody, _, _, ⟨rfl, rfl⟩, h⟩ := h
  refine ⟨t, b₁, _, _, lowerValue_eq_ok ht, hbody, rfl, ?_⟩
  split at h
  · simp only [bind_eq_ok, emit_eq_ok] at h
    obtain ⟨_, _, rfl, h⟩ := h
    rw [if_pos (by assumption)]
    exact h
  · simp only [bind_eq_ok, emit_eq_ok] at h
    obtain ⟨_, _, rfl, _, _, rfl, h⟩ := h
    rw [if_neg (by assumption)]
    exact h

end Stmt

section Program

variable {symbols : SymbolTable} {b b' : Builder} {u : Unit}

theorem lowerParams_cons {pos : Nat} {id : SymbolId} {params : List SymbolId}
    (h : lowerParams symbols pos (id :: params) b = .ok u b') : ∃ s b₁, symbols.get? id = some s ∧
      b₁ = b.withTemp (.param pos) ∧
      lowerParams symbols (pos + 1) params ((b₁.withSymbol id s).withInstr (.param pos)
        (some (b₁.code.operands.symbol id s).1) (some b.code.operands.size) none []) = .ok () b' := by
  simp only [lowerParams, bind_eq_ok, newTemp_eq_ok, symbol_eq_ok, emit_eq_ok] at h
  obtain ⟨_, _, ⟨rfl, rfl⟩, _, _, ⟨s, hs, rfl, rfl⟩, _, _, rfl, h⟩ := h
  exact ⟨s, _, hs, rfl, h⟩

/-- The header, the parameters, the temporary of the return value, the body, and a return unless the body
ends in one. -/
theorem lowerFunction_eq_ok {id : SymbolId} {params : List SymbolId} {body : Stmt}
    (h : lowerFunction symbols id params body b = .ok u b') : ∃ s b₁ b₂ b₃, symbols.get? id = some s ∧
      b₁ = (b.withSymbol id s).withInstr .header (some (b.code.operands.symbol id s).1) none none [] ∧
      lowerParams symbols 0 params b₁ = .ok () b₂ ∧
      lowerStmt { symbols, function := some ⟨b₂.code.operands.size⟩ } body (b₂.withTemp .returnValue) = .ok () b₃ ∧
      b'.code = (if b₃.code.instrs.back?.any (·.op = .ret) then b₃
        else b₃.withInstr .ret none none none []).code := by
  simp only [lowerFunction, bind_eq_ok, get_eq_ok, lookup_eq_ok, symbol_eq_ok, newTemp_eq_ok,
    emit_eq_ok] at h
  obtain ⟨_, _, ⟨rfl, rfl⟩, s, _, ⟨hs, rfl⟩, _, _, ⟨s', hs', rfl, rfl⟩, _, _, rfl, _, b₂, hparams, _, _, ⟨rfl, rfl⟩,
    _, b₃, hbody, _, _, ⟨rfl, rfl⟩, h⟩ := h
  refine ⟨s', _, b₂, _, hs', rfl, hparams, hbody, ?_⟩
  split at h
  · simp only [bind_eq_ok, get_eq_ok, report_eq_ok] at h
    obtain ⟨_, _, ⟨rfl, rfl⟩, rfl⟩ := h
    rw [if_pos (by assumption)]
  · simp only [bind_eq_ok, get_eq_ok, report_eq_ok, emit_eq_ok] at h
    obtain ⟨_, _, rfl, _, _, ⟨rfl, rfl⟩, rfl⟩ := h
    rw [if_neg (by assumption)]

theorem lowerGlobal_eq_ok {id : SymbolId} {init : Option Expr} (h : lowerGlobal symbols id init b = .ok u b') :
    b'.code = b.code := by
  simp only [lowerGlobal] at h
  cases init with
  | none =>
    simp only [bind_eq_ok, pure_eq_ok, modify_eq_ok] at h
    obtain ⟨_, _, ⟨rfl, rfl⟩, rfl⟩ := h
    rfl
  | some e =>
    cases he : e.word? with
    | none =>
      simp only [he, bind_eq_ok] at h
      obtain ⟨_, _, -, _, _, hthrow, -⟩ := h
      exact absurd hthrow throw_ne_ok
    | some word =>
      simp only [he, bind_eq_ok, pure_eq_ok, modify_eq_ok] at h
      obtain ⟨_, _, ⟨rfl, rfl⟩, rfl⟩ := h
      rfl

theorem lowerProgram_eq_ok {p : Program} {l : Lowered} (h : p.lower = .ok l) :
    ∃ b, lowerDecls p.symbols p.decls {} = .ok () b ∧ l.code = b.code := by
  unfold Program.lower at h
  split at h
  case h_1 lowered b hrun =>
    simp only [EStateM.run, lowerProgram, bind_eq_ok, get_eq_ok, report_eq_ok, pure_eq_ok] at hrun
    obtain ⟨_, b₁, hdecls, _, _, ⟨rfl, rfl⟩, _, _, rfl, rfl, rfl⟩ := hrun
    cases h
    exact ⟨_, hdecls, rfl⟩
  case h_2 => cases h

theorem lower_of_lowerDecls {p : Program} {b : Builder} (h : lowerDecls p.symbols p.decls {} = .ok () b) :
    p.lower = .ok ⟨b.code, b.globals.toList⟩ := by
  have hrun : (lowerProgram p).run {} = .ok ⟨b.code, b.globals.toList⟩
      { b with log := b.log.push (.loweredUnit b.code.instrs.size b.code.operands.size) } := by
    simp only [EStateM.run, lowerProgram, bind_eq_ok, get_eq_ok, report_eq_ok, pure_eq_ok]
    exact ⟨(), b, h, b, b, ⟨rfl, rfl⟩, (), _, rfl, rfl, rfl⟩
  rw [Program.lower, hrun]

theorem lowerDecls_append {before after : List Decl} :
    lowerDecls symbols (before ++ after) b = .ok u b' ↔
      ∃ b₁, lowerDecls symbols before b = .ok () b₁ ∧ lowerDecls symbols after b₁ = .ok u b' := by
  induction before generalizing b with
  | nil => simp [lowerDecls, pure_eq_ok]
  | cons d before ih =>
    simp only [List.cons_append, lowerDecls, bind_eq_ok, ih]
    grind

end Program

end MiddleEnd
