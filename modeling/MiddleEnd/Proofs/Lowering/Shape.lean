import MiddleEnd.Proofs.Lowering.Linear

/-! The shape of emitted code: what an instruction holds in its slots and what stands around it, by its opcode. It is
enough to look at the instructions that a phrase adds, because what comes later leaves them where they are. -/

namespace MiddleEnd

open Builder LowerM

namespace Code

/-- `Q` holds of every instruction, at its position. -/
def Each (Q : Code → Nat → Instr → Prop) (c : Code) : Prop := ∀ (i : Nat) (z : Instr), c.instrs[i]? = some z → Q c i z

/-- `d` is `c` with more at the end, and `Q` holds of the new instructions. -/
structure GrowsBy (Q : Code → Nat → Instr → Prop) (c d : Code) : Prop where
  grows : c.Grows d
  fresh : ∀ (i : Nat) (z : Instr), c.instrs.size ≤ i → d.instrs[i]? = some z → Q d i z

/-- `Q` goes on holding while code grows. -/
def Stays (Q : Code → Nat → Instr → Prop) : Prop := ∀ ⦃c d : Code⦄ ⦃i : Nat⦄ ⦃z : Instr⦄, c.Grows d → Q c i z → Q d i z

namespace GrowsBy

variable {Q : Code → Nat → Instr → Prop} {c d e : Code}

theorem of_instrs (hg : c.Grows d) (h : d.instrs = c.instrs) : GrowsBy Q c d := by
  refine ⟨hg, fun i z hi hz => ?_⟩
  have := (Array.getElem?_eq_some_iff.mp hz).1
  rw [h] at this
  omega

theorem trans (hQ : Stays Q) (h : GrowsBy Q c d) (k : GrowsBy Q d e) : GrowsBy Q c e := by
  refine ⟨h.grows.trans k.grows, fun i z hi hz => ?_⟩
  rcases Nat.lt_or_ge i d.instrs.size with hlt | hge
  · exact hQ k.grows (h.fresh i z hi (k.grows.instr_of_lt hz hlt))
  · exact k.fresh i z hge hz

theorem addInstr (c : Code) {z : Instr} (h : Q (c.addInstr z) c.instrs.size z) : GrowsBy Q c (c.addInstr z) := by
  refine ⟨c.grows_addInstr z, fun i x hi hx => ?_⟩
  rw [getElem?_addInstr] at hx
  split at hx
  case isTrue he =>
    cases hx
    exact he ▸ h
  case isFalse =>
    have := (Array.getElem?_eq_some_iff.mp hx).1
    omega

theorem accretive (hQ : Stays Q) : Accretive (GrowsBy Q) where
  refl c := .of_instrs (.refl c) rfl
  trans := trans hQ
  operand c o _ := .of_instrs (c.grows_addOperand o) rfl
  symbol c id s := .of_instrs (c.grows_addSymbol id s) rfl

end GrowsBy

/-- What holds of the new instructions of every phrase. -/
structure Shaped (Q : Code → Nat → Instr → Prop) : Prop where
  stays : Stays Q
  compute : ∀ (b : Builder) tag op left right, tag.computedBy? = some op →
    Q ((b.withTemp tag).withInstr op (some b.code.operands.size) left right []).code b.code.instrs.size
      (b.instr op (some b.code.operands.size) left right [])
  plain : ∀ (c : Code) z, z.op.isPlain = true → Q (c.addInstr z) c.instrs.size z
  call : ∀ symbols callee values ty, (lowerCall symbols callee values ty).Makes (GrowsBy Q)
  place : ∀ (b : Builder) op y, op = .label ∨ op = .jump →
    Q (b.withInstr op none (some y) none []).code b.code.instrs.size (b.instr op none (some y) none [])
  test : ∀ {symbols e b t b'}, lowerExpr symbols e b = .ok (some t) b' → ∀ y,
    Q (b'.withInstr .branch none (some t) (some y) []).code b'.code.instrs.size
      (b'.instr .branch none (some t) (some y) [])

namespace Shaped

variable {Q : Code → Nat → Instr → Prop} (hQ : Shaped Q)
include hQ

theorem phrasal : Phrasal (GrowsBy Q) where
  toAccretive := GrowsBy.accretive hQ.stays
  compute b tag op left right h :=
    (GrowsBy.of_instrs (b.code.grows_addOperand _) rfl).trans hQ.stays
      (.addInstr (b.withTemp tag).code (hQ.compute b tag op left right h))
  plain c z h := .addInstr c (hQ.plain c z h)
  call := hQ.call

theorem clausal : Clausal (GrowsBy Q) where
  toPhrasal := hQ.phrasal
  label b := .of_instrs (b.code.grows_addOperand _) rfl
  place b op y h := .addInstr b.code (hQ.place b op y h)
  test h y := (makes_lowerExpr hQ.phrasal _ _ h).trans hQ.stays (.addInstr _ (hQ.test h y))

theorem lower {p : Program} {l : Lowered} (h : p.lower = .ok l) : l.code.Each Q :=
  fun i z hz => (Program.lower_makes hQ.clausal h).fresh i z (Nat.zero_le i) hz

end Shaped

end Code

open Code

theorem lowerCall_isCalling (symbols : SymbolTable) (callee : SymbolId) (values : List OperandId) (ty : Ty) :
    (lowerCall symbols callee values ty).Makes (GrowsBy fun _ _ z => z.op.isCalling = true) :=
  makes_lowerCall (GrowsBy.accretive fun _ _ _ _ _ h => h) (fun c _ h => .addInstr c h) ..

theorem tag?_compute (b : Builder) (tag : Tag) (op : Opcode) (result left right : Option OperandId)
    (args : List OperandId) :
    ((b.withTemp tag).withInstr op result left right args).code.operands.tag? b.code.operands.size = some tag :=
  (congrArg (Option.bind · Operand.tag?) (get?_addOperand_self b.code _)).trans rfl

/-- The operand is that of a symbol or a constant, or was written right before the position. -/
def Code.JustMade (c : Code) (y : OperandId) (i : Nat) : Prop :=
  (∃ id : SymbolId, c.operands.interned[id]? = some y) ∨ (y < c.operands.size ∧ c.operands.tag? y = none) ∨
    ∃ k, i = k + 1 ∧ c.WritesAt y k

theorem Code.JustMade.mono {c d : Code} {y : OperandId} {i : Nat} (h : c.JustMade y i) (hg : c.Grows d) :
    d.JustMade y i := by
  rcases h with ⟨id, hid⟩ | ⟨hlt, htag⟩ | ⟨k, hk, w, hw, hdest⟩
  · exact Or.inl ⟨id, hg.interned id y hid⟩
  · exact Or.inr (Or.inl ⟨Nat.lt_of_lt_of_le hlt hg.size_operands, (hg.tag? hlt).trans htag⟩)
  · exact Or.inr (Or.inr ⟨k, hk, w, hg.instrs k w hw, hdest⟩)

theorem justMade_withInstr (b : Builder) {op : Opcode} (hop : op ≠ .header) (y : OperandId)
    (left right : Option OperandId) (args : List OperandId) :
    (b.withInstr op (some y) left right args).code.JustMade y
      (b.withInstr op (some y) left right args).code.instrs.size :=
  Or.inr (Or.inr ⟨b.code.instrs.size, size_withInstr .., _, instrs_withInstr .., Instr.dest?_eq_result hop⟩)

/-- Whatever an expression is, its value is there as soon as it is lowered. -/
theorem lowerExpr_justMade {symbols : SymbolTable} {e : Expr} {b b' : Builder} {y : OperandId}
    (h : lowerExpr symbols e b = .ok (some y) b') : b'.code.JustMade y b'.code.instrs.size := by
  cases e with
  | literal lit ty =>
    obtain ⟨hy, rfl⟩ := lowerExpr_literal h
    cases hy
    have hget := get?_addOperand_self b.code { kind := .int lit.word, isValue := false }
    exact Or.inr (Or.inl ⟨Arena.lt_size_of_get? hget, by rw [Arena.tag?, withInt, hget]; rfl⟩)
  | name id ty =>
    obtain ⟨s, -, hy, rfl⟩ := lowerExpr_name h
    cases hy
    exact Or.inl ⟨id, b.code.operands.interned_symbol id s⟩
  | binary op lhs rhs ty =>
    obtain ⟨l, b₁, r, b₂, -, -, hy, rfl⟩ := lowerExpr_binary h
    cases hy
    exact justMade_withInstr _ (by simp) ..
  | unary op arg ty =>
    obtain ⟨a, b₁, -, hy, rfl⟩ := lowerExpr_unary h
    cases hy
    exact justMade_withInstr _ (by simp) ..
  | call callee args ty =>
    obtain ⟨values, b₁, -, hcall⟩ := lowerExpr_call h
    by_cases hty : ty = .void
    · obtain ⟨_, _, _, -, -, hy, -⟩ := lowerCall_void hty hcall
      cases hy
    · obtain ⟨_, _, _, b₂, b₃, -, -, -, -, hy, hcode⟩ := lowerCall_value hty hcall
      cases hy
      rw [hcode]
      exact justMade_withInstr _ (by simp) ..
  | index array pos ty =>
    obtain ⟨s, size, p, b₁, address, b₂, -, -, -, -, hy, rfl⟩ := lowerExpr_index h
    cases hy
    exact justMade_withInstr _ (by simp) ..

/-- What an instruction of lowered code holds in its slots, if it is a jump, a comparison or a branch. -/
structure Code.Typical (c : Code) (i : Nat) (z : Instr) : Prop where
  jump : z.op = .jump → z.args = []
  compare : ∀ op, z.op = .binary (.rel op) → ∃ y, z.result = some y ∧ c.operands.tag? y = some (.binary (.rel op))
  branch : z.op = .branch → ∃ t, z.left = some t ∧ c.JustMade t i

theorem Code.typical_of_op {c : Code} {i : Nat} {z : Instr} (h : z.op.isPlain = true ∨ z.op.isCalling = true) :
    c.Typical i z := by
  refine ⟨fun hop => ?_, fun op hop => ?_, fun hop => ?_⟩ <;> rw [hop] at h <;> rcases h with h | h <;> cases h

theorem Code.shaped_typical : Shaped Code.Typical where
  stays _ _ _ _ hg h := by
    refine ⟨h.jump, fun op hop => ?_, fun hop => ?_⟩
    · obtain ⟨y, hy, htag⟩ := h.compare op hop
      exact ⟨y, hy, hg.tagged htag⟩
    · obtain ⟨t, ht, hmade⟩ := h.branch hop
      exact ⟨t, ht, hmade.mono hg⟩
  compute b tag op left right h := by
    refine ⟨fun _ => rfl, fun r hop => ⟨_, rfl, (tag?_compute ..).trans ?_⟩, fun hop => ?_⟩
    · rw [show op = .binary (.rel r) from hop] at h
      cases tag <;> cases h
      rfl
    · rw [show op = .branch from hop] at h
      cases tag <;> cases h
  plain c z h := typical_of_op (Or.inl h)
  call symbols callee values ty b b' o h := by
    obtain ⟨hg, hop⟩ := lowerCall_isCalling symbols callee values ty h
    exact ⟨hg, fun i z hi hz => typical_of_op (Or.inr (hop i z hi hz))⟩
  place b op y h := by
    refine ⟨fun _ => rfl, fun r hop => ?_, fun hop => ?_⟩ <;> rcases h with rfl | rfl <;> cases hop
  test h y := by
    refine ⟨fun _ => rfl, fun r hop => ?_, fun _ => ⟨_, rfl, (lowerExpr_justMade h).mono (grows_withInstr ..)⟩⟩
    cases hop

end MiddleEnd
