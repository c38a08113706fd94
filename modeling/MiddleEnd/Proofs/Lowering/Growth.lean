import MiddleEnd.Proofs.Arena
import MiddleEnd.Proofs.Code
import MiddleEnd.Proofs.Lowering.Builder
import Mathlib.Tactic.ByContra

/-! Code only grows while it is built: instructions and operands are added at the end, and what was there
stays. -/

namespace MiddleEnd

/-- `d` is `c` with more instructions and operands at the end. -/
structure Code.Grows (c d : Code) : Prop where
  instrs : ∀ (i : Nat) (z : Instr), c.instrs[i]? = some z → d.instrs[i]? = some z
  operands : ∀ y o, c.operands.get? y = some o → d.operands.get? y = some o
  interned : ∀ (s : SymbolId) (y : OperandId), c.operands.interned[s]? = some y → d.operands.interned[s]? = some y

namespace Code

namespace Grows

theorem refl (c : Code) : c.Grows c := ⟨fun _ _ h => h, fun _ _ h => h, fun _ _ h => h⟩

theorem trans {c d e : Code} (h : c.Grows d) (k : d.Grows e) : c.Grows e :=
  ⟨fun i z hz => k.instrs i z (h.instrs i z hz), fun y o ho => k.operands y o (h.operands y o ho),
    fun s y hy => k.interned s y (h.interned s y hy)⟩

theorem size_instrs {c d : Code} (h : c.Grows d) : c.instrs.size ≤ d.instrs.size := by
  by_contra hlt
  obtain ⟨z, hz⟩ : ∃ z, c.instrs[d.instrs.size]? = some z := ⟨_, Array.getElem?_eq_getElem (by omega)⟩
  have := h.instrs _ z hz
  simp at this

theorem size_operands {c d : Code} (h : c.Grows d) : c.operands.size ≤ d.operands.size := by
  by_contra hlt
  obtain ⟨o, ho⟩ := Arena.exists_of_lt_size (a := c.operands) (y := d.operands.size) (by omega)
  have := Arena.lt_size_of_get? (h.operands _ o ho)
  omega

theorem instr_of_lt {c d : Code} (h : c.Grows d) {i : Nat} {z : Instr} (hz : d.instrs[i]? = some z)
    (hi : i < c.instrs.size) : c.instrs[i]? = some z := by
  rw [← hz, h.instrs i _ (Array.getElem?_eq_getElem hi), Array.getElem?_eq_getElem hi]

end Grows

theorem grows_addOperand (c : Code) (o : Operand) : c.Grows (c.addOperand o) :=
  ⟨fun _ _ h => h, fun _ _ h => Arena.get?_push_of_get? o h, fun _ _ h => h⟩

theorem operands_addSymbol (c : Code) (id : SymbolId) (s : Symbol) :
    (c.addSymbol id s).operands = (c.operands.symbol id s).2 := rfl

theorem grows_addSymbol (c : Code) (id : SymbolId) (s : Symbol) : c.Grows (c.addSymbol id s) := by
  obtain ⟨y, -, h⟩ | ⟨hnone, -, hget, hint⟩ := c.operands.symbol_cases id s
  · rw [addSymbol, h]
    exact .refl c
  · refine ⟨fun _ _ h => h, fun y o ho => ?_, fun t y hy => ?_⟩
    · exact (hget y).trans ((if_neg (Nat.ne_of_lt (Arena.lt_size_of_get? ho))).trans ho)
    · refine (hint t).trans ((if_neg ?_).trans hy)
      rintro rfl
      rw [hnone] at hy
      cases hy

theorem grows_addInstr (c : Code) (z : Instr) : c.Grows (c.addInstr z) := by
  refine ⟨fun i x hx => ?_, fun _ _ h => h, fun _ _ h => h⟩
  have hlt := (Array.getElem?_eq_some_iff.mp hx).1
  rw [addInstr, Array.getElem?_push, if_neg (by omega), hx]

theorem getElem?_addInstr (c : Code) (z : Instr) (i : Nat) :
    (c.addInstr z).instrs[i]? = if i = c.instrs.size then some z else c.instrs[i]? := Array.getElem?_push

theorem size_addInstr (c : Code) (z : Instr) : (c.addInstr z).instrs.size = c.instrs.size + 1 := Array.size_push ..

theorem size_addOperand (c : Code) (o : Operand) : (c.addOperand o).operands.size = c.operands.size + 1 :=
  Array.size_push ..

theorem get?_addOperand (c : Code) (o : Operand) (y : OperandId) :
    (c.addOperand o).operands.get? y = if y = c.operands.size then some o else c.operands.get? y :=
  c.operands.get?_push o y

end Code

theorem size_withInstr (b : Builder) (op : Opcode) (result left right : Option OperandId) (args : List OperandId) :
    (b.withInstr op result left right args).code.instrs.size = b.code.instrs.size + 1 := Code.size_addInstr _ _

theorem getElem?_withInstr (b : Builder) (op : Opcode) (result left right : Option OperandId) (args : List OperandId)
    (i : Nat) : (b.withInstr op result left right args).code.instrs[i]? =
      if i = b.code.instrs.size then some (b.instr op result left right args) else b.code.instrs[i]? :=
  Code.getElem?_addInstr _ _ i

theorem grows_withInstr (b : Builder) (op : Opcode) (result left right : Option OperandId) (args : List OperandId) :
    b.code.Grows (b.withInstr op result left right args).code := Code.grows_addInstr _ _

theorem grows_temp (b : Builder) (tag : Tag) (op : Opcode) (result left right : Option OperandId)
    (args : List OperandId) : b.code.Grows ((b.withTemp tag).withInstr op result left right args).code :=
  (Code.grows_addOperand _ _).trans (Code.grows_addInstr _ _)

end MiddleEnd
