import MiddleEnd.Proofs.Lowering.Sound
import Mathlib.Logic.Relation

/-! The steps that lowering a function is made of. Each adds an operand, gives a symbol its operand or
appends an instruction that fits where it stands, and mentions nothing that belongs to another function.
What every step keeps, lowering keeps. -/

namespace MiddleEnd

mutual
/-- The symbols that an expression mentions. -/
def Expr.mentions : Expr → List SymbolId
  | .literal _ _ => []
  | .name s _ => [s]
  | .binary _ lhs rhs _ => lhs.mentions ++ rhs.mentions
  | .unary _ arg _ => arg.mentions
  | .call callee args _ => callee :: Expr.mentionsAll args
  | .index array pos _ => array :: pos.mentions

def Expr.mentionsAll : List Expr → List SymbolId
  | [] => []
  | e :: es => e.mentions ++ Expr.mentionsAll es
end

mutual
def Stmt.mentions : Stmt → List SymbolId
  | .skip | .leave | .next => []
  | .seq first second => first.mentions ++ second.mentions
  | .declare s init => s :: init.elim [] Expr.mentions
  | .assign s value => s :: value.mentions
  | .store array pos value => array :: pos.mentions ++ value.mentions
  | .eval expr => expr.mentions
  | .cond chain => chain.mentions
  | .loop init test update body => init.mentions ++ test.elim [] Expr.mentions ++ update.mentions ++ body.mentions
  | .ret value => value.elim [] Expr.mentions

def Chain.mentions : Chain → List SymbolId
  | .done => []
  | .otherwise body => body.mentions
  | .arm test body rest => test.mentions ++ body.mentions ++ rest.mentions
end

/-- The symbols that a function mentions, its own and its parameters among them. -/
def Decl.mentions : Decl → List SymbolId
  | .function s params body => s :: params ++ body.mentions
  | .global _ _ => []

/-- What the instructions of a function may mention: the operands of the symbols that the function
mentions, and every other operand from `base` on. -/
structure Share where
  symbols : SymbolTable
  mentions : List SymbolId
  base : Nat

namespace Share

variable (sh : Share)

def Has (a : Arena) (y : OperandId) : Prop :=
  ∃ o, a.get? y = some o ∧ ((∃ s ∈ sh.mentions, o.symbol? = some s) ∨ (o.symbol? = none ∧ sh.base ≤ y))

/-- An operand of the function that no convention fixes. -/
def Plain (a : Arena) (y : OperandId) : Prop := sh.Has a y ∧ ∀ tag, a.tag? y = some tag → tag.isFixed = false

/-- A slot holds such an operand, or nothing. -/
def PlainSlot (a : Arena) (slot : Option OperandId) : Prop := ∀ y, slot = some y → sh.Plain a y

theorem PlainSlot.empty (a : Arena) : sh.PlainSlot a none := fun _ h => by cases h

theorem Plain.slot {sh : Share} {a : Arena} {y : OperandId} (h : sh.Plain a y) : sh.PlainSlot a (some y) := by
  intro x hx
  cases hx
  exact h

/-- A temporary of the function with a tag. -/
def Tagged (a : Arena) (y : OperandId) (tag : Tag) : Prop := sh.Has a y ∧ a.tag? y = some tag

end Share

/-- One step. Labels that are placed have numbers from `floor` on. -/
inductive Code.Step (sh : Share) (floor : Nat) : Code → Code → Prop
  | operand (c : Code) (o : Operand) (ho : o.Fresh) : Step sh floor c (c.addOperand o)
  | symbol (c : Code) (id : SymbolId) (s : Symbol) (hs : sh.symbols.get? id = some s) (hid : id ∈ sh.mentions) :
      Step sh floor c (c.addSymbol id s)
  | instr (c : Code) (z : Instr) (hid : z.id = c.instrs.size) (hop : z.op ≠ .header)
      (hfits : c.Fits c.instrs.size z) (hhas : ∀ y ∈ z.mentions, sh.Has c.operands y)
      (hlabel : z.op = .label → ∀ y, z.left = some y → floor ≤ y ∧ ∀ i, ¬ c.places y i) :
      Step sh floor c (c.addInstr z)

/-- Any number of steps. -/
def Code.Steps (sh : Share) (floor : Nat) : Code → Code → Prop := Relation.ReflTransGen (Code.Step sh floor)

/-- The code that a step may start from. -/
structure Share.Ready (sh : Share) (c : Code) : Prop where
  sound : c.Sound sh.symbols
  base_le : sh.base ≤ c.operands.size

section Kept

variable {sh : Share} {floor : Nat} {c d : Code}

theorem Share.Has.mono {y : OperandId} (h : sh.Has c.operands y) (hg : c.Grows d) : sh.Has d.operands y := by
  obtain ⟨o, ho, hy⟩ := h
  exact ⟨o, hg.operands y o ho, hy⟩

theorem Share.Has.lt {y : OperandId} (h : sh.Has c.operands y) : y < c.operands.size := by
  obtain ⟨o, ho, -⟩ := h
  exact Arena.lt_size_of_get? ho

theorem Share.Tagged.mono {y : OperandId} {tag : Tag} (h : sh.Tagged c.operands y tag) (hg : c.Grows d) :
    sh.Tagged d.operands y tag := ⟨h.1.mono hg, (hg.tag? h.1.lt).trans h.2⟩

theorem Share.Plain.mono {y : OperandId} (h : sh.Plain c.operands y) (hg : c.Grows d) : sh.Plain d.operands y := by
  refine ⟨h.1.mono hg, fun tag ht => h.2 tag ?_⟩
  rwa [hg.tag? h.1.lt] at ht

theorem Share.Tagged.plain {a : Arena} {y : OperandId} {tag : Tag} (h : sh.Tagged a y tag)
    (ht : tag.isFixed = false) : sh.Plain a y := by
  refine ⟨h.1, fun tag' ht' => ?_⟩
  rw [h.2] at ht'
  cases ht'
  exact ht

namespace Code

theorem Step.grows (h : Step sh floor c d) : c.Grows d := by
  cases h with
  | operand o ho => exact c.grows_addOperand o
  | symbol id s hs hid => exact c.grows_addSymbol id s
  | instr z hid hop hfits hhas hlabel => exact c.grows_addInstr z

theorem Step.sound (h : Step sh floor c d) (hc : c.Sound sh.symbols) : d.Sound sh.symbols := by
  cases h with
  | operand o ho => exact hc.addOperand ho
  | symbol id s hs hid => exact hc.addSymbol hs
  | instr z hid hop hfits hhas hlabel => exact hc.addInstr hid hfits fun hz y hy => (hlabel hz y hy).2

theorem Step.mono {low : Nat} (hl : low ≤ floor) (h : Step sh floor c d) : Step sh low c d := by
  cases h with
  | operand o ho => exact .operand c o ho
  | symbol id s hs hid => exact .symbol c id s hs hid
  | instr z hid hop hfits hhas hlabel =>
    refine .instr c z hid hop hfits hhas fun hz y hy => ?_
    obtain ⟨hfloor, hfree⟩ := hlabel hz y hy
    exact ⟨Nat.le_trans hl hfloor, hfree⟩

theorem Step.instr_of_size_le (h : Step sh floor c d) {i : Nat} {z : Instr} (hz : d.instrs[i]? = some z)
    (hi : c.instrs.size ≤ i) : z.op ≠ .header ∧ ∀ y ∈ z.mentions, sh.Has d.operands y := by
  have hold : c.instrs[i]? = none := Array.getElem?_eq_none hi
  cases h with
  | operand o ho => exact absurd (hold.symm.trans hz) (by simp)
  | symbol id s hs hid => exact absurd (hold.symm.trans hz) (by simp)
  | instr x hid hop hfits hhas hlabel =>
    rw [getElem?_addInstr, hold] at hz
    split at hz
    · cases hz
      exact ⟨hop, hhas⟩
    · cases hz

theorem Step.places (h : Step sh floor c d) {y : OperandId} {i : Nat} (hp : d.places y i) :
    c.places y i ∨ floor ≤ y := by
  cases h with
  | operand o ho => exact Or.inl hp
  | symbol id s hs hid => exact Or.inl hp
  | instr x hid hop hfits hhas hlabel =>
    rcases places_addInstr.mp hp with ⟨-, hx, hy⟩ | hp
    · exact Or.inr (hlabel hx y hy).1
    · exact Or.inl hp

namespace Steps

theorem grows (h : Steps sh floor c d) : c.Grows d := by
  induction h with
  | refl => exact .refl c
  | tail _ hstep ih => exact ih.trans hstep.grows

theorem sound (h : Steps sh floor c d) (hc : c.Sound sh.symbols) : d.Sound sh.symbols := by
  induction h with
  | refl => exact hc
  | tail _ hstep ih => exact hstep.sound ih

theorem mono {low : Nat} (hl : low ≤ floor) (h : Steps sh floor c d) : Steps sh low c d := by
  induction h with
  | refl => exact .refl
  | tail _ hstep ih => exact ih.tail (hstep.mono hl)

theorem instr_of_size_le (h : Steps sh floor c d) {i : Nat} {z : Instr} (hz : d.instrs[i]? = some z)
    (hi : c.instrs.size ≤ i) : z.op ≠ .header ∧ ∀ y ∈ z.mentions, sh.Has d.operands y := by
  induction h with
  | refl =>
    rw [Array.getElem?_eq_none hi] at hz
    cases hz
  | @tail d e _ hstep ih =>
    rcases Nat.lt_or_ge i d.instrs.size with hlt | hge
    · have hd := Array.getElem?_eq_getElem hlt
      have he := hstep.grows.instrs i _ hd
      rw [hz] at he
      cases he
      obtain ⟨hop, hhas⟩ := ih hd
      exact ⟨hop, fun y hy => (hhas y hy).mono hstep.grows⟩
    · exact hstep.instr_of_size_le hz hge

theorem places (h : Steps sh floor c d) {y : OperandId} {i : Nat} (hp : d.places y i) :
    c.places y i ∨ floor ≤ y := by
  induction h with
  | refl => exact Or.inl hp
  | tail _ hstep ih =>
    rcases hstep.places hp with hp | hy
    · exact ih hp
    · exact Or.inr hy

theorem ready (h : Steps sh floor c d) (hc : sh.Ready c) : sh.Ready d :=
  ⟨h.sound hc.sound, Nat.le_trans hc.base_le h.grows.size_operands⟩

end Steps

end Code

end Kept

end MiddleEnd
