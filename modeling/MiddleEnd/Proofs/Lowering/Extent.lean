import MiddleEnd.Proofs.Lowering.Growth
import MiddleEnd.Proofs.Lowering.Inversion

/-! Lowering adds to the code and changes nothing in it, whatever is lowered. Expressions and statements are
lowered in phrases: a temporary with the instruction that computes it, a call with its marshalling, a test with
its branch. What every phrase keeps is kept by the lowering of a program. -/

namespace MiddleEnd

def Operand.isLabel (o : Operand) : Bool :=
  match o.kind with
  | .label _ => true
  | _ => false

def Arena.isLabel (a : Arena) (y : OperandId) : Bool := (a.get? y).any (·.isLabel)

/-- Instructions with the opcode place a label or go to one. -/
def Opcode.usesLabel : Opcode → Bool
  | .label | .jump | .branch => true
  | _ => false

/-- The opcode that computes the temporaries with a tag, if that is all there is to it. -/
def Tag.computedBy? : Tag → Option Opcode
  | .binary op => some (.binary op)
  | .unary op => some (.unary op)
  | .offset => some (.binary (.arith .mul))
  | .address => some .address
  | .load => some .load
  | _ => none

/-- Instructions with the opcode stand by themselves: they take a value to where the source wants it, or begin or
end a function. -/
def Opcode.isPlain : Opcode → Bool
  | .header | .param _ | .assign | .store | .ret => true
  | _ => false

/-- Instructions with the opcode take part in a call: they move an argument, call, or copy what was returned. -/
def Opcode.isCalling : Opcode → Bool
  | .arg _ | .call | .assign => true
  | _ => false

/-- The code before and after the computation is related. -/
def LowerM.Makes {α : Type} (R : Code → Code → Prop) (x : LowerM α) : Prop :=
  ∀ ⦃b b' : Builder⦄ ⦃a : α⦄, x b = .ok a b' → R b.code b'.code

/-- A computation that only adds to the code. -/
abbrev LowerM.Adds {α : Type} (x : LowerM α) : Prop := x.Makes Code.Grows

namespace Code

/-- A preorder that goes up with operands other than labels. -/
structure Accretive (R : Code → Code → Prop) : Prop where
  refl : ∀ c, R c c
  trans : ∀ {c d e}, R c d → R d e → R c e
  operand : ∀ c o, o.isLabel = false → R c (c.addOperand o)
  symbol : ∀ c id s, R c (c.addSymbol id s)

/-- A preorder that goes up with every phrase of an expression. -/
structure Phrasal (R : Code → Code → Prop) : Prop extends Accretive R where
  compute : ∀ (b : Builder) tag op left right, tag.computedBy? = some op →
    R b.code ((b.withTemp tag).withInstr op (some b.code.operands.size) left right []).code
  plain : ∀ c z, z.op.isPlain = true → R c (c.addInstr z)
  call : ∀ symbols callee values ty, (lowerCall symbols callee values ty).Makes R

/-- A preorder that goes up with every phrase of a statement. -/
structure Clausal (R : Code → Code → Prop) : Prop extends Phrasal R where
  label : ∀ b : Builder, R b.code b.withLabel.code
  place : ∀ (b : Builder) op y, op = .label ∨ op = .jump → R b.code (b.withInstr op none (some y) none []).code
  test : ∀ {symbols e b t b₁}, lowerExpr symbols e b = .ok (some t) b₁ →
    ∀ y, R b.code (b₁.withInstr .branch none (some t) (some y) []).code

/-- A preorder that goes up with everything that straight-line code is made of. -/
structure Additive (R : Code → Code → Prop) : Prop extends Accretive R where
  instr : ∀ c z, z.op.usesLabel = false → R c (c.addInstr z)

/-- A preorder that goes up with everything that lowering adds, labels included. What places a label or jumps to
one has the label in its left slot, and nothing in its right one. -/
structure Cumulative (R : Code → Code → Prop) : Prop where
  refl : ∀ c, R c c
  trans : ∀ {c d e}, R c d → R d e → R c e
  operand : ∀ c o, R c (c.addOperand o)
  symbol : ∀ c id s, R c (c.addSymbol id s)
  instr : ∀ c z, (z.op = .label ∨ z.op = .jump → z.right = none) → R c (c.addInstr z)

theorem Cumulative.additive {R : Code → Code → Prop} (h : Cumulative R) : Additive R where
  refl := h.refl
  trans := h.trans
  operand := fun c o _ => h.operand c o
  symbol := h.symbol
  instr := fun c z hz => h.instr c z fun hop => by rcases hop with hop | hop <;> · rw [hop] at hz; cases hz

theorem Cumulative.grows : Cumulative Grows :=
  ⟨.refl, .trans, grows_addOperand, grows_addSymbol, fun c z _ => c.grows_addInstr z⟩

end Code

namespace LowerM

variable {α β : Type}

section Accretive

variable {R : Code → Code → Prop} (hR : Code.Accretive R)
include hR

theorem makes_bind {x : LowerM α} {f : α → LowerM β} (hx : x.Makes R) (hf : ∀ a, (f a).Makes R) :
    (x >>= f).Makes R := by
  intro b b' y h
  obtain ⟨a, b₁, ha, h⟩ := bind_eq_ok.mp h
  exact hR.trans (hx ha) (hf a h)

omit hR in
theorem Makes.map {x : LowerM α} {f : α → β} (hx : x.Makes R) : (f <$> x).Makes R := by
  intro b b' y h
  obtain ⟨a, ha, -⟩ := map_eq_ok.mp h
  exact hx ha

omit hR in
theorem Makes.ite {p : Prop} [Decidable p] {x y : LowerM α} (hx : x.Makes R) (hy : y.Makes R) :
    (if p then x else y).Makes R := by
  split
  · exact hx
  · exact hy

omit hR in
theorem makes_throw (e : LowerError) : Makes R (throw e : LowerM α) := fun _ _ _ h => absurd h throw_ne_ok

theorem makes_pure (a : α) : Makes R (pure a) := by
  intro b b' y h
  obtain ⟨-, rfl⟩ := pure_eq_ok.mp h
  exact hR.refl _

theorem makes_report (e : Event) : (report e).Makes R := by
  intro b b' u h
  rw [report_eq_ok.mp h]
  exact hR.refl _

theorem makes_lookup (symbols : SymbolTable) (id : SymbolId) : (lookup symbols id).Makes R := by
  intro b b' s h
  obtain ⟨-, rfl⟩ := lookup_eq_ok.mp h
  exact hR.refl _

theorem makes_symbol (symbols : SymbolTable) (id : SymbolId) : (symbol symbols id).Makes R := by
  intro b b' o h
  obtain ⟨s, -, -, rfl⟩ := symbol_eq_ok.mp h
  exact hR.symbol _ _ _

theorem makes_int (value : Int64) : (int value).Makes R := by
  intro b b' o h
  obtain ⟨-, rfl⟩ := int_eq_ok.mp h
  exact hR.operand _ _ rfl

theorem makes_newTemp (tag : Tag) : (newTemp tag).Makes R := by
  intro b b' o h
  obtain ⟨-, rfl⟩ := newTemp_eq_ok.mp h
  exact hR.operand _ _ rfl

theorem makes_require (site : ValueSite) (o : Option OperandId) : (require site o).Makes R := by
  intro b b' x h
  obtain ⟨-, rfl⟩ := require_eq_ok.mp h
  exact hR.refl _

theorem makes_endsInTransfer : endsInTransfer.Makes R := by
  intro b b' t h
  obtain ⟨-, rfl⟩ := endsInTransfer_eq_ok.mp h
  exact hR.refl _

end Accretive

theorem makes_emit {R : Code → Code → Prop} {op : Opcode} (hop : ∀ c z, z.op = op → R c (c.addInstr z))
    (result left right : Option OperandId) (args : List OperandId) : (emit op result left right args).Makes R := by
  intro b b' u h
  rw [emit_eq_ok.mp h]
  exact hop _ _ rfl

section Phrasal

variable {R : Code → Code → Prop} (hR : Code.Phrasal R)
include hR

theorem makes_compute {tag : Tag} {op : Opcode} (htag : tag.computedBy? = some op) (left right : Option OperandId)
    {k : OperandId → LowerM α} (hk : ∀ o, (k o).Makes R) :
    (newTemp tag >>= fun o => emit op (some o) left right >>= fun _ => k o).Makes R := by
  intro b b' a h
  simp only [bind_eq_ok, newTemp_eq_ok, emit_eq_ok] at h
  obtain ⟨_, _, ⟨rfl, rfl⟩, _, _, rfl, h⟩ := h
  exact hR.trans (hR.compute b tag op left right htag) (hk _ h)

theorem makes_plain {op : Opcode} (hop : op.isPlain = true) (result left right : Option OperandId) :
    (emit op result left right).Makes R :=
  makes_emit (fun c z hz => hR.plain c z (hz ▸ hop)) ..

end Phrasal

section Clausal

variable {R : Code → Code → Prop} (hR : Code.Clausal R)
include hR

theorem makes_place (y : OperandId) : (place y).Makes R := by
  intro b b' u h
  rw [emit_eq_ok.mp h]
  exact hR.place b .label y (Or.inl rfl)

theorem makes_jump (y : OperandId) : (jump y).Makes R := by
  intro b b' u h
  rw [emit_eq_ok.mp h]
  exact hR.place b .jump y (Or.inr rfl)

theorem makes_newLabel : newLabel.Makes R := by
  intro b b' o h
  obtain ⟨-, rfl⟩ := newLabel_eq_ok.mp h
  exact hR.label b

theorem makes_test {symbols : SymbolTable} {site : ValueSite} {e : Expr} {y : OperandId} {k : LowerM α}
    (hk : k.Makes R) : (lowerValue symbols site e >>= fun t => branch t y >>= fun _ => k).Makes R := by
  intro b b' a h
  simp only [branch, bind_eq_ok, emit_eq_ok] at h
  obtain ⟨t, b₁, ht, _, _, rfl, h⟩ := h
  exact hR.trans (hR.test (lowerValue_eq_ok ht) y) (hk h)

end Clausal

end LowerM

open LowerM

section Call

variable {R : Code → Code → Prop} (hR : Code.Accretive R)
  (hcalling : ∀ c z, z.op.isCalling = true → R c (c.addInstr z))
include hR hcalling

theorem makes_marshal : ∀ (pos : Nat) (values : List OperandId), (marshal pos values).Makes R
  | _, [] => makes_pure hR _
  | pos, _ :: values => makes_bind hR (makes_newTemp hR _) fun _ =>
      makes_bind hR (makes_emit (fun c z hz => hcalling c z (hz ▸ rfl)) ..) fun _ =>
        makes_bind hR (makes_marshal (pos + 1) values) fun _ => makes_pure hR _

theorem makes_lowerCall (symbols : SymbolTable) (callee : SymbolId) (values : List OperandId) (ty : Ty) :
    (lowerCall symbols callee values ty).Makes R := by
  have hemit : ∀ {op result left right args}, op.isCalling = true → (emit op result left right args).Makes R :=
    fun hop => makes_emit (fun c z hz => hcalling c z (hz ▸ hop)) ..
  refine makes_bind hR (makes_marshal hR hcalling 0 values) fun _ => makes_bind hR (makes_lookup hR ..) fun _ =>
    makes_bind hR (makes_symbol hR ..) fun _ => .ite ?_ ?_
  · exact makes_bind hR (hemit rfl) fun _ => makes_bind hR (makes_report hR _) fun _ => makes_pure hR _
  · exact makes_bind hR (makes_newTemp hR _) fun _ => makes_bind hR (hemit rfl) fun _ =>
      makes_bind hR (makes_report hR _) fun _ => makes_bind hR (makes_newTemp hR _) fun _ =>
        makes_bind hR (hemit rfl) fun _ => makes_pure hR _

end Call

namespace Code.Additive

variable {R : Code → Code → Prop} (hR : Code.Additive R)
include hR

theorem calling (c : Code) (z : Instr) (h : z.op.isCalling = true) : R c (c.addInstr z) :=
  hR.instr c z (by cases hop : z.op <;> rw [hop] at h <;> first | rfl | cases h)

theorem phrasal : Code.Phrasal R where
  toAccretive := hR.toAccretive
  compute b tag op left right h := by
    refine hR.trans (hR.operand b.code _ rfl) (hR.instr _ _ ?_)
    cases tag <;> cases h <;> rfl
  plain c z h := hR.instr c z (by cases hop : z.op <;> rw [hop] at h <;> first | rfl | cases h)
  call := makes_lowerCall hR.toAccretive hR.calling

end Code.Additive

theorem Code.Phrasal.grows : Code.Phrasal Code.Grows := Code.Cumulative.grows.additive.phrasal

section Expr

variable {R : Code → Code → Prop} (hR : Code.Phrasal R) (symbols : SymbolTable)
include hR

theorem makes_elementSize (s : Symbol) : (elementSize s).Makes R := by
  unfold elementSize
  split
  · exact makes_pure hR.toAccretive _
  · split
    · exact makes_pure hR.toAccretive _
    · exact makes_throw _

theorem makes_lowerAddress (array : SymbolId) (size : Nat) (pos : OperandId) :
    (lowerAddress symbols array size pos).Makes R :=
  makes_bind hR.toAccretive (makes_int hR.toAccretive _) fun _ => makes_compute hR rfl _ _ fun _ =>
    makes_bind hR.toAccretive (makes_symbol hR.toAccretive ..) fun _ => makes_compute hR rfl _ _ fun _ =>
      makes_pure hR.toAccretive _

mutual
theorem makes_lowerExpr : ∀ e : Expr, (lowerExpr symbols e).Makes R
  | .literal lit ty => by
    simp only [lowerExpr]
    exact (makes_int hR.toAccretive _).map
  | .name s ty => by
    simp only [lowerExpr]
    exact (makes_symbol hR.toAccretive ..).map
  | .binary op lhs rhs ty => by
    have hR' := hR.toAccretive
    simp only [lowerExpr]
    exact makes_bind hR' (makes_lowerExpr lhs) fun _ => makes_bind hR' (makes_require hR' ..) fun _ =>
      makes_bind hR' (makes_lowerExpr rhs) fun _ => makes_bind hR' (makes_require hR' ..) fun _ =>
        makes_compute hR rfl _ _ fun _ => makes_pure hR' _
  | .unary op arg ty => by
    have hR' := hR.toAccretive
    simp only [lowerExpr]
    exact makes_bind hR' (makes_lowerExpr arg) fun _ => makes_bind hR' (makes_require hR' ..) fun _ =>
      makes_compute hR rfl _ _ fun _ => makes_pure hR' _
  | .call callee args ty => by
    simp only [lowerExpr]
    exact makes_bind hR.toAccretive (makes_lowerArgs args) fun _ => hR.call symbols callee _ ty
  | .index array pos ty => by
    have hR' := hR.toAccretive
    simp only [lowerExpr]
    exact makes_bind hR' (makes_lookup hR' ..) fun _ => makes_bind hR' (makes_elementSize hR _) fun _ =>
      makes_bind hR' (makes_lowerExpr pos) fun _ => makes_bind hR' (makes_require hR' ..) fun _ =>
        makes_bind hR' (makes_lowerAddress hR symbols array _ _) fun _ => makes_compute hR rfl _ _ fun _ =>
          makes_pure hR' _

theorem makes_lowerArgs : ∀ es : List Expr, (lowerArgs symbols es).Makes R
  | [] => by
    simp only [lowerArgs]
    exact makes_pure hR.toAccretive _
  | e :: es => by
    have hR' := hR.toAccretive
    simp only [lowerArgs]
    exact makes_bind hR' (makes_lowerExpr e) fun _ => makes_bind hR' (makes_require hR' ..) fun _ =>
      makes_bind hR' (makes_lowerArgs es) fun _ => makes_pure hR' _
end

theorem makes_lowerValue (site : ValueSite) (e : Expr) : (lowerValue symbols site e).Makes R :=
  makes_bind hR.toAccretive (makes_lowerExpr hR symbols e) fun _ => makes_require hR.toAccretive ..

theorem makes_lowerParams : ∀ (pos : Nat) (params : List SymbolId), (lowerParams symbols pos params).Makes R
  | _, [] => makes_pure hR.toAccretive _
  | pos, _ :: params => makes_bind hR.toAccretive (makes_newTemp hR.toAccretive _) fun _ =>
      makes_bind hR.toAccretive (makes_symbol hR.toAccretive ..) fun _ =>
        makes_bind hR.toAccretive (makes_plain hR rfl ..) fun _ => makes_lowerParams (pos + 1) params

end Expr

theorem Code.Cumulative.clausal {R : Code → Code → Prop} (h : Code.Cumulative R) : Code.Clausal R where
  toPhrasal := h.additive.phrasal
  label b := h.operand b.code _
  place b op y _ := h.instr b.code _ fun _ => rfl
  test ht y := by
    refine h.trans (makes_lowerExpr h.additive.phrasal _ _ ht) (h.instr _ _ fun hop => ?_)
    rcases hop with h | h <;> cases h

theorem Code.Clausal.grows : Code.Clausal Code.Grows := Code.Cumulative.grows.clausal

section Adds

variable (symbols : SymbolTable)

theorem adds_marshal (pos : Nat) (values : List OperandId) : (marshal pos values).Adds :=
  makes_marshal Code.Phrasal.grows.toAccretive Code.Cumulative.grows.additive.calling _ _

theorem adds_lowerCall (callee : SymbolId) (values : List OperandId) (ty : Ty) :
    (lowerCall symbols callee values ty).Adds := Code.Phrasal.grows.call ..

theorem adds_lowerAddress (array : SymbolId) (size : Nat) (pos : OperandId) :
    (lowerAddress symbols array size pos).Adds := makes_lowerAddress .grows ..

theorem adds_lowerExpr (e : Expr) : (lowerExpr symbols e).Adds := makes_lowerExpr .grows _ e

theorem adds_lowerArgs (es : List Expr) : (lowerArgs symbols es).Adds := makes_lowerArgs .grows _ es

theorem adds_lowerParams (pos : Nat) (params : List SymbolId) : (lowerParams symbols pos params).Adds :=
  makes_lowerParams .grows ..

end Adds

section Stmt

variable {R : Code → Code → Prop} (hR : Code.Clausal R)
include hR

mutual
theorem makes_lowerStmt : ∀ (scope : Scope) (s : Stmt), (lowerStmt scope s).Makes R
  | scope, .skip => by
    simp only [lowerStmt]
    exact makes_pure hR.toAccretive _
  | scope, .seq first second => by
    simp only [lowerStmt]
    exact makes_bind hR.toAccretive (makes_lowerStmt scope first) fun _ => makes_lowerStmt scope second
  | scope, .declare s none => by
    simp only [lowerStmt]
    exact makes_pure hR.toAccretive _
  | scope, .declare s (some init) => by
    have hR' := hR.toAccretive
    simp only [lowerStmt]
    exact makes_bind hR' (makes_lowerValue hR.toPhrasal ..) fun _ => makes_bind hR' (makes_symbol hR' ..) fun _ =>
      makes_plain hR.toPhrasal rfl ..
  | scope, .assign s value => by
    have hR' := hR.toAccretive
    simp only [lowerStmt]
    exact makes_bind hR' (makes_lowerValue hR.toPhrasal ..) fun _ => makes_bind hR' (makes_symbol hR' ..) fun _ =>
      makes_plain hR.toPhrasal rfl ..
  | scope, .store array pos value => by
    have hR' := hR.toAccretive
    simp only [lowerStmt]
    exact makes_bind hR' (makes_lowerValue hR.toPhrasal ..) fun _ => makes_bind hR' (makes_lookup hR' ..) fun _ =>
      makes_bind hR' (makes_elementSize hR.toPhrasal _) fun _ => makes_bind hR' (makes_lowerValue hR.toPhrasal ..)
        fun _ => makes_bind hR' (makes_lowerAddress hR.toPhrasal ..) fun _ => makes_plain hR.toPhrasal rfl ..
  | scope, .eval expr => by
    have hR' := hR.toAccretive
    simp only [lowerStmt]
    exact makes_bind hR' (makes_lowerExpr hR.toPhrasal ..) fun _ => makes_pure hR' _
  | scope, .cond chain => by
    have hR' := hR.toAccretive
    simp only [lowerStmt]
    exact makes_bind hR' (makes_newLabel hR) fun _ => makes_bind hR' (makes_lowerChain scope _ chain) fun _ =>
      makes_place hR _
  | scope, .loop init test update body => by
    have hR' := hR.toAccretive
    simp only [lowerStmt]
    refine makes_bind hR' (makes_lowerStmt scope init) fun _ => makes_bind hR' (makes_newLabel hR) fun _ =>
      makes_bind hR' (makes_newLabel hR) fun _ => makes_bind hR' (makes_newLabel hR) fun _ =>
        makes_bind hR' (makes_place hR _) fun _ => ?_
    have hrest : ∀ inner start next exit, Makes R (do
        lowerStmt inner body
        place next
        lowerStmt scope update
        jump start
        place exit) :=
      fun inner _ _ _ => makes_bind hR' (makes_lowerStmt inner body) fun _ => makes_bind hR' (makes_place hR _)
        fun _ => makes_bind hR' (makes_lowerStmt scope update) fun _ => makes_bind hR' (makes_jump hR _) fun _ =>
          makes_place hR _
    cases test with
    | none => exact hrest ..
    | some test => exact makes_test hR (hrest ..)
  | scope, .leave => by
    simp only [lowerStmt]
    split
    · exact makes_jump hR _
    · exact makes_throw _
  | scope, .next => by
    simp only [lowerStmt]
    split
    · exact makes_jump hR _
    · exact makes_throw _
  | scope, .ret none => by
    simp only [lowerStmt, returnSlot]
    exact makes_bind hR.toAccretive (makes_require hR.toAccretive ..) fun _ => makes_plain hR.toPhrasal rfl ..
  | scope, .ret (some value) => by
    have hR' := hR.toAccretive
    simp only [lowerStmt, returnSlot]
    exact makes_bind hR' (makes_lowerValue hR.toPhrasal ..) fun _ => makes_bind hR' (makes_require hR' ..) fun _ =>
      makes_bind hR' (makes_plain hR.toPhrasal rfl ..) fun _ => makes_plain hR.toPhrasal rfl ..

theorem makes_lowerChain : ∀ (scope : Scope) (exit : OperandId) (chain : Chain), (lowerChain scope exit chain).Makes R
  | scope, exit, .done => by
    simp only [lowerChain]
    exact makes_pure hR.toAccretive _
  | scope, exit, .otherwise body => by
    simp only [lowerChain]
    exact makes_lowerStmt scope body
  | scope, exit, .arm test body rest => by
    have hR' := hR.toAccretive
    simp only [lowerChain]
    -- what comes after the label of the next arm is known, whichever label it is
    have htail : ∀ next, Makes R (do
        branch (← lowerValue scope.symbols .branchCondition test) next
        lowerStmt scope body
        unless rest.isDone do
          unless ← endsInTransfer do
            jump exit
          place next
        lowerChain scope exit rest) := by
      intro next
      have hrest := makes_lowerChain scope exit rest
      refine makes_test hR (makes_bind hR' (makes_lowerStmt scope body) fun _ =>
        .ite hrest (makes_bind hR' (makes_endsInTransfer hR') fun _ => .ite ?_ ?_))
      · exact makes_bind hR' (makes_place hR _) fun _ => hrest
      · exact makes_bind hR' (makes_jump hR _) fun _ => makes_bind hR' (makes_place hR _) fun _ => hrest
    exact .ite (makes_bind hR' (makes_pure hR' _) htail) (makes_bind hR' (makes_newLabel hR) htail)
end

theorem makes_lowerFunction {symbols : SymbolTable} {id : SymbolId} {params : List SymbolId} {body : Stmt} :
    (lowerFunction symbols id params body).Makes R := by
  intro b b' u h
  obtain ⟨s, b₁, b₂, b₃, -, hb₁, hparams, hbody, hb'⟩ := lowerFunction_eq_ok h
  have h₁ : R b.code b₁.code := by
    rw [hb₁]
    exact hR.trans (hR.symbol _ _ _) (hR.plain _ _ rfl)
  have h₂ := makes_lowerParams hR.toPhrasal symbols 0 params hparams
  have h₃ := hR.trans (hR.operand _ _ rfl) (makes_lowerStmt hR _ body hbody)
  have h₄ := hR.trans h₁ (hR.trans h₂ h₃)
  rw [hb']
  split
  · exact h₄
  · exact hR.trans h₄ (hR.plain _ _ rfl)

theorem makes_lowerDecls {symbols : SymbolTable} : ∀ ds : List Decl, (lowerDecls symbols ds).Makes R
  | [] => makes_pure hR.toAccretive _
  | d :: ds => by
    refine makes_bind hR.toAccretive (fun b b' u h => ?_) fun _ => makes_lowerDecls ds
    cases d with
    | global id init =>
      rw [lowerGlobal_eq_ok h]
      exact hR.refl _
    | function id params body => exact makes_lowerFunction hR h

/-- What every phrase keeps is kept by the lowering of a program. -/
theorem Program.lower_makes {p : Program} {l : Lowered} (h : p.lower = .ok l) : R {} l.code := by
  obtain ⟨b, hb, hcode⟩ := lowerProgram_eq_ok h
  rw [hcode]
  exact makes_lowerDecls hR p.decls hb

end Stmt

theorem adds_lowerStmt (scope : Scope) (s : Stmt) : (lowerStmt scope s).Adds := makes_lowerStmt .grows scope s

theorem adds_lowerChain (scope : Scope) (exit : OperandId) (chain : Chain) : (lowerChain scope exit chain).Adds :=
  makes_lowerChain .grows scope exit chain

end MiddleEnd
