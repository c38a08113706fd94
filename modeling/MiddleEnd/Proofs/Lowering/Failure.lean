import MiddleEnd.Proofs.Lowering.Steps

/-! When lowering fails. Three kinds of constructs can make it fail: an expression that stands where a value is
needed, a loop control, and the first value of a global. Lowering comes to the constructs of a program one after the
other and fails at the first that offends; so it succeeds exactly where calls of type `void` stand alone, loop
controls stand in loops and globals start with literals. -/

namespace MiddleEnd

/-! ### Constructs that can offend -/

/-- A call that returns nothing. -/
def Expr.isVoidCall : Expr → Bool
  | .call _ _ ty => ty = .void
  | _ => false

inductive Construct where
  /-- An expression that stands where a value is needed. -/
  | value (site : ValueSite) (e : Expr)
  /-- A loop control, in the body of a loop or not. -/
  | control (which : LoopControl) (inLoop : Bool)
  | global (symbol : SymbolId) (init : Option Expr)

def Construct.offence? (symbols : SymbolTable) : Construct → Option LowerError
  | .value site e => if e.isVoidCall then some (.noValue site) else none
  | .control which inLoop => if inLoop then none else some (.outsideLoop which)
  | .global id init =>
    if init.all (·.word?.isSome) then none else some (.nonLiteralGlobal ((symbols.get? id).elim "" (·.name)))

/-- The error of the first construct that offends. -/
def firstOffence? (symbols : SymbolTable) (cs : List Construct) : Option LowerError :=
  cs.findSome? (·.offence? symbols)

mutual
/-- The constructs in an expression, in the order of lowering. Whether the expression itself has to have a value
depends on where it stands. -/
@[simp] def Expr.constructs : Expr → List Construct
  | .literal _ _ | .name _ _ => []
  | .binary _ lhs rhs _ =>
    lhs.constructs ++ .value .leftOperand lhs :: (rhs.constructs ++ [.value .rightOperand rhs])
  | .unary _ arg _ => arg.constructs ++ [.value .unaryOperand arg]
  | .call _ args _ => Expr.constructsAll args
  | .index _ pos _ => pos.constructs ++ [.value .arrayIndex pos]

@[simp] def Expr.constructsAll : List Expr → List Construct
  | [] => []
  | arg :: args => arg.constructs ++ .value .callArgument arg :: Expr.constructsAll args
end

/-- The constructs in an expression that stands where a value is needed. -/
def Expr.constructsAt (site : ValueSite) (e : Expr) : List Construct := e.constructs ++ [.value site e]

mutual
@[simp] def Stmt.constructs (inLoop : Bool) : Stmt → List Construct
  | .skip => []
  | .seq first second => first.constructs inLoop ++ second.constructs inLoop
  | .declare _ init => init.elim [] (·.constructsAt .localInitializer)
  | .assign _ value => value.constructsAt .assignment
  -- the value is lowered first
  | .store _ pos value => value.constructsAt .arrayStore ++ pos.constructsAt .arrayIndex
  | .eval expr => expr.constructs
  | .cond chain => chain.constructs inLoop
  | .loop init test update body =>
    init.constructs inLoop ++ test.elim [] (·.constructsAt .loopCondition) ++ body.constructs true ++
      update.constructs inLoop
  | .leave => [.control .leave inLoop]
  | .next => [.control .next inLoop]
  | .ret value => value.elim [] (·.constructsAt .returnValue)

@[simp] def Chain.constructs (inLoop : Bool) : Chain → List Construct
  | .done => []
  | .otherwise body => body.constructs inLoop
  | .arm test body rest => test.constructsAt .branchCondition ++ body.constructs inLoop ++ rest.constructs inLoop
end

def Decl.constructs : Decl → List Construct
  | .function _ _ body => body.constructs false
  | .global s init => [.global s init]

def Program.constructs (p : Program) : List Construct := p.decls.flatMap Decl.constructs

/-! ### Well-formed programs -/

mutual
/-- Every call in the expression returns a value. -/
@[simp] def Expr.callsYield : Expr → Bool
  | .literal _ _ | .name _ _ => true
  | .binary _ lhs rhs _ => lhs.callsYield && rhs.callsYield
  | .unary _ arg _ => arg.callsYield
  | .call _ args ty => ty ≠ .void && Expr.allCallsYield args
  | .index _ pos _ => pos.callsYield

@[simp] def Expr.allCallsYield : List Expr → Bool
  | [] => true
  | arg :: args => arg.callsYield && Expr.allCallsYield args
end

/-- Every call in the expression returns a value, but for the expression itself if it is a call. -/
def Expr.innerCallsYield : Expr → Bool
  | .call _ args _ => Expr.allCallsYield args
  | e => e.callsYield

mutual
/-- A call of type `void` is the whole of an expression that is evaluated as a statement. -/
@[simp] def Stmt.voidCallsAlone : Stmt → Bool
  | .skip | .leave | .next => true
  | .seq first second => first.voidCallsAlone && second.voidCallsAlone
  | .declare _ init => init.all (·.callsYield)
  | .assign _ value => value.callsYield
  | .store _ pos value => pos.callsYield && value.callsYield
  | .eval expr => expr.innerCallsYield
  | .cond chain => chain.voidCallsAlone
  | .loop init test update body =>
    init.voidCallsAlone && test.all (·.callsYield) && update.voidCallsAlone && body.voidCallsAlone
  | .ret value => value.all (·.callsYield)

@[simp] def Chain.voidCallsAlone : Chain → Bool
  | .done => true
  | .otherwise body => body.voidCallsAlone
  | .arm test body rest => test.callsYield && body.voidCallsAlone && rest.voidCallsAlone
end

mutual
/-- Every loop control is in the body of a loop, given whether the statement is. -/
@[simp] def Stmt.controlsInLoops (inLoop : Bool) : Stmt → Bool
  | .leave | .next => inLoop
  | .seq first second => first.controlsInLoops inLoop && second.controlsInLoops inLoop
  | .cond chain => chain.controlsInLoops inLoop
  | .loop init _ update body =>
    init.controlsInLoops inLoop && update.controlsInLoops inLoop && body.controlsInLoops true
  | .skip | .declare _ _ | .assign _ _ | .store _ _ _ | .eval _ | .ret _ => true

@[simp] def Chain.controlsInLoops (inLoop : Bool) : Chain → Bool
  | .done => true
  | .otherwise body => body.controlsInLoops inLoop
  | .arm _ body rest => body.controlsInLoops inLoop && rest.controlsInLoops inLoop
end

namespace Decl

def voidCallsAlone : Decl → Bool
  | .function _ _ body => body.voidCallsAlone
  | .global _ init => init.all (·.callsYield)

def controlsInLoops : Decl → Bool
  | .function _ _ body => body.controlsInLoops false
  | .global _ _ => true

/-- A global starts with a literal, if with anything. -/
def startsLiteral : Decl → Bool
  | .function _ _ _ => true
  | .global _ init => init.all (·.word?.isSome)

end Decl

/-! ### Programs without offence -/

section Offences

variable {symbols : SymbolTable}

@[simp] theorem firstOffence?_nil : firstOffence? symbols [] = none := rfl

@[simp] theorem firstOffence?_append (cs ds : List Construct) :
    firstOffence? symbols (cs ++ ds) = (firstOffence? symbols cs).or (firstOffence? symbols ds) :=
  List.findSome?_append

@[simp] theorem firstOffence?_cons (c : Construct) (cs : List Construct) :
    firstOffence? symbols (c :: cs) = (c.offence? symbols).or (firstOffence? symbols cs) := by
  rw [firstOffence?, List.findSome?_cons]
  cases c.offence? symbols <;> rfl

theorem Construct.offence?_value (site : ValueSite) (e : Expr) :
    (Construct.value site e).offence? symbols = none ↔ e.isVoidCall = false := by
  simp [offence?]

theorem Expr.callsYield_eq (e : Expr) : e.callsYield = (!e.isVoidCall && e.innerCallsYield) := by
  cases e <;> simp [callsYield, isVoidCall, innerCallsYield]

mutual
theorem Expr.firstOffence?_constructs : ∀ e : Expr, firstOffence? symbols e.constructs = none ↔ e.innerCallsYield = true
  | .literal _ _ => by simp [innerCallsYield]
  | .name _ _ => by simp [innerCallsYield]
  | .binary _ lhs rhs _ => by
    have hl := Expr.firstOffence?_constructs lhs
    have hr := Expr.firstOffence?_constructs rhs
    simp [innerCallsYield, callsYield_eq lhs, callsYield_eq rhs, hl, hr,
      Construct.offence?_value, and_assoc, and_left_comm, and_comm]
  | .unary _ arg _ => by
    have ha := Expr.firstOffence?_constructs arg
    simp [innerCallsYield, callsYield_eq arg, ha, Construct.offence?_value, and_comm]
  | .call _ args _ => by
    simpa [innerCallsYield] using Expr.firstOffence?_constructsAll args
  | .index _ pos _ => by
    have hp := Expr.firstOffence?_constructs pos
    simp [innerCallsYield, callsYield_eq pos, hp, Construct.offence?_value, and_comm]

theorem Expr.firstOffence?_constructsAll :
    ∀ args : List Expr, firstOffence? symbols (Expr.constructsAll args) = none ↔ Expr.allCallsYield args = true
  | [] => by simp
  | arg :: args => by
    have ha := Expr.firstOffence?_constructs arg
    have hrest := Expr.firstOffence?_constructsAll args
    simp [callsYield_eq arg, ha, hrest, Construct.offence?_value, and_left_comm, and_assoc]
end

theorem Expr.firstOffence?_constructsAt (site : ValueSite) (e : Expr) :
    firstOffence? symbols (e.constructsAt site) = none ↔ e.callsYield = true := by
  simp [constructsAt, callsYield_eq, Expr.firstOffence?_constructs, Construct.offence?_value, and_comm]

theorem Expr.firstOffence?_constructsAt? (site : ValueSite) (e : Option Expr) :
    firstOffence? symbols (e.elim [] (·.constructsAt site)) = none ↔ e.all (·.callsYield) = true := by
  cases e with
  | none => simp
  | some e => simpa using Expr.firstOffence?_constructsAt site e

mutual
theorem Stmt.firstOffence?_constructs (inLoop : Bool) : ∀ s : Stmt, firstOffence? symbols (s.constructs inLoop) = none ↔
    s.voidCallsAlone = true ∧ s.controlsInLoops inLoop = true
  | .skip => by simp
  | .seq first second => by
    have h₁ := Stmt.firstOffence?_constructs inLoop first
    have h₂ := Stmt.firstOffence?_constructs inLoop second
    simp [h₁, h₂, and_assoc, and_left_comm]
  | .declare _ init => by
    simp [Expr.firstOffence?_constructsAt?]
  | .assign _ value => by
    simp [Expr.firstOffence?_constructsAt]
  | .store _ pos value => by
    simp [Expr.firstOffence?_constructsAt, and_comm]
  | .eval expr => by
    simp [Expr.firstOffence?_constructs]
  | .cond chain => by
    simpa using Chain.firstOffence?_constructs inLoop chain
  | .loop init test update body => by
    have hi := Stmt.firstOffence?_constructs inLoop init
    have hu := Stmt.firstOffence?_constructs inLoop update
    have hb := Stmt.firstOffence?_constructs true body
    simp [hi, hu, hb, Expr.firstOffence?_constructsAt?, and_assoc, and_left_comm, and_comm]
  | .leave => by simp [Construct.offence?]
  | .next => by simp [Construct.offence?]
  | .ret value => by
    simp [Expr.firstOffence?_constructsAt?]

theorem Chain.firstOffence?_constructs (inLoop : Bool) : ∀ chain : Chain,
    firstOffence? symbols (chain.constructs inLoop) = none ↔
      chain.voidCallsAlone = true ∧ chain.controlsInLoops inLoop = true
  | .done => by simp
  | .otherwise body => by
    simpa using Stmt.firstOffence?_constructs inLoop body
  | .arm test body rest => by
    have hb := Stmt.firstOffence?_constructs inLoop body
    have hr := Chain.firstOffence?_constructs inLoop rest
    simp [hb, hr, Expr.firstOffence?_constructsAt, and_assoc, and_left_comm]
end

theorem Decl.firstOffence?_constructs (d : Decl) : firstOffence? symbols d.constructs = none ↔
    d.voidCallsAlone = true ∧ d.controlsInLoops = true ∧ d.startsLiteral = true := by
  cases d with
  | function _ _ body =>
    simp [constructs, voidCallsAlone, controlsInLoops, startsLiteral, Stmt.firstOffence?_constructs]
  | global _ init =>
    have hliteral : init.all (·.word?.isSome) = true → init.all (·.callsYield) = true := by
      cases init with
      | none => simp
      | some e => cases e <;> simp [Expr.word?, Expr.callsYield]
    simpa [constructs, voidCallsAlone, controlsInLoops, startsLiteral, Construct.offence?] using hliteral

theorem Program.firstOffence?_constructs (p : Program) : firstOffence? p.symbols p.constructs = none ↔
    p.decls.all Decl.voidCallsAlone = true ∧ p.decls.all Decl.controlsInLoops = true ∧
      p.decls.all Decl.startsLiteral = true := by
  rw [constructs]
  induction p.decls with
  | nil => simp
  | cons d ds ih =>
    rw [List.flatMap_cons, firstOffence?_append, Option.or_eq_none_iff, ih, Decl.firstOffence?_constructs]
    simp only [List.all_cons, Bool.and_eq_true, and_assoc, and_left_comm]

/-- What is needed is the value of an expression, not the word of a literal or the slot for a return value. -/
def Construct.needsExpr : Construct → Bool
  | .value site _ => site ≠ .literal && site ≠ .returnValueSlot
  | _ => true

mutual
theorem Expr.constructs_needExpr : ∀ e : Expr, ∀ c ∈ e.constructs, c.needsExpr = true
  | .literal _ _ => by simp
  | .name _ _ => by simp
  | .binary _ lhs rhs _ => by
    have hl := Expr.constructs_needExpr lhs
    have hr := Expr.constructs_needExpr rhs
    simpa [or_imp, forall_and] using ⟨hl, rfl, hr, rfl⟩
  | .unary _ arg _ => by
    have ha := Expr.constructs_needExpr arg
    simpa [or_imp, forall_and] using ⟨ha, rfl⟩
  | .call _ args _ => by
    simpa using Expr.constructsAll_needExpr args
  | .index _ pos _ => by
    have hp := Expr.constructs_needExpr pos
    simpa [or_imp, forall_and] using ⟨hp, rfl⟩

theorem Expr.constructsAll_needExpr : ∀ args : List Expr, ∀ c ∈ Expr.constructsAll args, c.needsExpr = true
  | [] => by simp
  | arg :: args => by
    have ha := Expr.constructs_needExpr arg
    have hrest := Expr.constructsAll_needExpr args
    simpa [or_imp, forall_and] using ⟨ha, rfl, hrest⟩
end

theorem Expr.constructsAt_needExpr (site : ValueSite) (hsite : ∀ e, (Construct.value site e).needsExpr = true)
    (e : Expr) : ∀ c ∈ e.constructsAt site, c.needsExpr = true := by
  simpa [constructsAt, or_imp, forall_and, hsite] using e.constructs_needExpr

theorem Expr.constructsAt?_needExpr (site : ValueSite) (hsite : ∀ e, (Construct.value site e).needsExpr = true)
    (e : Option Expr) : ∀ c ∈ e.elim [] (·.constructsAt site), c.needsExpr = true := by
  cases e with
  | none => simp
  | some e => simpa using Expr.constructsAt_needExpr site hsite e

mutual
theorem Stmt.constructs_needExpr (inLoop : Bool) : ∀ s : Stmt, ∀ c ∈ s.constructs inLoop, c.needsExpr = true
  | .skip => by simp
  | .seq first second => by
    have h₁ := Stmt.constructs_needExpr inLoop first
    have h₂ := Stmt.constructs_needExpr inLoop second
    simpa [or_imp, forall_and] using ⟨h₁, h₂⟩
  | .declare _ init => Expr.constructsAt?_needExpr _ (fun _ => rfl) init
  | .assign _ value => Expr.constructsAt_needExpr _ (fun _ => rfl) value
  | .store _ pos value => by
    have hv := Expr.constructsAt_needExpr .arrayStore (fun _ => rfl) value
    have hp := Expr.constructsAt_needExpr .arrayIndex (fun _ => rfl) pos
    simpa [or_imp, forall_and] using ⟨hv, hp⟩
  | .eval expr => expr.constructs_needExpr
  | .cond chain => Chain.constructs_needExpr inLoop chain
  | .loop init test update body => by
    have hi := Stmt.constructs_needExpr inLoop init
    have ht := Expr.constructsAt?_needExpr .loopCondition (fun _ => rfl) test
    have hb := Stmt.constructs_needExpr true body
    have hu := Stmt.constructs_needExpr inLoop update
    simpa [or_imp, forall_and] using ⟨hi, ht, hb, hu⟩
  | .leave => List.forall_mem_singleton.mpr rfl
  | .next => List.forall_mem_singleton.mpr rfl
  | .ret value => Expr.constructsAt?_needExpr _ (fun _ => rfl) value

theorem Chain.constructs_needExpr (inLoop : Bool) : ∀ chain : Chain, ∀ c ∈ chain.constructs inLoop,
    c.needsExpr = true
  | .done => by simp
  | .otherwise body => Stmt.constructs_needExpr inLoop body
  | .arm test body rest => by
    have ht := Expr.constructsAt_needExpr .branchCondition (fun _ => rfl) test
    have hb := Stmt.constructs_needExpr inLoop body
    have hr := Chain.constructs_needExpr inLoop rest
    simpa [or_imp, forall_and] using ⟨ht, hb, hr⟩
end

/-- No construct of a program is a literal without a word or a return without a slot. -/
theorem Program.firstOffence?_ne (p : Program) {e : LowerError} (he : firstOffence? symbols p.constructs = some e) :
    e ≠ .noValue .literal ∧ e ≠ .noValue .returnValueSlot := by
  obtain ⟨c, hc, hoffence⟩ := List.exists_of_findSome?_eq_some he
  obtain ⟨d, -, hc⟩ := List.mem_flatMap.mp hc
  have hneeds : c.needsExpr = true := by
    cases d with
    | function _ _ body => exact body.constructs_needExpr false c hc
    | global s init =>
      rw [List.mem_singleton.mp hc]
      rfl
  cases c with
  | value site x =>
    simp only [Construct.offence?, Option.ite_none_right_eq_some, Option.some.injEq] at hoffence
    simpa [← hoffence.2, Construct.needsExpr] using hneeds
  | control which inLoop =>
    simp only [Construct.offence?, Option.ite_none_left_eq_some, Option.some.injEq] at hoffence
    simp [← hoffence.2]
  | global s init =>
    simp only [Construct.offence?, Option.ite_none_left_eq_some, Option.some.injEq] at hoffence
    simp [← hoffence.2]

end Offences

/-! ### How a run ends -/

namespace LowerM

variable {α β : Type}

/-- From every state the run fails with the error, or there is none and the run gives a value of which `Q` holds. -/
def Ends (x : LowerM α) (e? : Option LowerError) (Q : α → Prop) : Prop :=
  ∀ b, match x b with
    | .ok v _ => e? = none ∧ Q v
    | .error e _ => e? = some e

theorem ends_of_ok {x : LowerM α} {Q : α → Prop} (h : ∀ b, ∃ v b', x b = .ok v b' ∧ Q v) : x.Ends none Q := by
  intro b
  obtain ⟨v, b', hx, hv⟩ := h b
  rw [hx]
  exact ⟨rfl, hv⟩

theorem ends_throw (e : LowerError) (Q : α → Prop) : (throw e : LowerM α).Ends (some e) Q := fun _ => rfl

theorem ends_pure {v : α} {Q : α → Prop} (hv : Q v) : (pure v : LowerM α).Ends none Q :=
  ends_of_ok fun _ => ⟨v, _, rfl, hv⟩

theorem Ends.bind {x : LowerM α} {f : α → LowerM β} {e₁ e₂ : Option LowerError} {P : α → Prop} {Q : β → Prop}
    (hx : x.Ends e₁ P) (hf : ∀ v, P v → (f v).Ends e₂ Q) : (x >>= f).Ends (e₁.or e₂) Q := by
  intro b
  have hxb := hx b
  cases hx : x b with
  | ok v b' =>
    have hrun : (x >>= f) b = f v b' := by simp only [Bind.bind, EStateM.bind, hx]
    rw [hx] at hxb
    obtain ⟨rfl, hv⟩ := hxb
    rw [hrun]
    exact hf v hv b'
  | error e b' =>
    have hrun : (x >>= f) b = .error e b' := by simp only [Bind.bind, EStateM.bind, hx]
    rw [hx] at hxb
    rw [hrun, hxb]
    rfl

theorem Ends.map {x : LowerM α} {f : α → β} {e? : Option LowerError} {P : α → Prop} {Q : β → Prop} (hx : x.Ends e? P)
    (hf : ∀ v, P v → Q (f v)) : (f <$> x).Ends e? Q := by
  intro b
  have hxb := hx b
  cases hx : x b with
  | ok v b' =>
    have hrun : (f <$> x) b = .ok (f v) b' := by simp only [Functor.map, EStateM.map, hx]
    rw [hx] at hxb
    rw [hrun]
    exact ⟨hxb.1, hf v hxb.2⟩
  | error e b' =>
    have hrun : (f <$> x) b = .error e b' := by simp only [Functor.map, EStateM.map, hx]
    rw [hx] at hxb
    rw [hrun]
    exact hxb

theorem Ends.congr {x : LowerM α} {e₁ e₂ : Option LowerError} {Q : α → Prop} (hx : x.Ends e₁ Q) (he : e₁ = e₂) :
    x.Ends e₂ Q := he ▸ hx

theorem Ends.next {x : LowerM α} {f : α → LowerM β} {e? : Option LowerError} {P : α → Prop} {Q : β → Prop}
    (hx : x.Ends none P) (hf : ∀ v, P v → (f v).Ends e? Q) : (x >>= f).Ends e? Q := hx.bind hf

theorem Ends.step {x : LowerM α} {f : α → LowerM β} {e? : Option LowerError} {Q : β → Prop}
    (hx : x.Ends none fun _ => True) (hf : ∀ v, (f v).Ends e? Q) : (x >>= f).Ends e? Q := hx.next fun v _ => hf v

theorem Ends.ite {c : Prop} [Decidable c] {x y : LowerM α} {e? : Option LowerError} {Q : α → Prop}
    (hx : x.Ends e? Q) (hy : y.Ends e? Q) : (if c then x else y).Ends e? Q := by
  split
  · exact hx
  · exact hy

theorem ends_report (e : Event) : (report e).Ends none fun _ => True :=
  ends_of_ok fun _ => ⟨(), _, report_eq_ok.mpr rfl, trivial⟩

theorem ends_emit (op : Opcode) (result left right : Option OperandId) (args : List OperandId) :
    (emit op result left right args).Ends none fun _ => True :=
  ends_of_ok fun _ => ⟨(), _, emit_eq_ok.mpr rfl, trivial⟩

theorem ends_int (value : Int64) : (int value).Ends none fun _ => True :=
  ends_of_ok fun _ => ⟨_, _, int_eq_ok.mpr ⟨rfl, rfl⟩, trivial⟩

theorem ends_newTemp (tag : Tag) : (newTemp tag).Ends none fun _ => True :=
  ends_of_ok fun _ => ⟨_, _, newTemp_eq_ok.mpr ⟨rfl, rfl⟩, trivial⟩

theorem ends_newLabel : newLabel.Ends none fun _ => True :=
  ends_of_ok fun _ => ⟨_, _, newLabel_eq_ok.mpr ⟨rfl, rfl⟩, trivial⟩

theorem ends_endsInTransfer : endsInTransfer.Ends none fun _ => True :=
  ends_of_ok fun _ => ⟨_, _, endsInTransfer_eq_ok.mpr ⟨rfl, rfl⟩, trivial⟩

theorem ends_get : (get : LowerM Builder).Ends none fun _ => True :=
  ends_of_ok fun _ => ⟨_, _, get_eq_ok.mpr ⟨rfl, rfl⟩, trivial⟩

theorem ends_lookup {symbols : SymbolTable} {id : SymbolId} {s : Symbol} (h : symbols.get? id = some s) :
    (lookup symbols id).Ends none (· = s) :=
  ends_of_ok fun _ => ⟨s, _, lookup_eq_ok.mpr ⟨h, rfl⟩, rfl⟩

theorem ends_symbol {symbols : SymbolTable} {id : SymbolId} {s : Symbol} (h : symbols.get? id = some s) :
    (symbol symbols id).Ends none fun _ => True :=
  ends_of_ok fun _ => ⟨_, _, symbol_eq_ok.mpr ⟨s, h, rfl, rfl⟩, trivial⟩

theorem ends_require (symbols : SymbolTable) (site : ValueSite) {e : Expr} {o : Option OperandId}
    (ho : o.isNone = e.isVoidCall) :
    (require site o).Ends ((Construct.value site e).offence? symbols) fun _ => True := by
  rw [Construct.offence?, ← ho]
  cases o with
  | none => exact ends_throw _ _
  | some x => exact ends_pure trivial

end LowerM

/-! ### Lowering ends at the first offence -/

/-- The table has all the symbols. -/
def SymbolTable.Declares (symbols : SymbolTable) (ids : List SymbolId) : Prop :=
  ∀ id ∈ ids, id < symbols.size

/-- The elements of every array have a size. -/
def SymbolTable.ElementsFit (symbols : SymbolTable) : Prop :=
  ∀ s ∈ symbols.symbols, s.ty.element?.all (·.size?.isSome) = true

instance (symbols : SymbolTable) (ids : List SymbolId) : Decidable (symbols.Declares ids) :=
  inferInstanceAs (Decidable (∀ id ∈ ids, id < symbols.size))

instance (symbols : SymbolTable) : Decidable symbols.ElementsFit :=
  inferInstanceAs (Decidable (∀ s ∈ symbols.symbols, s.ty.element?.all (·.size?.isSome) = true))

namespace SymbolTable.Declares

variable {symbols : SymbolTable} {ids ids' : List SymbolId} {id : SymbolId}

theorem mono (h : symbols.Declares ids') (hsub : ids ⊆ ids') : symbols.Declares ids := fun id hid => h id (hsub hid)

theorem append (h : symbols.Declares (ids ++ ids')) : symbols.Declares ids ∧ symbols.Declares ids' :=
  ⟨h.mono (List.subset_append_left _ _), h.mono (List.subset_append_right _ _)⟩

theorem cons (h : symbols.Declares (id :: ids)) : (∃ s, symbols.get? id = some s) ∧ symbols.Declares ids :=
  ⟨⟨_, Array.getElem?_eq_getElem (h id List.mem_cons_self)⟩, h.mono (List.subset_cons_self _ _)⟩

end SymbolTable.Declares

open LowerM

section Exprs

variable {symbols : SymbolTable}

theorem ends_elementSize (hfit : symbols.ElementsFit) {id : SymbolId} {s : Symbol} (h : symbols.get? id = some s) :
    (elementSize s).Ends none fun _ => True := by
  unfold elementSize
  cases he : s.ty.element? with
  | none => exact ends_pure trivial
  | some elem =>
    have hsize := hfit s (Array.mem_of_getElem? h)
    rw [he, Option.all_some] at hsize
    obtain ⟨size, hsize⟩ := Option.isSome_iff_exists.mp hsize
    simp only [hsize]
    exact ends_pure trivial

/-- The size of an array's elements is looked up before its index is lowered. -/
theorem ends_elementSize_lookup (hfit : symbols.ElementsFit) {id : SymbolId} {s : Symbol}
    (h : symbols.get? id = some s) {α : Type} {rest : Nat → LowerM α} {e? : Option LowerError} {Q : α → Prop}
    (hrest : ∀ size, (rest size).Ends e? Q) :
    (lookup symbols id >>= fun s => elementSize s >>= rest).Ends e? Q := by
  refine (ends_lookup h).next fun t ht => ?_
  subst ht
  exact (ends_elementSize hfit h).step hrest

theorem ends_marshal (pos : Nat) (values : List OperandId) : (marshal pos values).Ends none fun _ => True := by
  induction values generalizing pos with
  | nil => exact ends_pure trivial
  | cons value values ih =>
    exact (ends_newTemp _).step fun arg => (ends_emit _ _ _ _ _).step fun _ => (ih _).step fun _ => ends_pure trivial

theorem ends_lowerCall {callee : SymbolId} {s : Symbol} (h : symbols.get? callee = some s) (values : List OperandId)
    (ty : Ty) : (lowerCall symbols callee values ty).Ends none fun o => o.isNone = decide (ty = .void) := by
  refine (ends_marshal 0 values).step fun args => (ends_lookup h).next fun _ _ => (ends_symbol h).step fun target => ?_
  split
  case isTrue hty =>
    exact (ends_emit _ _ _ _ _).step fun _ => (ends_report _).step fun _ => ends_pure (by simp [hty])
  case isFalse hty =>
    refine (ends_newTemp _).step fun returned => (ends_emit _ _ _ _ _).step fun _ => (ends_report _).step fun _ => ?_
    exact (ends_newTemp _).step fun copy => (ends_emit _ _ _ _ _).step fun _ => ends_pure (by simp [hty])

theorem ends_lowerAddress {array : SymbolId} {s : Symbol} (h : symbols.get? array = some s) (size : Nat)
    (pos : OperandId) : (lowerAddress symbols array size pos).Ends none fun _ => True := by
  refine (ends_int _).step fun scale => (ends_newTemp _).step fun offset => (ends_emit _ _ _ _ _).step fun _ => ?_
  exact (ends_symbol h).step fun base => (ends_newTemp _).step fun address => (ends_emit _ _ _ _ _).step fun _ =>
    ends_pure trivial

theorem LowerM.Ends.value {α : Type} {e : Expr}
    (he : (lowerExpr symbols e).Ends (firstOffence? symbols e.constructs) fun o => o.isNone = e.isVoidCall)
    (site : ValueSite) {rest : OperandId → LowerM α} {e? : Option LowerError} {Q : α → Prop}
    (hrest : ∀ v, (rest v).Ends e? Q) :
    (lowerExpr symbols e >>= fun o => require site o >>= rest).Ends
      ((firstOffence? symbols (e.constructsAt site)).or e?) Q := by
  refine (he.bind fun o ho => (ends_require symbols site ho).bind fun v _ => hrest v).congr ?_
  simp [Expr.constructsAt, Option.or_assoc]

mutual
theorem ends_lowerExpr (hfit : symbols.ElementsFit) : ∀ e : Expr, symbols.Declares e.mentions →
    (lowerExpr symbols e).Ends (firstOffence? symbols e.constructs) fun o => o.isNone = e.isVoidCall
  | .literal _ _, _ => by
    rw [lowerExpr]
    exact (ends_int _).map fun _ _ => rfl
  | .name _ _, hm => by
    rw [lowerExpr]
    obtain ⟨⟨s, hs⟩, -⟩ := hm.cons
    exact (ends_symbol hs).map fun _ _ => rfl
  | .binary _ lhs rhs _, hm => by
    obtain ⟨hl, hr⟩ := hm.append
    rw [lowerExpr]
    refine ((ends_lowerExpr hfit lhs hl).value .leftOperand fun l =>
      (ends_lowerExpr hfit rhs hr).value .rightOperand fun r =>
        (ends_newTemp _).step fun result => (ends_emit _ _ _ _ _).step fun _ => ends_pure (by rfl)).congr ?_
    simp [Expr.constructsAt, Option.or_assoc]
  | .unary _ arg _, hm => by
    rw [lowerExpr]
    refine ((ends_lowerExpr hfit arg hm).value .unaryOperand fun a =>
      (ends_newTemp _).step fun result => (ends_emit _ _ _ _ _).step fun _ => ends_pure (by rfl)).congr ?_
    simp [Expr.constructsAt]
  | .call _ args _, hm => by
    obtain ⟨⟨s, hs⟩, hargs⟩ := hm.cons
    rw [lowerExpr]
    refine ((ends_lowerArgs hfit args hargs).bind fun values _ => ends_lowerCall hs values _).congr ?_
    simp
  | .index _ pos _, hm => by
    obtain ⟨⟨s, hs⟩, hpos⟩ := hm.cons
    rw [lowerExpr]
    refine (ends_elementSize_lookup hfit hs fun size => (ends_lowerExpr hfit pos hpos).value .arrayIndex fun p =>
      (ends_lowerAddress hs size p).step fun address => (ends_newTemp _).step fun result =>
        (ends_emit _ _ _ _ _).step fun _ => ends_pure (by rfl)).congr ?_
    simp [Expr.constructsAt]

theorem ends_lowerArgs (hfit : symbols.ElementsFit) : ∀ args : List Expr, symbols.Declares (Expr.mentionsAll args) →
    (lowerArgs symbols args).Ends (firstOffence? symbols (Expr.constructsAll args)) fun _ => True
  | [], _ => by
    rw [lowerArgs]
    exact ends_pure trivial
  | arg :: args, hm => by
    obtain ⟨harg, hargs⟩ := hm.append
    rw [lowerArgs]
    refine ((ends_lowerExpr hfit arg harg).value .callArgument fun value =>
      (ends_lowerArgs hfit args hargs).bind fun values _ => ends_pure trivial).congr ?_
    simp [Expr.constructsAt, Option.or_assoc]
end

end Exprs

section Stmts

theorem ends_lowerValue {symbols : SymbolTable} (hfit : symbols.ElementsFit) {e : Expr}
    (he : symbols.Declares e.mentions) (site : ValueSite) :
    (lowerValue symbols site e).Ends (firstOffence? symbols (e.constructsAt site)) fun _ => True := by
  refine ((ends_lowerExpr hfit e he).bind fun o ho => ends_require symbols site ho).congr ?_
  simp [Expr.constructsAt]

theorem ends_lowerTest {symbols : SymbolTable} (hfit : symbols.ElementsFit) {test : Option Expr}
    (htest : symbols.Declares (test.elim [] Expr.mentions)) (exit : OperandId) {α : Type} {rest : LowerM α}
    {e? : Option LowerError} {Q : α → Prop} (hrest : rest.Ends e? Q) :
    (match test with
      | some test => lowerValue symbols .loopCondition test >>= fun t => branch t exit >>= fun _ => rest
      | none => rest).Ends ((firstOffence? symbols (test.elim [] (·.constructsAt .loopCondition))).or e?) Q := by
  cases test with
  | none => exact hrest
  | some test =>
    exact (ends_lowerValue hfit htest _).bind fun t _ => (ends_emit _ _ _ _ _).step fun _ => hrest

theorem ends_returnSlot {scope : Scope} (hf : scope.function.isSome = true) :
    (returnSlot scope).Ends none fun _ => True := by
  obtain ⟨f, hf⟩ := Option.isSome_iff_exists.mp hf
  rw [returnSlot, hf]
  exact ends_pure trivial

mutual
theorem ends_lowerStmt : ∀ (s : Stmt) (scope : Scope), scope.function.isSome = true → scope.symbols.ElementsFit →
    scope.symbols.Declares s.mentions →
    (lowerStmt scope s).Ends (firstOffence? scope.symbols (s.constructs scope.loop.isSome)) fun _ => True
  | .skip, _, _, _, _ => by
    rw [lowerStmt]
    exact ends_pure trivial
  | .seq first second, scope, hf, hfit, hm => by
    obtain ⟨hfirst, hsecond⟩ := hm.append
    rw [lowerStmt]
    refine ((ends_lowerStmt first scope hf hfit hfirst).bind fun _ _ => ends_lowerStmt second scope hf hfit hsecond).congr ?_
    simp
  | .declare _ none, _, _, _, _ => by
    rw [lowerStmt]
    exact ends_pure trivial
  | .declare _ (some init), scope, hf, hfit, hm => by
    obtain ⟨⟨s, hs⟩, hinit⟩ := hm.cons
    rw [lowerStmt]
    refine ((ends_lowerValue hfit hinit _).bind fun value _ =>
      (ends_symbol hs).step fun target => ends_emit _ _ _ _ _).congr ?_
    simp
  | .assign _ value, scope, hf, hfit, hm => by
    obtain ⟨⟨s, hs⟩, hvalue⟩ := hm.cons
    rw [lowerStmt]
    refine ((ends_lowerValue hfit hvalue _).bind fun value _ =>
      (ends_symbol hs).step fun target => ends_emit _ _ _ _ _).congr ?_
    simp
  | .store _ pos value, scope, hf, hfit, hm => by
    obtain ⟨⟨s, hs⟩, hrest⟩ := hm.cons
    obtain ⟨hpos, hvalue⟩ := hrest.append
    rw [lowerStmt]
    refine ((ends_lowerValue hfit hvalue _).bind fun value _ => ends_elementSize_lookup hfit hs fun size =>
      (ends_lowerValue hfit hpos _).bind fun p _ => (ends_lowerAddress hs size p).step fun address =>
        ends_emit _ _ _ _ _).congr ?_
    simp
  | .eval expr, scope, hf, hfit, hm => by
    rw [lowerStmt]
    refine ((ends_lowerExpr hfit expr hm).bind fun _ _ => ends_pure trivial).congr ?_
    simp
  | .cond chain, scope, hf, hfit, hm => by
    rw [lowerStmt]
    refine (ends_newLabel.step fun exit => (ends_lowerChain chain scope exit hf hfit hm).bind fun _ _ =>
      ends_emit _ _ _ _ _).congr ?_
    simp
  | .loop init test update body, scope, hf, hfit, hm => by
    obtain ⟨hm, hbody⟩ := hm.append
    obtain ⟨hm, hupdate⟩ := hm.append
    obtain ⟨hinit, htest⟩ := hm.append
    have hround : ∀ labels, (lowerStmt { scope with loop := some labels } body).Ends
        (firstOffence? scope.symbols (body.constructs true)) fun _ => True :=
      fun labels => ends_lowerStmt body { scope with loop := some labels } hf hfit hbody
    rw [lowerStmt]
    refine ((ends_lowerStmt init scope hf hfit hinit).bind fun _ _ => ends_newLabel.step fun start =>
      ends_newLabel.step fun next => ends_newLabel.step fun exit => (ends_emit _ _ _ _ _).step fun _ =>
        ends_lowerTest hfit htest exit <| (hround ⟨next, exit⟩).bind fun _ _ => (ends_emit _ _ _ _ _).step fun _ =>
          (ends_lowerStmt update scope hf hfit hupdate).bind fun _ _ => (ends_emit _ _ _ _ _).step fun _ =>
            ends_emit _ _ _ _ _).congr ?_
    simp
  | .leave, scope, _, _, _ => by
    rw [lowerStmt]
    cases hl : scope.loop with
    | none => exact ends_throw _ _
    | some labels => exact ends_emit _ _ _ _ _
  | .next, scope, _, _, _ => by
    rw [lowerStmt]
    cases hl : scope.loop with
    | none => exact ends_throw _ _
    | some labels => exact ends_emit _ _ _ _ _
  | .ret none, scope, hf, _, _ => by
    rw [lowerStmt]
    exact (ends_returnSlot hf).step fun slot => ends_emit _ _ _ _ _
  | .ret (some value), scope, hf, hfit, hm => by
    rw [lowerStmt]
    refine ((ends_lowerValue hfit hm _).bind fun value _ => (ends_returnSlot hf).step fun slot =>
      (ends_emit _ _ _ _ _).step fun _ => ends_emit _ _ _ _ _).congr ?_
    simp

theorem ends_lowerChain : ∀ (chain : Chain) (scope : Scope) (exit : OperandId), scope.function.isSome = true →
    scope.symbols.ElementsFit → scope.symbols.Declares chain.mentions →
    (lowerChain scope exit chain).Ends (firstOffence? scope.symbols (chain.constructs scope.loop.isSome)) fun _ => True
  | .done, _, _, _, _, _ => by
    rw [lowerChain]
    exact ends_pure trivial
  | .otherwise body, scope, _, hf, hfit, hm => by
    rw [lowerChain]
    exact ends_lowerStmt body scope hf hfit hm
  | .arm test body rest, scope, exit, hf, hfit, hm => by
    obtain ⟨hm, hrest⟩ := hm.append
    obtain ⟨htest, hbody⟩ := hm.append
    rw [lowerChain]
    cases hdone : rest.isDone with
    | true =>
      refine ((ends_pure trivial).step fun next => (ends_lowerValue hfit htest _).bind fun t _ =>
        (ends_emit _ _ _ _ _).step fun _ => (ends_lowerStmt body scope hf hfit hbody).bind fun _ _ =>
          ends_lowerChain rest scope exit hf hfit hrest).congr ?_
      simp
    | false =>
      refine (ends_newLabel.step fun next => (ends_lowerValue hfit htest _).bind fun t _ =>
        (ends_emit _ _ _ _ _).step fun _ => (ends_lowerStmt body scope hf hfit hbody).bind fun _ _ =>
          ends_endsInTransfer.step fun ended => Ends.ite
            ((ends_emit _ _ _ _ _).step fun _ => ends_lowerChain rest scope exit hf hfit hrest)
            ((ends_emit _ _ _ _ _).step fun _ => (ends_emit _ _ _ _ _).step fun _ =>
              ends_lowerChain rest scope exit hf hfit hrest)).congr ?_
      simp
end

end Stmts

/-! ### Programs -/

/-- The symbols that a declaration declares or mentions. -/
def Decl.symbols : Decl → List SymbolId
  | .function s params body => s :: params ++ body.mentions
  | .global s init => s :: init.elim [] Expr.mentions

section Program

variable {symbols : SymbolTable}

theorem ends_lowerParams (pos : Nat) {params : List SymbolId} (hm : symbols.Declares params) :
    (lowerParams symbols pos params).Ends none fun _ => True := by
  induction params generalizing pos with
  | nil => exact ends_pure trivial
  | cons param params ih =>
    obtain ⟨⟨s, hs⟩, hparams⟩ := hm.cons
    exact (ends_newTemp _).step fun incoming => (ends_symbol hs).step fun target =>
      (ends_emit _ _ _ _ _).step fun _ => ih _ hparams

theorem ends_lowerFunction (hfit : symbols.ElementsFit) {id : SymbolId} {params : List SymbolId} {body : Stmt}
    (hm : symbols.Declares (Decl.function id params body).symbols) :
    (lowerFunction symbols id params body).Ends (firstOffence? symbols (body.constructs false)) fun _ => True := by
  obtain ⟨hm, hbody⟩ := SymbolTable.Declares.append hm
  obtain ⟨⟨s, hs⟩, hparams⟩ := hm.cons
  have hlowered : ∀ returnValue, (lowerStmt { symbols, function := some { returnValue } } body).Ends
      (firstOffence? symbols (body.constructs false)) fun _ => True :=
    fun returnValue => ends_lowerStmt body { symbols, function := some { returnValue } } rfl hfit hbody
  refine (ends_get.step fun _ => (ends_lookup hs).next fun _ _ => (ends_symbol hs).step fun name =>
    (ends_emit _ _ _ _ _).step fun _ => (ends_lowerParams 0 hparams).step fun _ => (ends_newTemp _).step fun r =>
      (hlowered r).bind fun _ _ => ends_get.step fun b => Ends.ite
        (ends_get.step fun _ => ends_report _)
        ((ends_emit _ _ _ _ _).step fun _ => ends_get.step fun _ => ends_report _)).congr ?_
  simp

theorem ends_lowerGlobal {id : SymbolId} {s : Symbol} (hs : symbols.get? id = some s) (init : Option Expr) :
    (lowerGlobal symbols id init).Ends ((Construct.global id init).offence? symbols) fun _ => True := by
  have hpush : ∀ value, (modify fun b => { b with globals := b.globals.push ⟨id, value⟩ } : LowerM Unit).Ends none
      fun _ => True := fun value => ends_of_ok fun _ => ⟨(), _, modify_eq_ok.mpr rfl, trivial⟩
  unfold lowerGlobal
  cases init with
  | none => exact (ends_pure trivial).step hpush
  | some e =>
    cases he : e.word? with
    | some word =>
      simp only [he]
      refine ((ends_pure trivial).step hpush).congr ?_
      simp [Construct.offence?, he]
    | none =>
      simp only [he]
      refine (ends_lookup hs).next fun t ht => ?_
      subst ht
      refine ((ends_throw _ fun _ => True).bind fun value _ => hpush value).congr ?_
      simp [Construct.offence?, he, hs]

theorem ends_lowerDecl (hfit : symbols.ElementsFit) (d : Decl) (hm : symbols.Declares d.symbols) :
    (lowerDecl symbols d).Ends (firstOffence? symbols d.constructs) fun _ => True := by
  cases d with
  | function id params body => exact ends_lowerFunction hfit hm
  | global id init =>
    obtain ⟨⟨s, hs⟩, -⟩ := SymbolTable.Declares.cons hm
    refine (ends_lowerGlobal hs init).congr ?_
    simp [Decl.constructs]

theorem ends_lowerDecls (hfit : symbols.ElementsFit) {decls : List Decl}
    (hm : ∀ d ∈ decls, symbols.Declares d.symbols) :
    (lowerDecls symbols decls).Ends (firstOffence? symbols (decls.flatMap Decl.constructs)) fun _ => True := by
  induction decls with
  | nil => exact ends_pure trivial
  | cons d decls ih =>
    rw [List.flatMap_cons, firstOffence?_append]
    exact (ends_lowerDecl hfit d (hm d List.mem_cons_self)).bind fun _ _ =>
      ih fun d hd => hm d (List.mem_cons_of_mem _ hd)

/-- A program is lowered if nothing in it offends, and otherwise fails at the first offence. -/
theorem lower_cases {p : Program} (hm : ∀ d ∈ p.decls, p.symbols.Declares d.symbols) (hfit : p.symbols.ElementsFit) :
    (firstOffence? p.symbols p.constructs = none ∧ ∃ l, p.lower = .ok l) ∨
      ∃ e, firstOffence? p.symbols p.constructs = some e ∧ p.lower = .error e := by
  have hends : (lowerProgram p).Ends (firstOffence? p.symbols p.constructs) fun _ => True := by
    refine ((ends_lowerDecls hfit hm).bind fun _ _ => ends_get.step fun _ => (ends_report _).step fun _ =>
      ends_pure trivial).congr ?_
    simp [Program.constructs]
  have hrun := hends {}
  unfold Program.lower
  rw [EStateM.run]
  cases h : lowerProgram p {} with
  | ok l b =>
    rw [h] at hrun
    exact .inl ⟨hrun.1, l, rfl⟩
  | error e b =>
    rw [h] at hrun
    exact .inr ⟨e, hrun, rfl⟩

theorem LowerError.message_ne {e : LowerError} (hliteral : e ≠ .noValue .literal)
    (hslot : e ≠ .noValue .returnValueSlot) : e.message ≠ "no operand produced for literal" ∧
      e.message ≠ "no operand produced for return value slot" := by
  cases e with
  | noValue site =>
    cases site with
    | literal => exact absurd rfl hliteral
    | returnValueSlot => exact absurd rfl hslot
    | _ => decide
  | outsideLoop control => cases control <;> decide
  | sizeOverflow => decide
  | nonLiteralGlobal name =>
    have hhead : (nonLiteralGlobal name).message.toList.head? = some 'g' := by
      show ("global `" ++ name ++ "` has a non-literal initializer").toList.head? = _
      simp
    constructor <;> intro h <;> rw [h] at hhead <;> simp at hhead
  | unknownSymbol symbol =>
    have hhead : (unknownSymbol symbol).message.toList.head? = some 's' := by
      show ("symbol " ++ toString symbol ++ " is not declared").toList.head? = _
      simp
    constructor <;> intro h <;> rw [h] at hhead <;> simp at hhead

/-- Lowering succeeds exactly on the programs in which calls of type `void` stand alone, loop controls stand in the
bodies of loops and globals start with literals. On any other it fails with the error of the first construct that
offends. It does come to literals and to slots for return values, but it never fails there. -/
theorem lowering_fails_at_first_offence (p : Program) (hm : ∀ d ∈ p.decls, p.symbols.Declares d.symbols)
    (hfit : p.symbols.ElementsFit) :
    ((∃ l, p.lower = .ok l) ↔ p.decls.all Decl.voidCallsAlone = true ∧ p.decls.all Decl.controlsInLoops = true ∧
        p.decls.all Decl.startsLiteral = true) ∧
      (∀ e, p.lower = .error e ↔ firstOffence? p.symbols p.constructs = some e) ∧
      (p.lower ≠ .error (.noValue .literal) ∧ p.lower ≠ .error (.noValue .returnValueSlot)) ∧
      ∀ e, p.lower = .error e → e.message ≠ "no operand produced for literal" ∧
        e.message ≠ "no operand produced for return value slot" := by
  rw [← p.firstOffence?_constructs]
  obtain ⟨hnone, l, hl⟩ | ⟨e, hsome, he⟩ := lower_cases hm hfit
  · simp [hnone, hl]
  · obtain ⟨hliteral, hslot⟩ := p.firstOffence?_ne hsome
    simp [hsome, he, hliteral, hslot, LowerError.message_ne hliteral hslot]

/-- The update part of the inner loop may leave the outer one; the store offends before its index and before the loop
control that follows. -/
def scribble : Program where
  symbols := ⟨#[⟨"a", .globalVar, .array .int 4, none⟩, ⟨"log", .function, .function [] .void, none⟩,
    ⟨"main", .function, .function [] .void, none⟩]⟩
  decls := [.global 0 none, .function 2 [] (.block [.loop .skip none .skip (.loop .skip none .leave .skip),
    .eval (.call 1 [] .void), .store 0 (.call 1 [] .void) (.call 1 [] .void), .next])]

theorem scribble_fails_in_its_store : (∀ d ∈ scribble.decls, scribble.symbols.Declares d.symbols) ∧
    scribble.symbols.ElementsFit ∧ scribble.lower = .error (.noValue .arrayStore) := by
  have hm : ∀ d ∈ scribble.decls, scribble.symbols.Declares d.symbols := by decide
  have hfit : scribble.symbols.ElementsFit := by decide
  exact ⟨hm, hfit, ((lowering_fails_at_first_offence scribble hm hfit).2.1 _).mpr (by decide)⟩

end Program

end MiddleEnd
