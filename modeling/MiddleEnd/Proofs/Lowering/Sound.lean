import MiddleEnd.Proofs.Lowering.Growth

/-! What holds of code at every moment of its making. The temporaries that a calling convention will fix
are read in a few places only, each right behind the instructions that supply them:

    f:                    arg 0: a0 = ..      call r = g(a0, a1)    rv = ..
    param 0: x = p0       arg 1: a1 = ..      c = r                 return rv
    param 1: y = p1       call r = g(a0, a1)  -/

namespace MiddleEnd

/-- A convention fixes the place of temporaries with this tag. -/
def Tag.isFixed : Tag → Bool
  | .arg _ | .param _ | .callResult | .returnValue => true
  | _ => false

/-- The instruction right before `pos` has the opcode `op` and writes `y`. -/
def Code.SetBefore (c : Code) (pos : Nat) (op : Opcode) (y : OperandId) : Prop :=
  ∃ s x, pos = s + 1 ∧ c.instrs[s]? = some x ∧ x.op = op ∧ x.result = some y

/-- Where an instruction may read an operand with a tag. -/
def Code.MayRead (c : Code) (pos : Nat) (z : Instr) (y : OperandId) : Tag → Prop
  | .param k => ∃ s, pos = s + 1 + k ∧ (∃ x, c.instrs[s]? = some x ∧ x.op = .header) ∧
      (∀ m < k, ∃ x, c.instrs[s + 1 + m]? = some x ∧ x.op = .param m) ∧ z.op = .param k ∧ z.sources = [y]
  | .arg k => ∃ s, pos = s + z.args.length ∧ z.op = .call ∧ z.args[k]? = some y ∧
      ∀ m < z.args.length, ∃ x, c.instrs[s + m]? = some x ∧ x.op = .arg m ∧ x.result = z.args[m]?
  | .callResult => z.op = .assign ∧ c.SetBefore pos .call y
  | .returnValue => z.op = .ret ∧ c.SetBefore pos .assign y
  | _ => True

/-- Which instructions may write an operand with a tag. -/
def Opcode.MaySet (op : Opcode) : Tag → Prop
  | .param _ => False
  | .arg k => op = .arg k
  | .callResult => op = .call
  | .returnValue => op = .assign
  | _ => True

theorem Code.mayRead_of_not_fixed (c : Code) (pos : Nat) (z : Instr) (y : OperandId) {tag : Tag}
    (h : tag.isFixed = false) : c.MayRead pos z y tag := by
  cases tag <;> trivial

theorem Opcode.maySet_of_not_fixed (op : Opcode) {tag : Tag} (h : tag.isFixed = false) : op.MaySet tag := by
  cases tag <;> trivial

/-- Instructions with the opcode have no result. -/
def Opcode.isSilent : Opcode → Bool
  | .store | .label | .branch | .jump => true
  | _ => false

/-- The instruction may stand at `pos`. -/
structure Code.Fits (c : Code) (pos : Nat) (z : Instr) : Prop where
  known : ∀ y ∈ z.mentions, y < c.operands.size
  sources : ∀ y ∈ z.sources, ∀ tag, c.operands.tag? y = some tag → c.MayRead pos z y tag
  dest : ∀ y, z.dest? = some y → ∀ tag, c.operands.tag? y = some tag → z.op.MaySet tag
  silent : z.op.isSilent = true → z.result = none

/-- An operand that is no symbol and has not been placed. -/
def Operand.Fresh (o : Operand) : Prop :=
  (∃ t tag, o = { kind := .temp t tag, isValue := true }) ∨ (∃ l, o = { kind := .label l, isValue := false }) ∨
    ∃ v, o = { kind := .int v, isValue := false }

theorem Operand.Fresh.symbol?_eq_none {o : Operand} (h : o.Fresh) : o.symbol? = none := by
  rcases h with ⟨t, tag, rfl⟩ | ⟨l, rfl⟩ | ⟨v, rfl⟩ <;> rfl

/-- No operand has been placed, and each symbol that has an operand has exactly one. -/
structure Arena.Fresh (symbols : SymbolTable) (a : Arena) : Prop where
  interned : ∀ (id : SymbolId) (y : OperandId), a.interned[id]? = some y →
    ∃ s, symbols.get? id = some s ∧ a.get? y = some (s.operand id)
  operand : ∀ y o, a.get? y = some o → o.Fresh ∨
    ∃ id s, symbols.get? id = some s ∧ a.interned[id]? = some y ∧ o = s.operand id

/-- What holds of code at every moment of its making. -/
structure Code.Sound (symbols : SymbolTable) (c : Code) : Prop where
  numbered : c.Numbered
  fresh : c.operands.Fresh symbols
  fits : ∀ (i : Nat) (z : Instr), c.instrs[i]? = some z → c.Fits i z
  once : ∀ y i j, c.places y i → c.places y j → i = j

theorem Instr.mem_mentions_of_source {z : Instr} {y : OperandId} (h : y ∈ z.sources) : y ∈ z.mentions := by
  unfold sources mentions at *
  cases z.op <;> simp at h ⊢ <;> grind

theorem Instr.mem_mentions_of_dest {z : Instr} {y : OperandId} (h : z.dest? = some y) : y ∈ z.mentions := by
  unfold dest? mentions at *
  cases z.op <;> simp at h ⊢ <;> grind

namespace Code

theorem Grows.tag? {c d : Code} (h : c.Grows d) {y : OperandId} (hy : y < c.operands.size) :
    d.operands.tag? y = c.operands.tag? y := by
  obtain ⟨o, ho⟩ := Arena.exists_of_lt_size hy
  rw [Arena.tag?, Arena.tag?, ho, h.operands y o ho]

theorem Grows.setBefore {c d : Code} (h : c.Grows d) {pos : Nat} {op : Opcode} {y : OperandId}
    (hs : c.SetBefore pos op y) : d.SetBefore pos op y := by
  obtain ⟨s, x, hpos, hx, hop⟩ := hs
  exact ⟨s, x, hpos, h.instrs s x hx, hop⟩

theorem Grows.mayRead {c d : Code} (h : c.Grows d) {pos : Nat} {z : Instr} {y : OperandId} {tag : Tag}
    (hr : c.MayRead pos z y tag) : d.MayRead pos z y tag := by
  cases tag with
  | param k =>
    obtain ⟨s, hpos, ⟨x, hx, hop⟩, hm, hz⟩ := hr
    refine ⟨s, hpos, ⟨x, h.instrs s x hx, hop⟩, fun m hmk => ?_, hz⟩
    obtain ⟨x, hx, hop⟩ := hm m hmk
    exact ⟨x, h.instrs _ x hx, hop⟩
  | arg k =>
    obtain ⟨s, hpos, hz, hy, hm⟩ := hr
    refine ⟨s, hpos, hz, hy, fun m hmk => ?_⟩
    obtain ⟨x, hx, hop⟩ := hm m hmk
    exact ⟨x, h.instrs _ x hx, hop⟩
  | callResult => exact ⟨hr.1, h.setBefore hr.2⟩
  | returnValue => exact ⟨hr.1, h.setBefore hr.2⟩
  | _ => trivial

theorem Grows.fits {c d : Code} (h : c.Grows d) {pos : Nat} {z : Instr} (hf : c.Fits pos z) : d.Fits pos z := by
  refine ⟨fun y hy => Nat.lt_of_lt_of_le (hf.known y hy) h.size_operands, fun y hy tag ht => ?_,
    fun y hy tag ht => ?_, hf.silent⟩
  · rw [h.tag? (hf.known y (Instr.mem_mentions_of_source hy))] at ht
    exact h.mayRead (hf.sources y hy tag ht)
  · rw [h.tag? (hf.known y (Instr.mem_mentions_of_dest hy))] at ht
    exact hf.dest y hy tag ht

theorem Sound.lt_of_places {symbols : SymbolTable} {c : Code} (h : c.Sound symbols) {y : OperandId} {i : Nat}
    (hp : c.places y i) : y < c.operands.size := by
  obtain ⟨z, hz, -, hl⟩ := (places_iff c y i).mp hp
  exact (h.fits i z hz).known y (by simp [Instr.mentions, hl])

theorem Sound.empty (symbols : SymbolTable) : Sound symbols {} := by
  refine ⟨fun i z h => ?_, ⟨fun id y h => ?_, fun y o h => ?_⟩, fun i z h => ?_, fun y i j h => ?_⟩
  · simp at h
  · simp at h
  · simp [Arena.get?] at h
  · simp at h
  · simp [places] at h

theorem Sound.addOperand {symbols : SymbolTable} {c : Code} (h : c.Sound symbols) {o : Operand} (ho : o.Fresh) :
    (c.addOperand o).Sound symbols := by
  refine ⟨h.numbered, ⟨fun id y hy => ?_, fun y p hp => ?_⟩,
    fun i z hz => (c.grows_addOperand o).fits (h.fits i z hz), h.once⟩
  · obtain ⟨s, hs, hg⟩ := h.fresh.interned id y hy
    exact ⟨s, hs, Arena.get?_push_of_get? o hg⟩
  · rw [get?_addOperand] at hp
    split at hp
    · cases hp
      exact Or.inl ho
    · exact h.fresh.operand y p hp

theorem Sound.addSymbol {symbols : SymbolTable} {c : Code} (h : c.Sound symbols) {id : SymbolId} {s : Symbol}
    (hs : symbols.get? id = some s) : (c.addSymbol id s).Sound symbols := by
  have hgrows := c.grows_addSymbol id s
  refine ⟨h.numbered, ?_, fun i z hz => hgrows.fits (h.fits i z hz), h.once⟩
  obtain ⟨y, -, he⟩ | ⟨hnone, -, hget, hint⟩ := c.operands.symbol_cases id s
  · rw [Code.addSymbol, he]
    exact h.fresh
  · refine ⟨fun t y hy => ?_, fun y o ho => ?_⟩
    · rw [operands_addSymbol, hint] at hy
      split at hy
      case isTrue ht =>
        subst ht
        cases hy
        exact ⟨s, hs, (hget _).trans (if_pos rfl)⟩
      case isFalse =>
        obtain ⟨u, hu, hg⟩ := h.fresh.interned t y hy
        exact ⟨u, hu, hgrows.operands y _ hg⟩
    · rw [operands_addSymbol, hget] at ho
      split at ho
      case isTrue hy =>
        cases ho
        exact Or.inr ⟨id, s, hs, (hint id).trans ((if_pos rfl).trans (congrArg some hy.symm)), rfl⟩
      case isFalse =>
        rcases h.fresh.operand y o ho with ho | ⟨t, u, hu, ht, ho⟩
        · exact Or.inl ho
        · exact Or.inr ⟨t, u, hu, hgrows.interned t y ht, ho⟩

theorem places_addInstr {c : Code} {z : Instr} {y : OperandId} {i : Nat} :
    (c.addInstr z).places y i ↔
      (i = c.instrs.size ∧ z.op = .label ∧ z.left = some y) ∨ c.places y i := by
  rw [places_iff, places_iff, getElem?_addInstr]
  split
  case isTrue hi => simp [hi]
  case isFalse hi => simp [hi]

theorem Sound.addInstr {symbols : SymbolTable} {c : Code} (h : c.Sound symbols) {z : Instr}
    (hid : z.id = c.instrs.size) (hfits : c.Fits c.instrs.size z)
    (hlabel : z.op = .label → ∀ y, z.left = some y → ∀ i, ¬ c.places y i) : (c.addInstr z).Sound symbols := by
  have hgrows := c.grows_addInstr z
  refine ⟨fun i x hx => ?_, h.fresh, fun i x hx => ?_, fun y i j hi hj => ?_⟩
  · rw [getElem?_addInstr] at hx
    split at hx
    case isTrue hi =>
      cases hx
      exact hid.trans hi.symm
    case isFalse => exact h.numbered i x hx
  · rw [getElem?_addInstr] at hx
    split at hx
    case isTrue hi =>
      cases hx
      subst hi
      exact hgrows.fits hfits
    case isFalse => exact hgrows.fits (h.fits i x hx)
  · rcases places_addInstr.mp hi with ⟨hi, hop, hl⟩ | hi <;> rcases places_addInstr.mp hj with ⟨hj, hop', hl'⟩ | hj
    · rw [hi, hj]
    · exact absurd hj (hlabel hop y hl j)
    · exact absurd hi (hlabel hop' y hl' i)
    · exact h.once y i j hi hj

end Code

end MiddleEnd
