import MiddleEnd.Proofs.Simulation.Expr

/-! Executing the code of a statement does what the statement does: it ends behind the code if the statement
ends normally, at a label of the innermost loop around if it leaves or continues that loop, and otherwise
in front of an instruction that returns the statement's value. -/

namespace MiddleEnd

open Builder

namespace Code

/-- Nothing was added to `d`, or `e` does not end in a transfer. -/
def Open (d e : Code) : Prop := e.instrs.size = d.instrs.size ∨ e.instrs.back?.any (·.isTransfer) = false

theorem Grows.instrs_eq {d e : Code} (h : d.Grows e) (hsize : e.instrs.size = d.instrs.size) : e.instrs = d.instrs := by
  apply Array.ext_getElem?
  intro i
  rcases Nat.lt_or_ge i d.instrs.size with hi | hi
  · rw [Array.getElem?_eq_getElem hi, h.instrs i _ (Array.getElem?_eq_getElem hi)]
  · rw [Array.getElem?_eq_none hi, Array.getElem?_eq_none (hsize ▸ hi)]

theorem Open.trans {c d e : Code} (h : c.Open d) (h' : d.Open e) (hd : d.Grows e) : c.Open e := by
  rcases h' with hsize | hback
  · have he := hd.instrs_eq hsize
    rcases h with hsize' | hback
    · exact Or.inl (hsize.trans hsize')
    · exact Or.inr (he ▸ hback)
  · exact Or.inr hback

theorem open_addInstr (d e : Code) {z : Instr} (hop : z.op ≠ .jump ∧ z.op ≠ .ret) : d.Open (e.addInstr z) := by
  right
  simp [addInstr, Instr.isTransfer, hop]

end Code

theorem lowerExpr_open {symbols : SymbolTable} {e : Expr} {b b' : Builder} {o : Option OperandId}
    (h : lowerExpr symbols e b = .ok o b') : b.code.Open b'.code := by
  cases e with
  | literal lit ty =>
    obtain ⟨-, rfl⟩ := lowerExpr_literal h
    exact Or.inl rfl
  | name id ty =>
    obtain ⟨s, -, -, rfl⟩ := lowerExpr_name h
    exact Or.inl rfl
  | binary op lhs rhs ty =>
    obtain ⟨l, b₁, r, b₂, -, -, -, rfl⟩ := lowerExpr_binary h
    exact Code.open_addInstr _ _ (by simp [instr])
  | unary op arg ty =>
    obtain ⟨a, b₁, -, -, rfl⟩ := lowerExpr_unary h
    exact Code.open_addInstr _ _ (by simp [instr])
  | call callee args ty =>
    obtain ⟨values, b₁, -, hcall⟩ := lowerExpr_call h
    by_cases hty : ty = .void
    · obtain ⟨args, b₂, s, -, -, -, hb'⟩ := lowerCall_void hty hcall
      rw [hb']
      exact Code.open_addInstr _ _ (by simp [instr])
    · obtain ⟨args, b₂, s, b₃, b₄, -, -, -, -, -, hb'⟩ := lowerCall_value hty hcall
      rw [hb']
      exact Code.open_addInstr _ _ (by simp [instr])
  | index array pos ty =>
    obtain ⟨s, size, p, b₁, address, b₂, -, -, -, -, -, rfl⟩ := lowerExpr_index h
    exact Code.open_addInstr _ _ (by simp [instr])

theorem Code.Sound.labelAt?_eq {symbols : SymbolTable} {c : Code} (hc : c.Sound symbols) {first last pos : Nat}
    {z : Instr} {y : OperandId} (hz : c.fetch first last pos = some z) (hop : z.op = .label) (hl : z.left = some y) :
    c.labelAt? first last y = some pos := by
  obtain ⟨hf, hl', hi⟩ := Code.fetch_eq_some.mp hz
  have hplaces : c.places y pos = true := (places_iff c y pos).mpr ⟨z, hi, hop, hl⟩
  have hmem : pos ∈ (List.range' first (last + 1 - first)).filter (c.places y) :=
    List.mem_filter.mpr ⟨List.mem_range'_1.mpr ⟨hf, by omega⟩, hplaces⟩
  unfold labelAt?
  cases hlast : ((List.range' first (last + 1 - first)).filter (c.places y)).getLast? with
  | none =>
    rw [List.getLast?_eq_none_iff] at hlast
    rw [hlast] at hmem
    cases hmem
  | some q =>
    have hq := (List.mem_filter.mp (List.mem_of_getLast? hlast)).2
    rw [hc.once y q pos hq hplaces]

/-- Where control is after a statement with the outcome, whose code ends at `stop`. -/
def Scope.Arrives (F : Effects) (c : Code) (first last : Nat) (scope : Scope) (stop : Nat) :
    Outcome → Nat → Virtual → Prop
  | .normal, pc, _ => pc = stop
  | .leave, pc, _ => ∃ labels, scope.loop = some labels ∧ c.labelAt? first last labels.exit = some pc
  | .next, pc, _ => ∃ labels, scope.loop = some labels ∧ c.labelAt? first last labels.update = some pc
  | .returned v, pc, st => F.step c first last pc st = some (.returned v st.world)

/-- What the code refers to is there: the temporary of the return value, and the labels of the loop around. -/
structure Scope.Placed (c : Code) (first last : Nat) (scope : Scope) : Prop where
  returnValue : ∀ f, scope.function = some f →
    c.operands.isValue f.returnValue = true ∧ c.operands.symbol? f.returnValue = none
  labels : ∀ labels, scope.loop = some labels →
    (∃ pos, c.labelAt? first last labels.update = some pos) ∧ ∃ pos, c.labelAt? first last labels.exit = some pos

section Stmt

variable {symbols : SymbolTable} {F : Effects} {c : Code} {first last : Nat} {scope : Scope} {b b' : Builder}
  {st : Virtual} {s : Store}

theorem Scope.Arrives.of_ne {stop stop' : Nat} {o : Outcome} {pc : Nat} (h : scope.Arrives F c first last stop o pc st)
    (ho : o ≠ .normal) : scope.Arrives F c first last stop' o pc st := by
  cases o with
  | normal => exact absurd rfl ho
  | leave => exact h
  | next => exact h
  | returned v => exact h

/-- Executing the code from `b` to `b'` has the outcome, and ends in a state that stands for the store. -/
def Scope.Performs (F : Effects) (c : Code) (first last : Nat) (scope : Scope) (b b' : Builder) (st : Virtual)
    (o : Outcome) (s : Store) : Prop :=
  ∃ pc st', Moves F c first last (b.code.instrs.size, st) (pc, st') ∧
    scope.Arrives F c first last b'.code.instrs.size o pc st' ∧ c.Holds s st' ∧ (o = .normal → b.code.Open b'.code)

theorem Scope.performs_of_moves {st' : Virtual}
    (h : Moves F c first last (b.code.instrs.size, st) (b'.code.instrs.size, st')) (hst : c.Holds s st')
    (hopen : b.code.Open b'.code) : scope.Performs F c first last b b' st .normal s :=
  ⟨_, st', h, rfl, hst, fun _ => hopen⟩

theorem Scope.Performs.trans {b₁ : Builder} {o : Outcome} {s' : Store}
    (h : scope.Performs F c first last b b₁ st .normal s)
    (h' : ∀ st', c.Holds s st' → scope.Performs F c first last b₁ b' st' o s') (hg : b₁.code.Grows b'.code) :
    scope.Performs F c first last b b' st o s' := by
  obtain ⟨_, st₁, hmoves, rfl, hst₁, hopen⟩ := h
  obtain ⟨pc, st₂, hmoves', harr, hst₂, hopen'⟩ := h' st₁ hst₁
  exact ⟨pc, st₂, hmoves.trans hmoves', harr, hst₂, fun ho => (hopen rfl).trans (hopen' ho) hg⟩

theorem Scope.Performs.stop {b₁ : Builder} {o : Outcome} (h : scope.Performs F c first last b b₁ st o s)
    (ho : o ≠ .normal) : scope.Performs F c first last b b' st o s := by
  obtain ⟨pc, st', hmoves, harr, hst, -⟩ := h
  exact ⟨pc, st', hmoves, harr.of_ne ho, hst, fun h => absurd h ho⟩

theorem moves_label {y : OperandId} (hp : c.Part first last b.code (b.withInstr .label none (some y) none []).code)
    (st : Virtual) : Moves F c first last (b.code.instrs.size, st)
      ((b.withInstr .label none (some y) none []).code.instrs.size, st) := by
  rw [size_withInstr]
  exact .single (step_pass hp.fetch (Or.inr rfl))

theorem moves_jump {y : OperandId} {pos : Nat}
    (hp : c.Part first last b.code (b.withInstr .jump none (some y) none []).code)
    (hpos : c.labelAt? first last y = some pos) (st : Virtual) :
    Moves F c first last (b.code.instrs.size, st) (pos, st) :=
  .single (step_jump hp.fetch rfl rfl hpos)

theorem Code.Holds.eval (hc : c.Sound symbols) (hst : c.Holds s st) {e : Expr} {o : Option OperandId}
    {v : Option Word} {m : Memory} (h : lowerExpr symbols e b = .ok o b') (hp : c.Part first last b.code b'.code)
    (hv : e.eval F symbols s.vars s.memory = some (v, m)) : ∃ st', Computes F c first last b.code b'.code st st' ∧
      c.Holds ⟨s.vars, m⟩ st' ∧ c.Yields b'.code.operands.size st' o v := by
  have hst' : c.Holds ⟨s.vars, st.world.memory⟩ st := ⟨rfl, hst.vars⟩
  obtain ⟨st', hcomp, rfl, hyield⟩ := lowerExpr_computes hc e h hp hst' (hst.memory ▸ hv)
  exact ⟨st', hcomp, hst.frame hcomp.frame, hyield⟩

theorem branch_moves (hc : c.Sound symbols) {e : Expr} {t label : OperandId} {pos : Nat} {v : Word} {m : Memory}
    (h : lowerExpr symbols e b = .ok (some t) b')
    (hp : c.Part first last b.code (b'.withInstr .branch none (some t) (some label) []).code)
    (hpos : c.labelAt? first last label = some pos) (hst : c.Holds s st)
    (hv : e.value F symbols s.vars s.memory = some (v, m)) : ∃ st', c.Holds ⟨s.vars, m⟩ st' ∧
      Moves F c first last (b.code.instrs.size, st) (if v = 0 then pos else b'.code.instrs.size + 1, st') := by
  have hg₁ := adds_lowerExpr symbols e h
  have hg₂ := grows_withInstr b' .branch none (some t) (some label) []
  obtain ⟨st', hcomp, hst', hyield⟩ := hst.eval hc h (hp.left hg₂) (Expr.value_eq_some.mp hv)
  refine ⟨st', hst', hcomp.moves.trans (.single ?_)⟩
  have hfetch := Code.Part.fetch (hp.right hg₁)
  split
  case isTrue hzero =>
    subst hzero
    exact step_branch_zero hfetch rfl rfl hyield.gives.2 rfl hpos
  case isFalse hne => exact step_branch_ne hfetch rfl rfl hyield.gives.2 hne

theorem assign_performs (hc : c.Sound symbols) {e : Expr} {id : SymbolId} {t : Symbol} {y : OperandId} {b₁ : Builder}
    {v : Word} {m : Memory} (h : lowerExpr symbols e b = .ok (some y) b₁)
    (hb' : b' = (b₁.withSymbol id t).withInstr .assign (some (b₁.code.operands.symbol id t).1) (some y) none [])
    (hp : c.Part first last b.code b'.code) (hst : c.Holds s st)
    (hv : e.value F symbols s.vars s.memory = some (v, m)) :
    scope.Performs F c first last b b' st .normal ⟨Function.update s.vars id v, m⟩ := by
  subst hb'
  have hg₁ := adds_lowerExpr symbols e h
  have hsym : b₁.code.Grows (b₁.withSymbol id t).code := Code.grows_addSymbol _ _ _
  have hset := grows_withInstr (b₁.withSymbol id t)
    .assign (some (b₁.code.operands.symbol id t).1) (some y) none []
  obtain ⟨st₁, hcomp, hst₁, hyield⟩ := hst.eval hc h (hp.left (hsym.trans hset)) (Expr.value_eq_some.mp hv)
  obtain ⟨st₂, hassign, hst₂, -⟩ := hst₁.assign hc (symbol_of_grows hc (hset.trans hp.grows)) v
  have hfetch := Code.Part.fetch (hp.right (hg₁.trans hsym))
  have hstep := (step_copy (M := F) hfetch (Or.inl rfl) rfl hyield.gives.2).trans (finish_of_assign hassign)
  rw [← size_withInstr] at hstep
  exact Scope.performs_of_moves (hcomp.moves.trans (.single hstep)) hst₂ (Code.open_addInstr _ _ (by simp [instr]))

theorem store_performs (hc : c.Sound symbols) {array : SymbolId} {pos value : Expr} {u : Unit} {v i a : Word}
    {m m' : Memory} (h : lowerStmt scope (.store array pos value) b = .ok u b') (hsymbols : scope.symbols = symbols)
    (hp : c.Part first last b.code b'.code) (hst : c.Holds s st)
    (hv : value.value F symbols s.vars s.memory = some (v, m)) (hi : pos.value F symbols s.vars m = some (i, m'))
    (ha : F.element symbols array i = some a) :
    scope.Performs F c first last b b' st .normal ⟨s.vars, Function.update m' a v⟩ := by
  obtain ⟨y, b₁, t, size, p, b₂, address, b₃, hy, ht, hsize, hpos, haddr, rfl⟩ := lowerStmt_store h
  rw [hsymbols] at hy ht hpos haddr
  obtain ⟨t', size', offset, ht', hsize', hoffset, rfl⟩ := Operators.element_eq_some ha
  rw [ht] at ht'
  cases ht'
  rw [hsize] at hsize'
  cases hsize'
  have hg₁ := adds_lowerExpr symbols value hy
  have hg₂ := adds_lowerExpr symbols pos hpos
  have hg₃ := adds_lowerAddress symbols array size p haddr
  have hg₄ := grows_withInstr b₃ .store none (some address) (some y) []
  obtain ⟨st₁, hcomp₁, hst₁, hvalue⟩ := hst.eval hc hy (hp.left (hg₂.trans (hg₃.trans hg₄))) (Expr.value_eq_some.mp hv)
  obtain ⟨st₂, hcomp₂, hst₂, hindex⟩ := hst₁.eval hc hpos ((hp.left (hg₃.trans hg₄)).right hg₁)
    (Expr.value_eq_some.mp hi)
  obtain ⟨st₃, hcomp₃, hmem, haddress⟩ := lowerAddress_computes hc haddr ((hp.left hg₄).right (hg₁.trans hg₂))
    hindex.gives hoffset
  have hstored := (hvalue.gives.frame hcomp₂.frame hg₂.size_operands).frame hcomp₃.frame hg₃.size_operands
  have hfetch := Code.Part.fetch (hp.right (hg₁.trans (hg₂.trans hg₃)))
  have hmem' : st₃.world.memory = m' := hmem.trans hst₂.memory
  have hstep := step_store (M := F) hfetch rfl rfl rfl haddress.2 hstored.2
  rw [← size_withInstr] at hstep
  refine Scope.performs_of_moves (hcomp₁.moves.trans (hcomp₂.moves.trans (hcomp₃.moves.trans (.single hstep)))) ?_
    (Code.open_addInstr _ _ (by simp [instr]))
  rw [← hmem']
  exact (hst₂.frame hcomp₃.frame).frame (frame_memory (n := 0) _)

theorem ret_performs (hc : c.Sound symbols) {value : Expr} {u : Unit} {v : Word} {m : Memory}
    (h : lowerStmt scope (.ret (some value)) b = .ok u b') (hsymbols : scope.symbols = symbols)
    (hscope : scope.Placed c first last) (hp : c.Part first last b.code b'.code) (hst : c.Holds s st)
    (hv : value.value F symbols s.vars s.memory = some (v, m)) :
    scope.Performs F c first last b b' st (.returned (some v)) ⟨s.vars, m⟩ := by
  obtain ⟨f, y, b₁, hf, hy, rfl⟩ := lowerStmt_ret h
  obtain ⟨hvalue, hsymbol⟩ := hscope.returnValue f hf
  rw [hsymbols] at hy
  have hg₁ := adds_lowerExpr symbols value hy
  have hg₂ := grows_withInstr b₁ .assign (some f.returnValue) (some y) none []
  have hg₃ := grows_withInstr (b₁.withInstr .assign (some f.returnValue) (some y) none [])
    .ret none (some f.returnValue) none []
  obtain ⟨st₁, hcomp, hst₁, hyield⟩ := hst.eval hc hy (hp.left (hg₂.trans hg₃)) (Expr.value_eq_some.mp hv)
  have hfetch := Code.Part.fetch ((hp.left hg₃).right hg₁)
  have hfetch' := Code.Part.fetch (hp.right (hg₁.trans hg₂))
  have hset : c.Frame 0 st₁ (st₁.set f.returnValue v) := frame_set (Nat.zero_le _) hsymbol v
  refine ⟨_, st₁.set f.returnValue v, hcomp.moves.trans (.single ?_),
    step_ret_value hfetch' rfl rfl (word_set_self hvalue), ?_, fun h => by cases h⟩
  · rw [size_withInstr]
    exact (step_copy hfetch (Or.inl rfl) rfl hyield.gives.2).trans (finish_value hvalue)
  · have hmem : (st₁.set f.returnValue v).world.memory = m := hst₁.memory
    exact hmem ▸ hst₁.frame hset

theorem lowerChain_selects (hc : c.Sound symbols) (hsymbols : scope.symbols = symbols) {exit : OperandId} :
    ∀ (chain : Chain) {b b' : Builder} {u : Unit} {st : Virtual} {s : Store} {body : Stmt} {m : Memory},
    lowerChain scope exit chain b = .ok u b' → c.Part first last b.code b'.code →
    c.labelAt? first last exit = some b'.code.instrs.size → c.Holds s st →
    chain.select F symbols s.vars s.memory = some (body, m) →
    ∃ b₁ b₂ st₁, lowerStmt scope body b₁ = .ok () b₂ ∧ c.Part first last b₁.code b₂.code ∧
      c.Holds ⟨s.vars, m⟩ st₁ ∧ Moves F c first last (b.code.instrs.size, st) (b₁.code.instrs.size, st₁) ∧
      (b₁.code.Open b₂.code → ∀ st₂, Moves F c first last (b₂.code.instrs.size, st₂) (b'.code.instrs.size, st₂))
  | .done, b, b', u, st, s, body, m, h, hp, hexit, hst, hsel => by
    simp only [lowerChain] at h
    obtain ⟨-, rfl⟩ := LowerM.pure_eq_ok.mp h
    cases hsel
    exact ⟨b, b, st, by simp only [lowerStmt]; rfl, hp, hst, .refl _, fun _ _ => .refl _⟩
  | .otherwise els, b, b', u, st, s, body, m, h, hp, hexit, hst, hsel => by
    simp only [lowerChain] at h
    cases hsel
    exact ⟨b, b', st, h, hp, hst, .refl _, fun _ _ => .refl _⟩
  | .arm test arm rest, b, b', u, st, s, body, m, h, hp, hexit, hst, hsel => by
    obtain ⟨v, m₁, hv, hsel⟩ := Chain.select_arm hsel
    cases hrest : rest.isDone with
    | true =>
      obtain ⟨t, b₁, ht, harm⟩ := lowerChain_last hrest h
      rw [hsymbols] at ht
      have hg := adds_lowerStmt scope arm harm
      obtain ⟨st₁, hst₁, hmoves⟩ := branch_moves hc ht (hp.left hg) hexit hst hv
      rcases hsel with ⟨hzero, hsel⟩ | ⟨hne, rfl, rfl⟩
      · rw [if_pos hzero] at hmoves
        cases rest with
        | done =>
          cases hsel
          refine ⟨b', b', st₁, by simp only [lowerStmt]; rfl, hp.right ?_, hst₁, hmoves, fun _ _ => .refl _⟩
          exact adds_lowerChain scope exit _ h
        | otherwise els => cases hrest
        | arm test' arm' rest' => cases hrest
      · rw [if_neg hne, ← size_withInstr] at hmoves
        refine ⟨_, b', st₁, harm, hp.right ?_, hst₁, hmoves, fun _ _ => .refl _⟩
        exact (adds_lowerExpr symbols test ht).trans (Code.grows_addInstr _ _)
    | false =>
      obtain ⟨t, b₁, b₂, b₃, ht, harm, hb₃, hchain⟩ := lowerChain_arm hrest h
      rw [hsymbols] at ht
      have hg₀ : b.code.Grows b.withLabel.code := Code.grows_addOperand _ _
      have hg₁ := adds_lowerExpr symbols test ht
      have hgb := grows_withInstr b₁ .branch none (some t) (some b.code.operands.size) []
      have hg₂ := adds_lowerStmt scope arm harm
      have hg₃ : b₂.code.Grows b₃.code := by
        rw [hb₃]
        split
        · exact .refl _
        · exact Code.grows_addInstr _ _
      have hgl := grows_withInstr b₃ .label none (some b.code.operands.size) none []
      have hg₄ := adds_lowerChain scope exit rest hchain
      have hplabel := (hp.left hg₄).right (hg₀.trans (hg₁.trans (hgb.trans (hg₂.trans hg₃))))
      have hnext : c.labelAt? first last b.code.operands.size = some b₃.code.instrs.size :=
        hc.labelAt?_eq (Code.Part.fetch hplabel) rfl rfl
      obtain ⟨st₁, hst₁, hmoves⟩ := branch_moves hc ht
        ((hp.left (hg₂.trans (hg₃.trans (hgl.trans hg₄)))).right hg₀) hnext hst hv
      rcases hsel with ⟨hzero, hsel⟩ | ⟨hne, rfl, rfl⟩
      · rw [if_pos hzero] at hmoves
        obtain ⟨b₄, b₅, st₂, hbody, hpart, hst₂, hmoves', hend⟩ := lowerChain_selects hc hsymbols rest hchain
          (hp.right (hg₀.trans (hg₁.trans (hgb.trans (hg₂.trans (hg₃.trans hgl)))))) hexit hst₁ hsel
        exact ⟨b₄, b₅, st₂, hbody, hpart, hst₂, hmoves.trans ((moves_label hplabel st₁).trans hmoves'), hend⟩
      · rw [if_neg hne, ← size_withInstr] at hmoves
        refine ⟨_, b₂, st₁, harm, (hp.left (hg₃.trans (hgl.trans hg₄))).right (hg₀.trans (hg₁.trans hgb)), hst₁, hmoves,
          fun hopen st₂ => ?_⟩
        -- the jump is there, since a body that goes on to its end does not end in a transfer
        have hback : b₂.code.instrs.back?.any (·.isTransfer) = false := by
          refine (Code.Open.trans (c := b₁.code) (Code.open_addInstr _ _ (by simp [instr])) hopen hg₂).resolve_left ?_
          have := hg₂.size_instrs
          rw [size_withInstr] at this
          omega
        rw [hback, if_neg Bool.false_ne_true] at hb₃
        subst hb₃
        exact moves_jump ((hp.left (hgl.trans hg₄)).right (hg₀.trans (hg₁.trans (hgb.trans hg₂)))) hexit st₂

theorem lowerStmt_loop_init {init update body : Stmt} {test : Option Expr} {u : Unit}
    (h : lowerStmt scope (.loop init test update body) b = .ok u b') : ∃ b₁, lowerStmt scope init b = .ok () b₁ ∧
      lowerStmt scope (.loop .skip test update body) b₁ = .ok u b' := by
  simp only [lowerStmt, LowerM.bind_eq_ok] at h ⊢
  obtain ⟨_, b₁, hinit, hrest⟩ := h
  exact ⟨b₁, hinit, (), b₁, LowerM.pure_eq_ok.mpr ⟨rfl, rfl⟩, hrest⟩

/-- How the code of a loop without initialization is laid out from `b` to `b'`. -/
structure LoopLayout (F : Effects) (c : Code) (first last : Nat) (scope : Scope) (test : Option Expr)
    (update body : Stmt) (b b' : Builder) where
  /-- Behind the label of the start, the test, the body and the update. -/
  entered : Builder
  tested : Builder
  ended : Builder
  updated : Builder
  next : OperandId
  exit : OperandId
  test_eq : LowersTest scope.symbols exit entered test tested
  body_eq : lowerStmt { scope with loop := some ⟨next, exit⟩ } body tested = .ok () ended
  update_eq : lowerStmt scope update (ended.withInstr .label none (some next) none []) = .ok () updated
  testPart : c.Part first last entered.code tested.code
  bodyPart : c.Part first last tested.code ended.code
  updatePart : c.Part first last (ended.withInstr .label none (some next) none []).code updated.code
  next_at : c.labelAt? first last next = some ended.code.instrs.size
  exit_at : c.labelAt? first last exit = some (updated.code.instrs.size + 1)
  enters : ∀ st, Moves F c first last (b.code.instrs.size, st) (entered.code.instrs.size, st)
  continues : ∀ st, Moves F c first last (ended.code.instrs.size, st)
    ((ended.withInstr .label none (some next) none []).code.instrs.size, st)
  repeats : ∀ st, Moves F c first last (updated.code.instrs.size, st) (b.code.instrs.size, st)
  leaves : ∀ st, Moves F c first last (updated.code.instrs.size + 1, st) (b'.code.instrs.size, st)
  ends_open : b.code.Open b'.code

theorem LowersTest.grows {exit : OperandId} {test : Option Expr} (h : LowersTest symbols exit b test b') :
    b.code.Grows b'.code := by
  cases test with
  | none =>
    rw [show b' = b from h]
    exact .refl _
  | some test =>
    obtain ⟨t, b₁, ht, rfl⟩ := h
    exact (adds_lowerExpr symbols test ht).trans (Code.grows_addInstr _ _)

theorem loop_layout (F : Effects) (hc : c.Sound symbols) {update body : Stmt} {test : Option Expr} {u : Unit}
    (h : lowerStmt scope (.loop .skip test update body) b = .ok u b') (hp : c.Part first last b.code b'.code) :
    Nonempty (LoopLayout F c first last scope test update body b b') := by
  obtain ⟨b₁, b₂, b₃, b₄, b₅, start, next, exit, hskip, hstart, hnext, hexit, hb₂, htest, hbody, hupdate, rfl⟩ :=
    lowerStmt_loop h
  simp only [lowerStmt] at hskip
  obtain ⟨-, rfl⟩ := LowerM.pure_eq_ok.mp hskip
  have hlabels : b.code.Grows b.withLabel.withLabel.withLabel.code :=
    ((Code.grows_addOperand _ _).trans (Code.grows_addOperand _ _)).trans (Code.grows_addOperand _ _)
  have hg₂ : b.withLabel.withLabel.withLabel.code.Grows b₂.code := hb₂ ▸ Code.grows_addInstr _ _
  have hg₃ := htest.grows
  have hg₄ := adds_lowerStmt _ body hbody
  have hgn := grows_withInstr b₄ .label none (some next) none []
  have hg₅ := adds_lowerStmt scope update hupdate
  have hgj := grows_withInstr b₅ .jump none (some start) none []
  have hge := grows_withInstr (b₅.withInstr .jump none (some start) none [])
    .label none (some exit) none []
  -- the parts of the loop, from the last to the first
  have hp₂ := hp.right (hlabels.trans hg₂)
  have hp₃ := hp₂.right hg₃
  have hp₄ := hp₃.right hg₄
  have hpn := hp₄.right hgn
  have hp₅ := hpn.right hg₅
  have hpstart : c.Part first last b.withLabel.withLabel.withLabel.code b₂.code :=
    (hp.right hlabels).left (hg₃.trans (hg₄.trans (hgn.trans (hg₅.trans (hgj.trans hge)))))
  have hpnext := hp₄.left (hg₅.trans (hgj.trans hge))
  have hpjump := hp₅.left hge
  have hpexit := hp₅.right hgj
  subst hb₂
  have hstart_at := hc.labelAt?_eq (Code.Part.fetch hpstart) rfl rfl
  have hexit_at := hc.labelAt?_eq (Code.Part.fetch hpexit) rfl rfl
  rw [size_withInstr] at hexit_at
  have henters := fun st => moves_label (F := F) hpstart st
  refine ⟨⟨_, b₃, b₄, b₅, next, exit, htest, hbody, hupdate,
    hp₂.left (hg₄.trans (hgn.trans (hg₅.trans (hgj.trans hge)))),
    hp₃.left (hgn.trans (hg₅.trans (hgj.trans hge))), hpn.left (hgj.trans hge),
    hc.labelAt?_eq (Code.Part.fetch hpnext) rfl rfl, hexit_at, henters, moves_label hpnext,
    moves_jump hpjump hstart_at, fun st => ?_, Code.open_addInstr _ _ (by simp [instr])⟩⟩
  rw [← size_withInstr b₅ .jump none (some start) none []]
  exact moves_label hpexit st

theorem LowersTest.moves (hc : c.Sound symbols) {exit : OperandId} {test : Option Expr} {pos : Nat} {t : Bool}
    {m : Memory} (h : LowersTest symbols exit b test b') (hp : c.Part first last b.code b'.code)
    (hexit : c.labelAt? first last exit = some pos) (hst : c.Holds s st)
    (htest : Expr.passes F symbols s.vars test s.memory = some (t, m)) : ∃ st', c.Holds ⟨s.vars, m⟩ st' ∧
      Moves F c first last (b.code.instrs.size, st) (if t then b'.code.instrs.size else pos, st') := by
  cases test with
  | none =>
    cases htest
    rw [show b' = b from h]
    exact ⟨st, hst, .refl _⟩
  | some test =>
    obtain ⟨y, b₁, hy, rfl⟩ := h
    simp only [Expr.passes, Option.bind_eq_bind, Option.bind_eq_some_iff, Prod.exists, pure, Option.some.injEq,
      Prod.mk.injEq] at htest
    obtain ⟨v, _, hv, rfl, rfl⟩ := htest
    obtain ⟨st', hst', hmoves⟩ := branch_moves hc hy hp hexit hst hv
    refine ⟨st', hst', ?_⟩
    rw [size_withInstr]
    by_cases hzero : v = 0
    · simpa [hzero] using hmoves
    · simpa [hzero] using hmoves

namespace LoopLayout

variable {test : Option Expr} {update body : Stmt} (L : LoopLayout F c first last scope test update body b b')
include L

theorem placed (hscope : scope.Placed c first last) :
    Scope.Placed c first last { scope with loop := some ⟨L.next, L.exit⟩ } := by
  refine ⟨hscope.returnValue, fun labels hl => ?_⟩
  cases hl
  exact ⟨⟨_, L.next_at⟩, _, L.exit_at⟩

theorem starts (hc : c.Sound symbols) (hsymbols : scope.symbols = symbols) (hst : c.Holds s st) {t : Bool} {m : Memory}
    (htest : Expr.passes F symbols s.vars test s.memory = some (t, m)) : ∃ st', c.Holds ⟨s.vars, m⟩ st' ∧
      Moves F c first last (b.code.instrs.size, st)
        (if t then L.tested.code.instrs.size else L.updated.code.instrs.size + 1, st') := by
  obtain ⟨st', hst', hmoves⟩ := LowersTest.moves hc (hsymbols ▸ L.test_eq) L.testPart L.exit_at hst htest
  exact ⟨st', hst', (L.enters st).trans hmoves⟩

theorem updates {o : Outcome} {t : Store} (ho : o = .normal ∨ o = .next)
    (h : Scope.Performs F c first last { scope with loop := some ⟨L.next, L.exit⟩ } L.tested L.ended st o t) :
    ∃ st', c.Holds t st' ∧ Moves F c first last (L.tested.code.instrs.size, st)
      ((L.ended.withInstr .label none (some L.next) none []).code.instrs.size, st') := by
  obtain ⟨pc, st', hmoves, harr, hst', -⟩ := h
  have hpc : pc = L.ended.code.instrs.size := by
    rcases ho with rfl | rfl
    · exact harr
    · obtain ⟨labels, hl, hpc⟩ := harr
      cases hl
      rw [L.next_at] at hpc
      exact (Option.some.inj hpc).symm
  exact ⟨st', hst', hmoves.trans (hpc ▸ L.continues st')⟩

theorem ends {t : Store}
    (h : Scope.Performs F c first last { scope with loop := some ⟨L.next, L.exit⟩ } L.tested L.ended st .leave t) :
    ∃ st', c.Holds t st' ∧ Moves F c first last (L.tested.code.instrs.size, st) (b'.code.instrs.size, st') := by
  obtain ⟨pc, st', hmoves, ⟨labels, hl, hpc⟩, hst', -⟩ := h
  cases hl
  rw [L.exit_at] at hpc
  exact ⟨st', hst', hmoves.trans (Option.some.inj hpc ▸ L.leaves st')⟩

end LoopLayout

/-- Lowering preserves the meaning of statements. The induction is on the execution; at each of its steps the
code of the statement at hand is a part of the function. -/
theorem Exec.simulates (hc : c.Sound symbols) {p : Stmt} {s s' : Store} {o : Outcome} (h : Exec F symbols p s o s') :
    ∀ {scope : Scope} {b b' : Builder} {u : Unit} {st : Virtual}, lowerStmt scope p b = .ok u b' →
    scope.symbols = symbols → scope.Placed c first last → c.Part first last b.code b'.code → c.Holds s st →
    scope.Performs F c first last b b' st o s' := by
  induction h with
  | skip =>
    intro scope b b' u st hlower _ _ _ hst
    simp only [lowerStmt] at hlower
    obtain ⟨-, rfl⟩ := LowerM.pure_eq_ok.mp hlower
    exact Scope.performs_of_moves (.refl _) hst (Or.inl rfl)
  | declare =>
    intro scope b b' u st hlower _ _ _ hst
    simp only [lowerStmt] at hlower
    obtain ⟨-, rfl⟩ := LowerM.pure_eq_ok.mp hlower
    exact Scope.performs_of_moves (.refl _) hst (Or.inl rfl)
  | @seq first second s t u o hfirst hsecond ih₁ ih₂ =>
    intro scope b b' u st hlower hsymbols hscope hp hst
    obtain ⟨b₁, hb₁, hb'⟩ := lowerStmt_seq hlower
    have hg₁ := adds_lowerStmt scope _ hb₁
    have hg₂ := adds_lowerStmt scope _ hb'
    exact (ih₁ hb₁ hsymbols hscope (hp.left hg₂) hst).trans
      (fun st₁ hst₁ => ih₂ hb' hsymbols hscope (hp.right hg₁) hst₁) hg₂
  | seqStop hfirst ho ih =>
    intro scope b b' u st hlower hsymbols hscope hp hst
    obtain ⟨b₁, hb₁, hb'⟩ := lowerStmt_seq hlower
    exact (ih hb₁ hsymbols hscope (hp.left (adds_lowerStmt scope _ hb')) hst).stop ho
  | declareInit hv =>
    intro scope b b' u st hlower hsymbols hscope hp hst
    obtain ⟨y, b₁, t, hy, ht, hb'⟩ := lowerStmt_declare hlower
    exact assign_performs hc (hsymbols ▸ hy) hb' hp hst hv
  | assign hv =>
    intro scope b b' u st hlower hsymbols hscope hp hst
    obtain ⟨y, b₁, t, hy, ht, hb'⟩ := lowerStmt_assign hlower
    exact assign_performs hc (hsymbols ▸ hy) hb' hp hst hv
  | store hv hi ha =>
    intro scope b b' u st hlower hsymbols hscope hp hst
    exact store_performs hc hlower hsymbols hp hst hv hi ha
  | eval hv =>
    intro scope b b' u st hlower hsymbols hscope hp hst
    obtain ⟨y, hy⟩ := lowerStmt_eval hlower
    obtain ⟨st', hcomp, hst', -⟩ := hst.eval hc (hsymbols ▸ hy) hp hv
    exact Scope.performs_of_moves hcomp.moves hst' (lowerExpr_open hy)
  | @cond chain body s t m o hselect hbody ih =>
    intro scope b b' u st hlower hsymbols hscope hp hst
    obtain ⟨b₁, hchain, rfl⟩ := lowerStmt_cond hlower
    have hg₀ : b.code.Grows b.withLabel.code := Code.grows_addOperand _ _
    have hg₁ := adds_lowerChain scope _ _ hchain
    have hgl := grows_withInstr b₁ .label none (some b.code.operands.size) none []
    have hpexit := hp.right (hg₀.trans hg₁)
    obtain ⟨b₂, b₃, st₁, hlower', hp', hst₁, hmoves, hend⟩ := lowerChain_selects hc hsymbols _ hchain
      ((hp.left hgl).right hg₀) (hc.labelAt?_eq (Code.Part.fetch hpexit) rfl rfl) hst hselect
    obtain ⟨pc, st₂, hmoves', harr, hst₂, hopen⟩ := ih hlower' hsymbols hscope hp' hst₁
    by_cases ho : o = .normal
    · subst ho
      cases harr
      exact ⟨_, st₂, hmoves.trans (hmoves'.trans ((hend (hopen rfl) st₂).trans (moves_label hpexit st₂))), rfl, hst₂,
        fun _ => Code.open_addInstr _ _ (by simp [instr])⟩
    · exact ⟨pc, st₂, hmoves.trans hmoves', harr.of_ne ho, hst₂, fun h => absurd h ho⟩
  | loop hinit hloop ih₁ ih₂ =>
    intro scope b b' u st hlower hsymbols hscope hp hst
    obtain ⟨b₁, hb₁, hb'⟩ := lowerStmt_loop_init hlower
    have hg₁ := adds_lowerStmt scope _ hb₁
    have hg₂ := adds_lowerStmt scope _ hb'
    exact (ih₁ hb₁ hsymbols hscope (hp.left hg₂) hst).trans
      (fun st₁ hst₁ => ih₂ hb' hsymbols hscope (hp.right hg₁) hst₁) hg₂
  | loopStop hinit ho ih =>
    intro scope b b' u st hlower hsymbols hscope hp hst
    obtain ⟨b₁, hb₁, hb'⟩ := lowerStmt_loop_init hlower
    exact (ih hb₁ hsymbols hscope (hp.left (adds_lowerStmt scope _ hb')) hst).stop ho
  | loopDone htest =>
    intro scope b b' u st hlower hsymbols hscope hp hst
    obtain ⟨L⟩ := loop_layout F hc hlower hp
    obtain ⟨st₁, hst₁, hmoves⟩ := L.starts hc hsymbols hst htest
    exact Scope.performs_of_moves (hmoves.trans (L.leaves st₁)) hst₁ L.ends_open
  | loopLeave htest hbody ih =>
    intro scope b b' u st hlower hsymbols hscope hp hst
    obtain ⟨L⟩ := loop_layout F hc hlower hp
    obtain ⟨st₁, hst₁, hmoves₁⟩ := L.starts hc hsymbols hst htest
    obtain ⟨st₂, hst₂, hmoves₂⟩ := L.ends (ih L.body_eq hsymbols (L.placed hscope) L.bodyPart hst₁)
    exact Scope.performs_of_moves (hmoves₁.trans hmoves₂) hst₂ L.ends_open
  | loopReturn htest hbody ih =>
    intro scope b b' u st hlower hsymbols hscope hp hst
    obtain ⟨L⟩ := loop_layout F hc hlower hp
    obtain ⟨st₁, hst₁, hmoves₁⟩ := L.starts hc hsymbols hst htest
    obtain ⟨pc, st₂, hmoves₂, hret, hst₂, -⟩ := ih L.body_eq hsymbols (L.placed hscope) L.bodyPart hst₁
    exact ⟨pc, st₂, hmoves₁.trans hmoves₂, hret, hst₂, fun h => by cases h⟩
  | loopUpdateStop htest hbody ho hupdate ho' ih₁ ih₂ =>
    intro scope b b' u st hlower hsymbols hscope hp hst
    obtain ⟨L⟩ := loop_layout F hc hlower hp
    obtain ⟨st₁, hst₁, hmoves₁⟩ := L.starts hc hsymbols hst htest
    obtain ⟨st₂, hst₂, hmoves₂⟩ := L.updates ho (ih₁ L.body_eq hsymbols (L.placed hscope) L.bodyPart hst₁)
    obtain ⟨pc, st₃, hmoves₃, harr, hst₃, -⟩ := ih₂ L.update_eq hsymbols hscope L.updatePart hst₂
    exact ⟨pc, st₃, hmoves₁.trans (hmoves₂.trans hmoves₃), harr.of_ne ho', hst₃, fun h => absurd h ho'⟩
  | loopAgain htest hbody ho hupdate hloop ih₁ ih₂ ih₃ =>
    intro scope b b' u st hlower hsymbols hscope hp hst
    obtain ⟨L⟩ := loop_layout F hc hlower hp
    obtain ⟨st₁, hst₁, hmoves₁⟩ := L.starts hc hsymbols hst htest
    obtain ⟨st₂, hst₂, hmoves₂⟩ := L.updates ho (ih₁ L.body_eq hsymbols (L.placed hscope) L.bodyPart hst₁)
    obtain ⟨_, st₃, hmoves₃, rfl, hst₃, -⟩ := ih₂ L.update_eq hsymbols hscope L.updatePart hst₂
    obtain ⟨pc, st₄, hmoves₄, harr, hst₄, hopen⟩ := ih₃ hlower hsymbols hscope hp hst₃
    have hround := hmoves₁.trans (hmoves₂.trans (hmoves₃.trans (L.repeats st₃)))
    exact ⟨pc, st₄, hround.trans hmoves₄, harr, hst₄, hopen⟩
  | leave =>
    intro scope b b' u st hlower hsymbols hscope hp hst
    obtain ⟨labels, hl, rfl⟩ := lowerStmt_leave hlower
    obtain ⟨pos, hpos⟩ := (hscope.labels labels hl).2
    exact ⟨pos, st, moves_jump hp hpos st, ⟨labels, hl, hpos⟩, hst, fun h => by cases h⟩
  | next =>
    intro scope b b' u st hlower hsymbols hscope hp hst
    obtain ⟨labels, hl, rfl⟩ := lowerStmt_next hlower
    obtain ⟨pos, hpos⟩ := (hscope.labels labels hl).1
    exact ⟨pos, st, moves_jump hp hpos st, ⟨labels, hl, hpos⟩, hst, fun h => by cases h⟩
  | ret =>
    intro scope b b' u st hlower hsymbols hscope hp hst
    obtain rfl := lowerStmt_ret_none hlower
    exact ⟨_, st, .refl _, step_ret hp.fetch rfl rfl, hst, fun h => by cases h⟩
  | retValue hv =>
    intro scope b b' u st hlower hsymbols hscope hp hst
    exact ret_performs hc hlower hsymbols hscope hp hst hv

end Stmt

end MiddleEnd
