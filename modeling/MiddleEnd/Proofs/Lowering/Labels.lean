import MiddleEnd.Proofs.Lowering.Extent
import MiddleEnd.Proofs.Lowering.Stepwise

/-! Every branch that lowering adds lands: on a label that was placed since, or on one that something around
what was lowered has yet to place. Each statement places the labels it makes, so that nothing is left to be
placed behind a whole function. -/

namespace MiddleEnd

open Builder

/-- A label is placed at position `start` or later. -/
def Code.PlacesSince (c : Code) (start : Nat) (y : OperandId) : Prop := ∃ k, start ≤ k ∧ c.places y k = true

/-- Code that was added to `c`, given that the labels of `outer` will be placed. -/
structure Code.Lands (outer : List OperandId) (c d : Code) : Prop where
  grows : c.Grows d
  target : ∀ i z, c.instrs.size ≤ i → d.instrs[i]? = some z → (z.op = .jump ∨ z.op = .branch) →
    ∃ y, z.target? = some y ∧ (y ∈ outer ∨ d.PlacesSince c.instrs.size y)
  label : ∀ y, c.operands.size ≤ y → d.operands.isLabel y = true → y ∈ outer ∨ d.PlacesSince c.instrs.size y
  placed : ∀ y k, c.instrs.size ≤ k → d.places y k = true → d.operands.isLabel y = true

namespace Code

theorem Grows.places {c d : Code} (h : c.Grows d) {y : OperandId} {k : Nat} (hp : c.places y k = true) :
    d.places y k = true := by
  obtain ⟨x, hx, hop⟩ := (places_iff c y k).mp hp
  exact (places_iff d y k).mpr ⟨x, h.instrs k x hx, hop⟩

theorem Grows.placesSince {c d : Code} (h : c.Grows d) {start first : Nat} (hle : first ≤ start) {y : OperandId}
    (hp : c.PlacesSince start y) : d.PlacesSince first y := by
  obtain ⟨k, hk, hp⟩ := hp
  exact ⟨k, by omega, h.places hp⟩

theorem Grows.isLabel {c d : Code} (h : c.Grows d) {y : OperandId} (hy : c.operands.isLabel y = true) :
    d.operands.isLabel y = true := by
  simp only [Arena.isLabel, Option.any_eq_true] at hy ⊢
  obtain ⟨o, ho, hl⟩ := hy
  exact ⟨o, h.operands y o ho, hl⟩

theorem Grows.isLabel_of_lt {c d : Code} (h : c.Grows d) {y : OperandId} (hlt : y < c.operands.size)
    (hy : d.operands.isLabel y = true) : c.operands.isLabel y = true := by
  obtain ⟨o, ho⟩ := Arena.exists_of_lt_size hlt
  rw [Arena.isLabel, h.operands y o ho] at hy
  rw [Arena.isLabel, ho]
  exact hy

theorem lt_of_isLabel {c : Code} {y : Nat} (h : c.operands.isLabel y = true) : y < c.operands.size := by
  simp only [Arena.isLabel, Option.any_eq_true] at h
  obtain ⟨o, ho, -⟩ := h
  exact Arena.lt_size_of_get? ho

namespace Lands

variable {outer : List OperandId} {c d e : Code}

theorem refl (outer : List OperandId) (c : Code) : c.Lands outer c := by
  refine ⟨.refl c, fun i z hi hz => ?_, fun y hy hl => ?_, fun y k hk hp => ?_⟩
  · rw [Array.getElem?_eq_none hi] at hz
    cases hz
  · exact absurd (lt_of_isLabel hl) (by omega)
  · obtain ⟨x, hx, -⟩ := (places_iff c y k).mp hp
    rw [Array.getElem?_eq_none hk] at hx
    cases hx

theorem trans (h : c.Lands outer d) (k : d.Lands outer e) : c.Lands outer e := by
  have hsize := h.grows.size_instrs
  refine ⟨h.grows.trans k.grows, fun i z hi hz hop => ?_, fun y hy hl => ?_, fun y i hi hp => ?_⟩
  · rcases Nat.lt_or_ge i d.instrs.size with hlt | hge
    · obtain ⟨y, hy, hto⟩ := h.target i z hi (k.grows.instr_of_lt hz hlt) hop
      exact ⟨y, hy, hto.imp_right (k.grows.placesSince (Nat.le_refl _))⟩
    · obtain ⟨y, hy, hto⟩ := k.target i z hge hz hop
      exact ⟨y, hy, hto.imp_right (Grows.placesSince (.refl e) hsize)⟩
  · rcases Nat.lt_or_ge y d.operands.size with hlt | hge
    · exact (h.label y hy (k.grows.isLabel_of_lt hlt hl)).imp_right (k.grows.placesSince (Nat.le_refl _))
    · exact (k.label y hge hl).imp_right (Grows.placesSince (.refl e) hsize)
  · rcases Nat.lt_or_ge i d.instrs.size with hlt | hge
    · obtain ⟨x, hx, hop⟩ := (places_iff e y i).mp hp
      have hx := k.grows.instr_of_lt hx hlt
      exact k.grows.isLabel (h.placed y i hi ((places_iff d y i).mpr ⟨x, hx, hop⟩))
    · exact k.placed y i hge hp

theorem mono (h : c.Lands outer d) {wider : List OperandId} (hsub : outer ⊆ wider) : c.Lands wider d := by
  refine ⟨h.grows, fun i z hi hz hop => ?_, fun y hy hl => (h.label y hy hl).imp_left (@hsub y), h.placed⟩
  obtain ⟨y, hy, hto⟩ := h.target i z hi hz hop
  exact ⟨y, hy, hto.imp_left (@hsub y)⟩

theorem close {y : OperandId} (h : c.Lands (y :: outer) d) (hy : d.PlacesSince c.instrs.size y) :
    c.Lands outer d := by
  have hdrop : ∀ x, (x ∈ y :: outer ∨ d.PlacesSince c.instrs.size x) → x ∈ outer ∨ d.PlacesSince c.instrs.size x := by
    rintro x (hx | hx)
    · rcases List.mem_cons.mp hx with rfl | hx
      · exact Or.inr hy
      · exact Or.inl hx
    · exact Or.inr hx
  refine ⟨h.grows, fun i z hi hz hop => ?_, fun x hx hl => hdrop x (h.label x hx hl), h.placed⟩
  obtain ⟨x, hx, hto⟩ := h.target i z hi hz hop
  exact ⟨x, hx, hdrop x hto⟩

theorem addOperand {o : Operand} (ho : o.isLabel = true → c.operands.size ∈ outer) :
    c.Lands outer (c.addOperand o) := by
  refine ⟨c.grows_addOperand o, fun i z hi hz => ?_, fun y hy hl => ?_, fun y k hk hp => ?_⟩
  · exact absurd (Array.getElem?_eq_some_iff.mp hz).1 (Nat.not_lt.mpr hi)
  · obtain rfl : y = c.operands.size := by
      have := lt_of_isLabel hl
      rw [size_addOperand] at this
      omega
    rw [Arena.isLabel, get?_addOperand, if_pos rfl] at hl
    exact Or.inl (ho (by simpa using hl))
  · obtain ⟨x, hx, -⟩ := (places_iff _ y k).mp hp
    exact absurd (Array.getElem?_eq_some_iff.mp hx).1 (Nat.not_lt.mpr hk)

theorem addSymbol (outer : List OperandId) (c : Code) (id : SymbolId) (s : Symbol) :
    c.Lands outer (c.addSymbol id s) := by
  have hgrows := c.grows_addSymbol id s
  refine ⟨hgrows, fun i z hi hz => ?_, fun y hy hl => ?_, fun y k hk hp => ?_⟩
  · exact absurd (Array.getElem?_eq_some_iff.mp hz).1 (Nat.not_lt.mpr hi)
  · exfalso
    obtain ⟨x, -, he⟩ | ⟨-, -, hget, -⟩ := c.operands.symbol_cases id s
    · rw [operands_addSymbol, he] at hl
      exact absurd (lt_of_isLabel hl) (by omega)
    · rw [operands_addSymbol, Arena.isLabel, hget] at hl
      split at hl
      · cases hl
      · exact absurd (lt_of_isLabel hl) (by omega)
  · obtain ⟨x, hx, -⟩ := (places_iff _ y k).mp hp
    exact absurd (Array.getElem?_eq_some_iff.mp hx).1 (Nat.not_lt.mpr hk)

theorem addInstr {z : Instr}
    (htarget : z.op = .jump ∨ z.op = .branch → ∃ y ∈ outer, z.target? = some y)
    (hlabel : z.op = .label → ∀ y, z.left = some y → c.operands.isLabel y = true) : c.Lands outer (c.addInstr z) := by
  have hlast : ∀ i x, c.instrs.size ≤ i → (c.addInstr z).instrs[i]? = some x → x = z := by
    intro i x hi hx
    rw [getElem?_addInstr] at hx
    split at hx
    · exact (Option.some.inj hx).symm
    · rw [Array.getElem?_eq_none hi] at hx
      cases hx
  refine ⟨c.grows_addInstr z, fun i x hi hx hop => ?_, fun y hy hl => ?_, fun y k hk hp => ?_⟩
  · obtain rfl := hlast i x hi hx
    obtain ⟨y, hy, hto⟩ := htarget hop
    exact ⟨y, hto, Or.inl hy⟩
  · exact absurd (lt_of_isLabel (c := c) hl) (by omega)
  · obtain ⟨x, hx, hop, hleft⟩ := (places_iff _ y k).mp hp
    obtain rfl := hlast k x hk hx
    exact hlabel hop y hleft

theorem straight (outer : List OperandId) (c : Code) {z : Instr} (hz : z.op.usesLabel = false) :
    c.Lands outer (c.addInstr z) := by
  refine addInstr (fun hop => ?_) fun hop => ?_
  · rcases hop with hop | hop <;> · rw [hop] at hz; cases hz
  · rw [hop] at hz
    cases hz

end Lands

theorem Phrasal.lands (outer : List OperandId) : Phrasal (Lands outer) :=
  Additive.phrasal {
    refl := .refl outer
    trans := .trans
    operand := fun c o ho => .addOperand fun h => by rw [ho] at h; cases h
    symbol := .addSymbol outer
    instr := fun c _ hz => .straight outer c hz }

end Code

open Code

section Builder

variable {outer : List OperandId} {b : Builder} {y : OperandId}

theorem lands_withLabel (hy : b.code.operands.size ∈ outer) : b.code.Lands outer b.withLabel.code :=
  .addOperand fun _ => hy

theorem lands_jump (hy : y ∈ outer) : b.code.Lands outer (b.withInstr .jump none (some y) none []).code :=
  .addInstr (fun _ => ⟨y, hy, rfl⟩) fun h => by cases h

theorem lands_branch (t : OperandId) (hy : y ∈ outer) :
    b.code.Lands outer (b.withInstr .branch none (some t) (some y) []).code :=
  .addInstr (fun _ => ⟨y, hy, rfl⟩) fun h => by cases h

theorem lands_place (outer : List OperandId) (hy : b.code.operands.isLabel y = true) :
    b.code.Lands outer (b.withInstr .label none (some y) none []).code := by
  refine .addInstr (fun h => by rcases h with h | h <;> cases h) fun _ x hx => ?_
  cases hx
  exact hy

theorem places_place (b : Builder) (y : OperandId) :
    (b.withInstr .label none (some y) none []).code.places y b.code.instrs.size = true :=
  places_addInstr.mpr (Or.inl ⟨rfl, rfl, rfl⟩)

theorem isLabel_withLabel (b : Builder) : b.withLabel.code.operands.isLabel b.code.operands.size = true := by
  rw [Arena.isLabel, withLabel, get?_addOperand_self]
  rfl

theorem lands_loopHead {start next exit : OperandId} {b' : Builder} (hstart : start = b.code.operands.size)
    (hnext : next = b.withLabel.code.operands.size) (hexit : exit = b.withLabel.withLabel.code.operands.size)
    (hb' : b' = b.withLabel.withLabel.withLabel.withInstr .label none (some start) none [])
    (houter : [start, next, exit] ⊆ outer) :
    b.code.Lands outer b'.code ∧ b'.code.places start b.code.instrs.size = true ∧
      b'.code.operands.isLabel next = true ∧ b'.code.operands.isLabel exit = true := by
  have h₁ : b.code.Lands outer b.withLabel.code := lands_withLabel (houter (by simp [hstart]))
  have h₂ : b.withLabel.code.Lands outer b.withLabel.withLabel.code := lands_withLabel (houter (by simp [hnext]))
  have h₃ : b.withLabel.withLabel.code.Lands outer b.withLabel.withLabel.withLabel.code :=
    lands_withLabel (houter (by simp [hexit]))
  have hlstart : b.withLabel.withLabel.withLabel.code.operands.isLabel start = true :=
    hstart ▸ (h₂.grows.trans h₃.grows).isLabel (isLabel_withLabel b)
  have h₄ := lands_place outer hlstart
  rw [hb']
  refine ⟨((h₁.trans h₂).trans h₃).trans h₄, places_place _ _, ?_, ?_⟩
  · exact hnext ▸ (h₃.trans h₄).grows.isLabel (isLabel_withLabel b.withLabel)
  · exact hexit ▸ h₄.grows.isLabel (isLabel_withLabel b.withLabel.withLabel)

end Builder

/-- The labels of the loop around, to which its body may go. -/
def Scope.labels (scope : Scope) : List OperandId := scope.loop.elim [] fun l => [l.update, l.exit]

theorem lowersTest_lands {symbols : SymbolTable} {outer : List OperandId} {exit : OperandId} {b b' : Builder}
    {test : Option Expr} (h : LowersTest symbols exit b test b') (hexit : exit ∈ outer) :
    b.code.Lands outer b'.code := by
  cases test with
  | none =>
    obtain rfl := h
    exact .refl _ _
  | some test =>
    obtain ⟨t, b₁, ht, rfl⟩ := h
    exact (makes_lowerExpr (.lands outer) symbols test ht).trans (lands_branch t hexit)

mutual
theorem lowerStmt_lands : ∀ (st : Stmt) {scope : Scope} {b : Builder} {u : Unit} {b' : Builder},
    lowerStmt scope st b = .ok u b' → b.code.Lands scope.labels b'.code
  | .skip, scope, b, u, b', h => by
    simp only [lowerStmt] at h
    obtain ⟨-, rfl⟩ := LowerM.pure_eq_ok.mp h
    exact .refl _ _
  | .seq first second, scope, b, u, b', h => by
    obtain ⟨b₁, h₁, h₂⟩ := lowerStmt_seq h
    exact (lowerStmt_lands first h₁).trans (lowerStmt_lands second h₂)
  | .declare id none, scope, b, u, b', h => by
    simp only [lowerStmt] at h
    obtain ⟨-, rfl⟩ := LowerM.pure_eq_ok.mp h
    exact .refl _ _
  | .declare id (some init), scope, b, u, b', h => by
    obtain ⟨v, b₁, s, hv, -, rfl⟩ := lowerStmt_declare h
    exact ((makes_lowerExpr (.lands _) _ init hv).trans (.addSymbol _ _ id s)).trans (.straight _ _ rfl)
  | .assign id value, scope, b, u, b', h => by
    obtain ⟨v, b₁, s, hv, -, rfl⟩ := lowerStmt_assign h
    exact ((makes_lowerExpr (.lands _) _ value hv).trans (.addSymbol _ _ id s)).trans (.straight _ _ rfl)
  | .store array pos value, scope, b, u, b', h => by
    obtain ⟨v, b₁, s, size, p, b₂, address, b₃, hv, -, -, hp, haddr, rfl⟩ := lowerStmt_store h
    have h₁ := makes_lowerExpr (.lands scope.labels) _ value hv
    have h₂ := makes_lowerExpr (.lands scope.labels) _ pos hp
    have h₃ := makes_lowerAddress (.lands scope.labels) _ array size p haddr
    exact ((h₁.trans h₂).trans h₃).trans (.straight _ _ rfl)
  | .eval expr, scope, b, u, b', h => by
    obtain ⟨o, ho⟩ := lowerStmt_eval h
    exact makes_lowerExpr (.lands _) _ expr ho
  | .cond chain, scope, b, u, b', h => by
    obtain ⟨b₁, hchain, rfl⟩ := lowerStmt_cond h
    have hlabel : b.code.Lands (b.code.operands.size :: scope.labels) b.withLabel.code := lands_withLabel (by simp)
    have hbody := hlabel.trans (lowerChain_lands chain hchain)
    have hexit := (lowerChain_lands chain hchain).grows.isLabel (isLabel_withLabel b)
    exact (hbody.trans (lands_place _ hexit)).close ⟨_, hbody.grows.size_instrs, places_place _ _⟩
  | .loop init test update body, scope, b, u, b', h => by
    obtain ⟨b₁, b₂, b₃, b₄, b₅, start, next, exit, hinit, hstart, hnext, hexit, hb₂, htest, hbody, hupdate, rfl⟩ :=
      lowerStmt_loop h
    refine (lowerStmt_lands init hinit).trans ?_
    obtain ⟨outer, houter⟩ : ∃ outer, outer = start :: next :: exit :: scope.labels := ⟨_, rfl⟩
    obtain ⟨h₂, hpstart, hlnext, hlexit⟩ : b₁.code.Lands outer b₂.code ∧ _ :=
      lands_loopHead hstart hnext hexit hb₂ (by simp [houter])
    have h₃ : b₂.code.Lands outer b₃.code := lowersTest_lands htest (by simp [houter])
    -- the body goes out of the loop by the labels that are still to be placed
    have h₄ : b₃.code.Lands outer b₄.code :=
      (lowerStmt_lands body hbody).mono (by rw [houter]; simp [Scope.labels])
    have h₂₄ := h₃.trans h₄
    have hplace := lands_place outer (h₂₄.grows.isLabel hlnext)
    have h₅ : (b₄.withInstr .label none (some next) none []).code.Lands outer b₅.code :=
      (lowerStmt_lands update hupdate).mono fun _ h => by simp [houter, h]
    have hjump : b₅.code.Lands outer (b₅.withInstr .jump none (some start) none []).code :=
      lands_jump (by simp [houter])
    have h₂₆ := ((h₂₄.trans hplace).trans h₅).trans hjump
    have hend := lands_place outer (h₂₆.grows.isLabel hlexit)
    have hall := (h₂.trans h₂₆).trans hend
    rw [houter] at hall
    have hg₄ := (h₂.trans h₂₄).grows.size_instrs
    refine (hall.close ⟨_, Nat.le_refl _, ?_⟩).close ⟨b₄.code.instrs.size, hg₄, ?_⟩ |>.close ⟨_, ?_, places_place _ _⟩
    · exact (h₂₆.trans hend).grows.places hpstart
    · exact ((h₅.trans hjump).trans hend).grows.places (places_place _ _)
    · exact (h₂.trans h₂₆).grows.size_instrs
  | .leave, scope, b, u, b', h => by
    obtain ⟨labels, hl, rfl⟩ := lowerStmt_leave h
    exact lands_jump (by simp [Scope.labels, hl])
  | .next, scope, b, u, b', h => by
    obtain ⟨labels, hl, rfl⟩ := lowerStmt_next h
    exact lands_jump (by simp [Scope.labels, hl])
  | .ret none, scope, b, u, b', h => by
    rw [lowerStmt_ret_none h]
    exact .straight _ _ rfl
  | .ret (some value), scope, b, u, b', h => by
    obtain ⟨f, v, b₁, -, hv, rfl⟩ := lowerStmt_ret h
    exact ((makes_lowerExpr (.lands _) _ value hv).trans (.straight _ _ rfl)).trans (.straight _ _ rfl)

theorem lowerChain_lands : ∀ (ch : Chain) {scope : Scope} {exit : OperandId} {b : Builder} {u : Unit} {b' : Builder},
    lowerChain scope exit ch b = .ok u b' → b.code.Lands (exit :: scope.labels) b'.code
  | .done, scope, exit, b, u, b', h => by
    simp only [lowerChain] at h
    obtain ⟨-, rfl⟩ := LowerM.pure_eq_ok.mp h
    exact .refl _ _
  | .otherwise body, scope, exit, b, u, b', h => by
    simp only [lowerChain] at h
    exact (lowerStmt_lands body h).mono (by simp)
  | .arm test body rest, scope, exit, b, u, b', h => by
    cases hdone : rest.isDone with
    | true =>
      obtain ⟨t, b₁, ht, hbody⟩ := lowerChain_last hdone h
      have h₁ := makes_lowerExpr (.lands (exit :: scope.labels)) _ test ht
      exact (h₁.trans (lands_branch t (by simp))).trans ((lowerStmt_lands body hbody).mono (by simp))
    | false =>
      obtain ⟨t, b₁, b₂, b₃, ht, hbody, hb₃, hrest⟩ := lowerChain_arm hdone h
      obtain ⟨outer, houter⟩ : ∃ outer, outer = b.code.operands.size :: exit :: scope.labels := ⟨_, rfl⟩
      have h₁ := makes_lowerExpr (.lands outer) _ test ht
      have h₂ := (h₁.trans (lands_branch t (by simp [houter]))).trans
        ((lowerStmt_lands body hbody).mono fun _ h => by simp [houter, h])
      have h₃ : b.withLabel.code.Lands outer b₃.code := by
        rw [hb₃]
        split
        · exact h₂
        · exact h₂.trans (lands_jump (by simp [houter]))
      have hlabel : b.code.Lands outer b.withLabel.code := lands_withLabel (by simp [houter])
      have h₄ := (hlabel.trans h₃).trans (lands_place _ (h₃.grows.isLabel (isLabel_withLabel b)))
      rw [houter] at h₄
      refine (h₄.close ⟨_, (hlabel.trans h₃).grows.size_instrs, places_place _ _⟩).trans ?_
      exact lowerChain_lands rest hrest
end

theorem lowerFunction_lands {symbols : SymbolTable} {id : SymbolId} {params : List SymbolId} {body : Stmt}
    {b b' : Builder} {u : Unit} (h : lowerFunction symbols id params body b = .ok u b') :
    b.code.Lands [] b'.code ∧ ∃ x, b'.code.instrs.back? = some x ∧ x.op = .ret := by
  obtain ⟨s, b₁, b₂, b₃, -, hb₁, hparams, hbody, hb'⟩ := lowerFunction_eq_ok h
  have h₁ : b.code.Lands [] b₁.code := by
    rw [hb₁]
    exact (Lands.addSymbol [] b.code id s).trans (.straight _ _ rfl)
  have h₂ := h₁.trans (makes_lowerParams (.lands []) symbols 0 params hparams)
  have h₃ := (h₂.trans (.addOperand fun h => by cases h)).trans (lowerStmt_lands body hbody)
  rw [hb']
  split
  case isTrue hret =>
    simp only [Option.any_eq_true, decide_eq_true_eq] at hret
    exact ⟨h₃, hret⟩
  case isFalse => exact ⟨h₃.trans (.straight _ _ rfl), _, Array.back?_push, rfl⟩

end MiddleEnd
