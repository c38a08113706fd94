import MiddleEnd.Proofs.Lowering.Inversion
import MiddleEnd.Proofs.Lowering.Steps

/-! Lowering is made of steps: first for each primitive of the builder, then by the form of what is
lowered. -/

namespace MiddleEnd

open Code

variable {sh : Share} {floor : Nat} {b b' : Builder}

theorem Code.Steps.trans {c d e : Code} (h : Steps sh floor c d) (k : Steps sh floor d e) : Steps sh floor c e :=
  Relation.ReflTransGen.trans h k

namespace Builder

theorem steps_withTemp (b : Builder) (tag : Tag) : Steps sh floor b.code (b.withTemp tag).code :=
  .single (.operand _ _ (Or.inl ⟨_, _, rfl⟩))

theorem steps_withInt (b : Builder) (v : Int64) : Steps sh floor b.code (b.withInt v).code :=
  .single (.operand _ _ (Or.inr (Or.inr ⟨_, rfl⟩)))

theorem steps_withLabel (b : Builder) : Steps sh floor b.code b.withLabel.code :=
  .single (.operand _ _ (Or.inr (Or.inl ⟨_, rfl⟩)))

theorem steps_withSymbol (b : Builder) {id : SymbolId} {s : Symbol} (hs : sh.symbols.get? id = some s)
    (hid : id ∈ sh.mentions) : Steps sh floor b.code (b.withSymbol id s).code :=
  .single (.symbol _ id s hs hid)

theorem get?_addOperand_self (c : Code) (o : Operand) : (c.addOperand o).operands.get? c.operands.size = some o :=
  (c.get?_addOperand o _).trans (if_pos rfl)

theorem has_addOperand {c : Code} (hc : sh.Ready c) {o : Operand} (ho : o.symbol? = none) :
    sh.Has (c.addOperand o).operands c.operands.size :=
  ⟨o, get?_addOperand_self c o, Or.inr ⟨ho, hc.base_le⟩⟩

theorem tagged_withTemp (hb : sh.Ready b.code) (tag : Tag) :
    sh.Tagged (b.withTemp tag).code.operands b.code.operands.size tag := by
  refine ⟨has_addOperand hb rfl, ?_⟩
  rw [Arena.tag?, withTemp, get?_addOperand_self]
  rfl

theorem plain_withInt (hb : sh.Ready b.code) (v : Int64) :
    sh.Plain (b.withInt v).code.operands b.code.operands.size := by
  refine ⟨has_addOperand hb rfl, fun tag ht => ?_⟩
  rw [Arena.tag?, withInt, get?_addOperand_self] at ht
  cases ht

theorem plain_withLabel (hb : sh.Ready b.code) : sh.Plain b.withLabel.code.operands b.code.operands.size := by
  refine ⟨has_addOperand hb rfl, fun tag ht => ?_⟩
  rw [Arena.tag?, withLabel, get?_addOperand_self] at ht
  cases ht

theorem get?_symbol {symbols : SymbolTable} (hb : b.code.Sound symbols) {id : SymbolId} {s : Symbol}
    (hs : symbols.get? id = some s) :
    (b.withSymbol id s).code.operands.get? (b.code.operands.symbol id s).1 = some (s.operand id) := by
  obtain ⟨y, hy, h⟩ | ⟨-, hfst, hget, -⟩ := b.code.operands.symbol_cases id s
  · obtain ⟨t, ht, hg⟩ := hb.fresh.interned id y hy
    rw [hs] at ht
    cases ht
    rw [withSymbol, addSymbol, h]
    exact hg
  · rw [hfst]
    exact (hget _).trans (if_pos rfl)

theorem plain_symbol (hb : sh.Ready b.code) {id : SymbolId} {s : Symbol} (hs : sh.symbols.get? id = some s)
    (hid : id ∈ sh.mentions) : sh.Plain (b.withSymbol id s).code.operands (b.code.operands.symbol id s).1 := by
  have hget := get?_symbol hb.sound hs
  refine ⟨⟨_, hget, Or.inl ⟨id, hid, rfl⟩⟩, fun tag ht => ?_⟩
  rw [Arena.tag?, hget] at ht
  cases ht

theorem fits_plain (sh : Share) {c : Code} {z : Instr} {pos : Nat} (hsilent : z.op.isSilent = true → z.result = none)
    (h : ∀ y ∈ z.mentions, sh.Plain c.operands y) : c.Fits pos z :=
  ⟨fun y hy => (h y hy).1.lt,
    fun y hy tag ht => c.mayRead_of_not_fixed pos z y ((h y (Instr.mem_mentions_of_source hy)).2 tag ht),
    fun y hy _ ht => z.op.maySet_of_not_fixed ((h y (Instr.mem_mentions_of_dest hy)).2 _ ht), hsilent⟩

variable {op : Opcode} {result left right : Option OperandId} {args : List OperandId}

theorem steps_withInstr (hop : op ≠ .header) (hlabel : op ≠ .label)
    (hfits : b.code.Fits b.code.instrs.size (b.instr op result left right args))
    (hhas : ∀ y ∈ (b.instr op result left right args).mentions, sh.Has b.code.operands y) :
    Steps sh floor b.code (b.withInstr op result left right args).code :=
  .single (.instr _ _ rfl hop hfits hhas fun h => absurd h hlabel)

theorem steps_plain (floor : Nat) (op : Opcode) (hop : op ≠ .header ∧ op ≠ .label)
    (hsilent : op.isSilent = true → result = none) (hresult : sh.PlainSlot b.code.operands result)
    (hleft : sh.PlainSlot b.code.operands left) (hright : sh.PlainSlot b.code.operands right) :
    Steps sh floor b.code (b.withInstr op result left right []).code := by
  have h : ∀ y ∈ (b.instr op result left right []).mentions, sh.Plain b.code.operands y := by
    intro y hy
    simp only [instr, Instr.mentions, List.append_nil, List.mem_append, Option.mem_toList] at hy
    rcases hy with (hy | hy) | hy
    · exact hresult y hy
    · exact hleft y hy
    · exact hright y hy
  exact steps_withInstr hop.1 hop.2 (fits_plain sh hsilent h) fun y hy => (h y hy).1

theorem steps_silent (floor : Nat) (op : Opcode) (hop : op ≠ .header ∧ op ≠ .label)
    (hleft : sh.PlainSlot b.code.operands left) (hright : sh.PlainSlot b.code.operands right) :
    Steps sh floor b.code (b.withInstr op none left right []).code :=
  steps_plain floor op hop (fun _ => rfl) (.empty _ _) hleft hright

theorem steps_place {y : Nat} (hy : sh.Plain b.code.operands y) (hfloor : floor ≤ y)
    (hfree : ∀ i, ¬ b.code.places y i) : Steps sh floor b.code (b.withInstr .label none (some y) none []).code := by
  have hall : ∀ x ∈ (b.instr .label none (some y) none []).mentions, sh.Plain b.code.operands x := by
    intro x hx
    obtain rfl : x = y := by simpa [instr, Instr.mentions] using hx
    exact hy
  refine .single (.instr _ _ rfl (by simp [instr]) (fits_plain sh (fun _ => rfl) hall) (fun x hx => (hall x hx).1)
    fun _ x hx => ?_)
  cases hx
  exact ⟨hfloor, hfree⟩

theorem instrs_withInstr (b : Builder) (op : Opcode) (result left right : Option OperandId) (args : List OperandId) :
    (b.withInstr op result left right args).code.instrs[b.code.instrs.size]? =
      some (b.instr op result left right args) :=
  (getElem?_withInstr ..).trans (if_pos rfl)

end Builder

open Builder

theorem steps_set (floor : Nat) {op : Opcode} {y v : OperandId} {tag : Tag} (hop : op = .assign ∨ ∃ k, op = .arg k)
    (htag : sh.Tagged b.code.operands y tag) (hset : op.MaySet tag) (hv : sh.Plain b.code.operands v) :
    Steps sh floor b.code (b.withInstr op (some y) (some v) none []).code := by
  have hhas : ∀ x ∈ (b.instr op (some y) (some v) none []).mentions, sh.Has b.code.operands x := by
    intro x hx
    obtain rfl | rfl : x = y ∨ x = v := by simpa [instr, Instr.mentions] using hx
    · exact htag.1
    · exact hv.1
  have hsource : (b.instr op (some y) (some v) none []).sources = [v] := by
    rcases hop with rfl | ⟨k, rfl⟩ <;> rfl
  have hdest : (b.instr op (some y) (some v) none []).dest? = some y := by
    rcases hop with rfl | ⟨k, rfl⟩ <;> rfl
  refine steps_withInstr (by grind) (by grind) ⟨fun x hx => (hhas x hx).lt, ?_, ?_, ?_⟩ hhas
  · intro x hx tag' ht
    obtain rfl : x = v := by rw [hsource] at hx; exact List.mem_singleton.mp hx
    exact Code.mayRead_of_not_fixed _ _ _ _ (hv.2 tag' ht)
  · intro x hx tag' ht
    obtain rfl : y = x := by rw [hdest] at hx; exact Option.some.inj hx
    rw [htag.2] at ht
    cases ht
    exact hset
  · rcases hop with rfl | ⟨k, rfl⟩ <;> exact Bool.noConfusion

theorem marshal_steps (floor : Nat) {pos : Nat} {values args : List OperandId} (h : marshal pos values b = .ok args b')
    (hb : sh.Ready b.code) (hvalues : ∀ v ∈ values, sh.Plain b.code.operands v) :
    Steps sh floor b.code b'.code ∧ b'.code.instrs.size = b.code.instrs.size + args.length ∧
      ∀ m y, args[m]? = some y → sh.Tagged b'.code.operands y (.arg (pos + m)) ∧
        ∃ x, b'.code.instrs[b.code.instrs.size + m]? = some x ∧ x.op = .arg (pos + m) ∧ x.result = some y := by
  induction values generalizing pos b args with
  | nil =>
    obtain ⟨rfl, rfl⟩ := marshal_nil h
    exact ⟨.refl, rfl, fun m y hy => by simp at hy⟩
  | cons value values ih =>
    obtain ⟨rest, rfl, hrest⟩ := marshal_cons h
    have htemp := tagged_withTemp hb (.arg pos)
    have hgrow := (b.steps_withTemp (.arg pos) : Steps sh floor _ _).grows
    have hvalue := (hvalues value (by simp)).mono hgrow
    have hstep : Steps sh floor b.code _ :=
      (b.steps_withTemp (.arg pos)).trans (steps_set floor (Or.inr ⟨pos, rfl⟩) htemp rfl hvalue)
    obtain ⟨hsteps, hsize, hargs⟩ := ih hrest (hstep.ready hb)
      (fun v hv => (hvalues v (List.mem_cons_of_mem _ hv)).mono hstep.grows)
    have hsize' : ((b.withTemp (.arg pos)).withInstr (.arg pos) (some b.code.operands.size) (some value) none
        []).code.instrs.size = b.code.instrs.size + 1 := size_addInstr _ _
    refine ⟨hstep.trans hsteps, by rw [hsize, hsize', List.length_cons]; omega, fun m y hy => ?_⟩
    cases m with
    | zero =>
      obtain rfl : b.code.operands.size = y := by simpa using hy
      refine ⟨(htemp.mono (c := (b.withTemp (.arg pos)).code) (grows_addInstr _ _)).mono hsteps.grows, _,
        hsteps.grows.instrs _ _ (instrs_withInstr _ _ _ _ _ _), rfl, rfl⟩
    | succ m =>
      obtain ⟨ht, x, hx, hop, hres⟩ := hargs m y (by simpa using hy)
      rw [hsize', Nat.add_right_comm] at hx
      rw [Nat.add_right_comm] at ht hop
      exact ⟨ht, x, hx, hop, hres⟩

theorem steps_call {s : Nat} {result : Option OperandId} {target : OperandId} {args : List OperandId}
    (hresult : ∀ r, result = some r → sh.Tagged b.code.operands r .callResult)
    (htarget : sh.Plain b.code.operands target) (hsize : b.code.instrs.size = s + args.length)
    (hargs : ∀ m y, args[m]? = some y → sh.Tagged b.code.operands y (.arg m) ∧
      ∃ x, b.code.instrs[s + m]? = some x ∧ x.op = .arg m ∧ x.result = some y) :
    Steps sh floor b.code (b.withInstr .call result (some target) none args).code := by
  have hhas : ∀ y ∈ (b.instr .call result (some target) none args).mentions, sh.Has b.code.operands y := by
    intro y hy
    simp only [instr, Instr.mentions, Option.toList_some, Option.toList_none, List.append_nil, List.mem_append,
      List.mem_singleton, Option.mem_toList] at hy
    rcases hy with (hy | rfl) | hy
    · exact (hresult y hy).1
    · exact htarget.1
    · obtain ⟨m, hm⟩ := List.mem_iff_getElem?.mp hy
      exact (hargs m y hm).1.1
  refine steps_withInstr (by simp) (by simp) ⟨fun y hy => (hhas y hy).lt, ?_, ?_, Bool.noConfusion⟩ hhas
  · intro y hy tag ht
    simp only [instr, Instr.sources, Option.toList_some, Option.toList_none, List.append_nil, List.mem_append,
      List.mem_singleton] at hy
    rcases hy with rfl | hy
    · exact Code.mayRead_of_not_fixed _ _ _ _ (htarget.2 tag ht)
    · obtain ⟨m, hm⟩ := List.mem_iff_getElem?.mp hy
      rw [(hargs m y hm).1.2] at ht
      cases ht
      refine ⟨s, hsize, rfl, hm, fun k hk => ?_⟩
      obtain ⟨-, x, hx, hop, hres⟩ := hargs k _ (List.getElem?_eq_getElem hk)
      exact ⟨x, hx, hop, hres.trans (List.getElem?_eq_getElem hk).symm⟩
  · intro y hy tag ht
    rw [(hresult y hy).2] at ht
    cases ht
    rfl

theorem steps_read {op : Opcode} {result : Option OperandId} {y : OperandId} {tag : Tag}
    (hop : op = .assign ∨ op = .ret) (htag : sh.Tagged b.code.operands y tag)
    (hmay : ∀ z : Instr, z.op = op → b.code.MayRead b.code.instrs.size z y tag)
    (hresult : sh.PlainSlot b.code.operands result) :
    Steps sh floor b.code (b.withInstr op result (some y) none []).code := by
  have hhas : ∀ v ∈ (b.instr op result (some y) none []).mentions, sh.Has b.code.operands v := by
    intro v hv
    simp only [instr, Instr.mentions, Option.toList_some, Option.toList_none, List.append_nil, List.mem_append,
      List.mem_singleton, Option.mem_toList] at hv
    rcases hv with hv | rfl
    · exact (hresult v hv).1
    · exact htag.1
  have hsource : (b.instr op result (some y) none []).sources = [y] := by rcases hop with rfl | rfl <;> rfl
  have hdest : (b.instr op result (some y) none []).dest? = result := by rcases hop with rfl | rfl <;> rfl
  refine steps_withInstr (by grind) (by grind) ⟨fun v hv => (hhas v hv).lt, ?_, ?_, ?_⟩ hhas
  · intro v hv tag' ht
    obtain rfl : v = y := by rw [hsource] at hv; exact List.mem_singleton.mp hv
    rw [htag.2] at ht
    cases ht
    exact hmay _ rfl
  · intro v hv tag' ht
    exact Opcode.maySet_of_not_fixed _ ((hresult v (hdest ▸ hv)).2 tag' ht)
  · rcases hop with rfl | rfl <;> exact Bool.noConfusion

theorem lowerCall_steps (floor : Nat) {callee : SymbolId} {values : List OperandId} {ty : Ty} {o : Option OperandId}
    (h : lowerCall sh.symbols callee values ty b = .ok o b') (hcallee : callee ∈ sh.mentions) (hb : sh.Ready b.code)
    (hvalues : ∀ v ∈ values, sh.Plain b.code.operands v) :
    Steps sh floor b.code b'.code ∧ sh.PlainSlot b'.code.operands o := by
  by_cases hty : ty = .void
  · obtain ⟨args, b₁, s, hargs, hs, rfl, hb'⟩ := lowerCall_void hty h
    obtain ⟨hsteps, hsize, hmarshal⟩ := marshal_steps floor hargs hb hvalues
    simp only [Nat.zero_add] at hmarshal
    have hb₁ := hsteps.ready hb
    have hsym : Steps sh floor _ _ := b₁.steps_withSymbol hs hcallee
    rw [hb']
    refine ⟨hsteps.trans (hsym.trans (steps_call (by simp) (plain_symbol hb₁ hs hcallee) hsize ?_)), .empty _ _⟩
    intro m y hy
    obtain ⟨ht, x, hx, hop, hres⟩ := hmarshal m y hy
    exact ⟨ht.mono hsym.grows, x, hsym.grows.instrs _ _ hx, hop, hres⟩
  · obtain ⟨args, b₁, s, b₂, b₃, hargs, hs, hb₂, hb₃, rfl, hb'⟩ := lowerCall_value hty h
    obtain ⟨hsteps, hsize, hmarshal⟩ := marshal_steps floor hargs hb hvalues
    simp only [Nat.zero_add] at hmarshal
    have hready₁ := hsteps.ready hb
    have hsym : Steps sh floor b₁.code b₂.code := hb₂ ▸ b₁.steps_withSymbol hs hcallee
    have hready₂ := hsym.ready hready₁
    have htemp : Steps sh floor b₂.code (b₂.withTemp .callResult).code := b₂.steps_withTemp _
    have hreturned := tagged_withTemp hready₂ .callResult
    have htarget : sh.Plain b₂.code.operands (b₁.code.operands.symbol callee s).1 :=
      hb₂ ▸ plain_symbol hready₁ hs hcallee
    have hcall : Steps sh floor (b₂.withTemp .callResult).code b₃.code := by
      rw [hb₃]
      refine steps_call (s := b.code.instrs.size) ?_ (htarget.mono htemp.grows) (hb₂ ▸ hsize) ?_
      · intro r hr
        cases hr
        exact hreturned
      · intro m y hy
        obtain ⟨ht, x, hx, hop, hres⟩ := hmarshal m y hy
        exact ⟨(ht.mono hsym.grows).mono htemp.grows, x, htemp.grows.instrs _ _ (hsym.grows.instrs _ _ hx), hop, hres⟩
    have hready₃ := hcall.ready (htemp.ready hready₂)
    have hcopy := tagged_withTemp hready₃ .copy
    have htemp' : Steps sh floor b₃.code (b₃.withTemp .copy).code := b₃.steps_withTemp _
    have hassign : Steps sh floor (b₃.withTemp .copy).code b'.code := by
      rw [hb']
      refine steps_read (Or.inl rfl) ((hreturned.mono hcall.grows).mono htemp'.grows) (fun _ h => ⟨h, ?_⟩) ?_
      · exact ⟨b₂.code.instrs.size, _, hb₃ ▸ size_addInstr _ _, hb₃ ▸ instrs_withInstr _ _ _ _ _ _, rfl, rfl⟩
      · exact (hcopy.plain rfl).slot
    exact ⟨hsteps.trans (hsym.trans (htemp.trans (hcall.trans (htemp'.trans hassign)))),
      ((hcopy.plain rfl).mono hassign.grows).slot⟩

theorem lowerAddress_steps (floor : Nat) {array : SymbolId} {size : Nat} {pos address : OperandId}
    (h : lowerAddress sh.symbols array size pos b = .ok address b') (harray : array ∈ sh.mentions)
    (hb : sh.Ready b.code) (hpos : sh.Plain b.code.operands pos) :
    Steps sh floor b.code b'.code ∧ sh.Plain b'.code.operands address := by
  obtain ⟨s, b₁, b₂, hs, hb₁, hb₂, rfl, rfl⟩ := lowerAddress_eq_ok h
  have hint : Steps sh floor b.code (b.withInt (Int64.ofNat size)).code := b.steps_withInt _
  have hready := hint.ready hb
  have htemp : Steps sh floor _ _ := (b.withInt (Int64.ofNat size)).steps_withTemp .offset
  have hoffset := (tagged_withTemp hready .offset).plain rfl
  have hscale := (plain_withInt hb (Int64.ofNat size)).mono htemp.grows
  have hmul : Steps sh floor _ b₁.code := hb₁ ▸ steps_plain floor (.binary (.arith .mul)) (by simp) Bool.noConfusion
    hoffset.slot ((hpos.mono hint.grows).mono htemp.grows).slot hscale.slot
  have hready₁ := hmul.ready (htemp.ready hready)
  have hsym : Steps sh floor b₁.code b₂.code := hb₂ ▸ b₁.steps_withSymbol hs harray
  have hbase : sh.Plain b₂.code.operands _ := hb₂ ▸ plain_symbol hready₁ hs harray
  have hready₂ := hsym.ready hready₁
  have htemp' : Steps sh floor b₂.code _ := b₂.steps_withTemp .address
  have haddress := (tagged_withTemp hready₂ .address).plain rfl
  have hemit := steps_plain floor .address (by simp) Bool.noConfusion haddress.slot (hbase.mono htemp'.grows).slot
    (((hoffset.mono hmul.grows).mono hsym.grows).mono htemp'.grows).slot
  exact ⟨hint.trans (htemp.trans (hmul.trans (hsym.trans (htemp'.trans hemit)))), haddress.mono hemit.grows⟩

mutual
theorem lowerExpr_steps (floor : Nat) : ∀ (e : Expr) {b : Builder} {o : Option OperandId} {b' : Builder},
    lowerExpr sh.symbols e b = .ok o b' → e.mentions ⊆ sh.mentions → sh.Ready b.code →
      Steps sh floor b.code b'.code ∧ sh.PlainSlot b'.code.operands o
  | .literal lit ty, b, o, b', h, _, hb => by
    obtain ⟨rfl, rfl⟩ := lowerExpr_literal h
    exact ⟨b.steps_withInt _, (plain_withInt hb _).slot⟩
  | .name id ty, b, o, b', h, hm, hb => by
    obtain ⟨s, hs, rfl, rfl⟩ := lowerExpr_name h
    have hid : id ∈ sh.mentions := hm (by simp [Expr.mentions])
    exact ⟨b.steps_withSymbol hs hid, (plain_symbol hb hs hid).slot⟩
  | .binary op lhs rhs ty, b, o, b', h, hm, hb => by
    obtain ⟨l, b₁, r, b₂, hl, hr, rfl, rfl⟩ := lowerExpr_binary h
    rw [Expr.mentions, List.append_subset] at hm
    obtain ⟨hs₁, hl⟩ := lowerExpr_steps floor lhs hl hm.1 hb
    have hb₁ := hs₁.ready hb
    obtain ⟨hs₂, hr⟩ := lowerExpr_steps floor rhs hr hm.2 hb₁
    have htemp : Steps sh floor b₂.code _ := b₂.steps_withTemp (.binary op)
    have hresult := (tagged_withTemp (hs₂.ready hb₁) (.binary op)).plain rfl
    have hemit := steps_plain floor (.binary op) (by simp) Bool.noConfusion hresult.slot
      (((hl l rfl).mono hs₂.grows).mono htemp.grows).slot ((hr r rfl).mono htemp.grows).slot
    exact ⟨hs₁.trans (hs₂.trans (htemp.trans hemit)), (hresult.mono hemit.grows).slot⟩
  | .unary op arg ty, b, o, b', h, hm, hb => by
    obtain ⟨a, b₁, ha, rfl, rfl⟩ := lowerExpr_unary h
    rw [Expr.mentions] at hm
    obtain ⟨hs₁, ha⟩ := lowerExpr_steps floor arg ha hm hb
    have htemp : Steps sh floor b₁.code _ := b₁.steps_withTemp (.unary op)
    have hresult := (tagged_withTemp (hs₁.ready hb) (.unary op)).plain rfl
    have hemit := steps_plain floor (.unary op) (by simp) Bool.noConfusion hresult.slot
      ((ha a rfl).mono htemp.grows).slot (.empty _ _)
    exact ⟨hs₁.trans (htemp.trans hemit), (hresult.mono hemit.grows).slot⟩
  | .call callee args ty, b, o, b', h, hm, hb => by
    obtain ⟨values, b₁, hargs, hcall⟩ := lowerExpr_call h
    rw [Expr.mentions, List.cons_subset] at hm
    obtain ⟨hs₁, hvalues⟩ := lowerArgs_steps floor args hargs hm.2 hb
    obtain ⟨hs₂, ho⟩ := lowerCall_steps floor hcall hm.1 (hs₁.ready hb) hvalues
    exact ⟨hs₁.trans hs₂, ho⟩
  | .index array pos ty, b, o, b', h, hm, hb => by
    obtain ⟨s, size, p, b₁, address, b₂, hs, hsize, hp, haddr, rfl, rfl⟩ := lowerExpr_index h
    rw [Expr.mentions, List.cons_subset] at hm
    obtain ⟨hs₁, hp⟩ := lowerExpr_steps floor pos hp hm.2 hb
    have hb₁ := hs₁.ready hb
    obtain ⟨hs₂, haddr⟩ := lowerAddress_steps floor haddr hm.1 hb₁ (hp p rfl)
    have htemp : Steps sh floor b₂.code _ := b₂.steps_withTemp .load
    have hresult := (tagged_withTemp (hs₂.ready hb₁) .load).plain rfl
    have hemit := steps_plain floor .load (by simp) Bool.noConfusion hresult.slot (haddr.mono htemp.grows).slot
      (.empty _ _)
    exact ⟨hs₁.trans (hs₂.trans (htemp.trans hemit)), (hresult.mono hemit.grows).slot⟩

theorem lowerArgs_steps (floor : Nat) : ∀ (es : List Expr) {b : Builder} {values : List OperandId} {b' : Builder},
    lowerArgs sh.symbols es b = .ok values b' → Expr.mentionsAll es ⊆ sh.mentions → sh.Ready b.code →
      Steps sh floor b.code b'.code ∧ ∀ v ∈ values, sh.Plain b'.code.operands v
  | [], b, values, b', h, _, _ => by
    obtain ⟨rfl, rfl⟩ := lowerArgs_nil h
    exact ⟨.refl, by simp⟩
  | e :: es, b, values, b', h, hm, hb => by
    obtain ⟨v, b₁, vs, rfl, hv, hvs⟩ := lowerArgs_cons h
    rw [Expr.mentionsAll, List.append_subset] at hm
    obtain ⟨hs₁, hv⟩ := lowerExpr_steps floor e hv hm.1 hb
    obtain ⟨hs₂, hvs⟩ := lowerArgs_steps floor es hvs hm.2 (hs₁.ready hb)
    refine ⟨hs₁.trans hs₂, fun x hx => ?_⟩
    rcases List.mem_cons.mp hx with rfl | hx
    · exact (hv x rfl).mono hs₂.grows
    · exact hvs x hx
end

/-- What the statements of the function share is the function's own. -/
structure Share.Fits (sh : Share) (scope : Scope) (c : Code) : Prop where
  symbols : scope.symbols = sh.symbols
  returnValue : ∀ f, scope.function = some f → sh.Tagged c.operands f.returnValue .returnValue
  loop : ∀ labels, scope.loop = some labels → sh.Plain c.operands labels.update ∧ sh.Plain c.operands labels.exit

theorem Share.Fits.mono {scope : Scope} {c d : Code} (h : sh.Fits scope c) (hg : c.Grows d) : sh.Fits scope d :=
  ⟨h.symbols, fun f hf => (h.returnValue f hf).mono hg,
    fun labels hl => ⟨(h.loop labels hl).1.mono hg, (h.loop labels hl).2.mono hg⟩⟩

theorem Code.Steps.not_places {c d : Code} (h : Steps sh floor c d) {y : Nat} (hy : y < floor)
    (hfree : ∀ i, ¬ c.places y i) : ∀ i, ¬ d.places y i := by
  intro i hi
  rcases h.places hi with hp | hle
  · exact hfree i hp
  · exact absurd hy (Nat.not_lt.mpr hle)

theorem Code.Sound.not_places {symbols : SymbolTable} {c : Code} (h : c.Sound symbols) {y : Nat}
    (hy : c.operands.size ≤ y) : ∀ i, ¬ c.places y i :=
  fun _ hi => absurd (h.lt_of_places hi) (Nat.not_lt.mpr hy)

theorem not_places_withInstr {op : Opcode} {result left right : Option OperandId} {y : Nat}
    (hy : op ≠ .label ∨ left ≠ some y) (hfree : ∀ i, ¬ b.code.places y i) :
    ∀ i, ¬ (b.withInstr op result left right []).code.places y i := by
  intro i hi
  rcases places_addInstr.mp hi with ⟨-, hop, hl⟩ | hi
  · exact hy.elim (absurd hop) (absurd hl)
  · exact hfree i hi

theorem labels_steps (hb : sh.Ready b.code) {d : Builder} (hd : d = b.withLabel.withLabel.withLabel) :
    (∀ floor, Steps sh floor b.code d.code) ∧ sh.Plain d.code.operands b.code.operands.size ∧
      sh.Plain d.code.operands b.withLabel.code.operands.size ∧
      sh.Plain d.code.operands b.withLabel.withLabel.code.operands.size ∧
      b.withLabel.code.operands.size = b.code.operands.size + 1 ∧
      b.withLabel.withLabel.code.operands.size = b.code.operands.size + 2 ∧
      d.code.operands.size = b.code.operands.size + 3 := by
  have h₁ : ∀ floor, Steps sh floor b.code b.withLabel.code := fun _ => b.steps_withLabel
  have h₂ : ∀ floor, Steps sh floor b.withLabel.code b.withLabel.withLabel.code := fun _ => steps_withLabel _
  have h₃ : ∀ floor, Steps sh floor b.withLabel.withLabel.code d.code := fun _ => hd ▸ steps_withLabel _
  have hb₁ := (h₁ 0).ready hb
  have hb₂ := (h₂ 0).ready hb₁
  have hsize : ∀ b : Builder, b.withLabel.code.operands.size = b.code.operands.size + 1 :=
    fun b => size_addOperand b.code _
  refine ⟨fun floor => (h₁ floor).trans ((h₂ floor).trans (h₃ floor)),
    ((plain_withLabel hb).mono (h₂ 0).grows).mono (h₃ 0).grows, (plain_withLabel hb₁).mono (h₃ 0).grows,
    hd ▸ plain_withLabel hb₂, hsize b, ?_, ?_⟩
  · rw [hsize, hsize]
  · rw [hd, hsize, hsize, hsize]

theorem lowersTest_steps (floor : Nat) {exit : OperandId} {test : Option Expr}
    (h : LowersTest sh.symbols exit b test b') (hm : test.elim [] Expr.mentions ⊆ sh.mentions) (hb : sh.Ready b.code)
    (hexit : sh.Plain b.code.operands exit) : Steps sh floor b.code b'.code := by
  cases test with
  | none =>
    obtain rfl := h
    exact .refl
  | some test =>
    obtain ⟨t, b₁, ht, rfl⟩ := h
    obtain ⟨hs, ht⟩ := lowerExpr_steps floor test ht hm hb
    exact hs.trans (steps_silent floor .branch (by simp) ht (hexit.mono hs.grows).slot)

theorem assign_steps (floor : Nat) {id : SymbolId} {s : Symbol} {value : Expr} {v : OperandId} {b₁ : Builder}
    (hv : lowerExpr sh.symbols value b = .ok (some v) b₁) (hs : sh.symbols.get? id = some s)
    (hid : id ∈ sh.mentions) (hm : value.mentions ⊆ sh.mentions) (hb : sh.Ready b.code) :
    Steps sh floor b.code ((b₁.withSymbol id s).withInstr .assign (some (b₁.code.operands.symbol id s).1)
      (some v) none []).code := by
  obtain ⟨hs₁, hv⟩ := lowerExpr_steps floor value hv hm hb
  have hsym : Steps sh floor b₁.code _ := b₁.steps_withSymbol hs hid
  exact hs₁.trans (hsym.trans (steps_plain floor .assign (by simp) Bool.noConfusion
    (plain_symbol (hs₁.ready hb) hs hid).slot ((hv v rfl).mono hsym.grows).slot (.empty _ _)))

mutual
theorem lowerStmt_steps : ∀ (st : Stmt) (floor : Nat) {scope : Scope} {b : Builder} {u : Unit} {b' : Builder},
    lowerStmt scope st b = .ok u b' → st.mentions ⊆ sh.mentions → sh.Ready b.code → sh.Fits scope b.code →
      floor ≤ b.code.operands.size → Steps sh floor b.code b'.code
  | .skip, floor, scope, b, u, b', h, _, _, _, _ => by
    simp only [lowerStmt] at h
    obtain ⟨-, rfl⟩ := LowerM.pure_eq_ok.mp h
    exact .refl
  | .seq first second, floor, scope, b, u, b', h, hm, hb, hscope, hfloor => by
    obtain ⟨b₁, h₁, h₂⟩ := lowerStmt_seq h
    rw [Stmt.mentions, List.append_subset] at hm
    have hs₁ := lowerStmt_steps first floor h₁ hm.1 hb hscope hfloor
    exact hs₁.trans (lowerStmt_steps second floor h₂ hm.2 (hs₁.ready hb) (hscope.mono hs₁.grows)
      (Nat.le_trans hfloor hs₁.grows.size_operands))
  | .declare id none, floor, scope, b, u, b', h, _, _, _, _ => by
    simp only [lowerStmt] at h
    obtain ⟨-, rfl⟩ := LowerM.pure_eq_ok.mp h
    exact .refl
  | .declare id (some init), floor, scope, b, u, b', h, hm, hb, hscope, _ => by
    obtain ⟨v, b₁, s, hv, hs, rfl⟩ := lowerStmt_declare h
    rw [hscope.symbols] at hv hs
    rw [Stmt.mentions, List.cons_subset] at hm
    exact assign_steps floor hv hs hm.1 hm.2 hb
  | .assign id value, floor, scope, b, u, b', h, hm, hb, hscope, _ => by
    obtain ⟨v, b₁, s, hv, hs, rfl⟩ := lowerStmt_assign h
    rw [hscope.symbols] at hv hs
    rw [Stmt.mentions, List.cons_subset] at hm
    exact assign_steps floor hv hs hm.1 hm.2 hb
  | .store array pos value, floor, scope, b, u, b', h, hm, hb, hscope, _ => by
    obtain ⟨v, b₁, s, size, p, b₂, address, b₃, hv, hs, -, hp, haddr, rfl⟩ := lowerStmt_store h
    rw [hscope.symbols] at hv hp haddr
    rw [Stmt.mentions, List.append_subset, List.cons_subset] at hm
    obtain ⟨hs₁, hv⟩ := lowerExpr_steps floor value hv hm.2 hb
    have hb₁ := hs₁.ready hb
    obtain ⟨hs₂, hp⟩ := lowerExpr_steps floor pos hp hm.1.2 hb₁
    obtain ⟨hs₃, haddr⟩ := lowerAddress_steps floor haddr hm.1.1 (hs₂.ready hb₁) (hp p rfl)
    exact hs₁.trans (hs₂.trans (hs₃.trans (steps_silent floor .store (by simp) haddr.slot
      (((hv v rfl).mono hs₂.grows).mono hs₃.grows).slot)))
  | .eval expr, floor, scope, b, u, b', h, hm, hb, hscope, _ => by
    obtain ⟨o, ho⟩ := lowerStmt_eval h
    rw [hscope.symbols] at ho
    exact (lowerExpr_steps floor expr ho hm hb).1
  | .cond chain, floor, scope, b, u, b', h, hm, hb, hscope, hfloor => by
    obtain ⟨b₁, hchain, rfl⟩ := lowerStmt_cond h
    have hlabel : Steps sh floor b.code _ := b.steps_withLabel
    have hexit := plain_withLabel hb
    have hs := lowerChain_steps chain _ hchain hm (hlabel.ready hb) (hscope.mono hlabel.grows) hexit (Nat.le_refl _)
    have hsize : b.withLabel.code.operands.size = b.code.operands.size + 1 := size_addOperand _ _
    refine hlabel.trans ((hs.mono (by omega)).trans (steps_place (hexit.mono hs.grows) hfloor ?_))
    exact hs.not_places (hsize ▸ Nat.lt_succ_self _) (hb.sound.not_places (Nat.le_refl _))
  | .loop init test update body, floor, scope, b, u, b', h, hm, hb, hscope, hfloor => by
    obtain ⟨b₁, b₂, b₃, b₄, b₅, start, next, exit, hinit, hstart, hnext, hexit, hb₂, htest, hbody, hupdate, rfl⟩ :=
      lowerStmt_loop h
    simp only [Stmt.mentions, List.append_subset] at hm
    obtain ⟨⟨⟨hminit, hmtest⟩, hmupdate⟩, hmbody⟩ := hm
    have hs₁ := lowerStmt_steps init floor hinit hminit hb hscope hfloor
    have hready := hs₁.ready hb
    have hfloor₁ := Nat.le_trans hfloor hs₁.grows.size_operands
    obtain ⟨hlabels, hpstart, hpnext, hpexit, hsnext, hsexit, hsize⟩ := labels_steps hready rfl
    rw [← hstart] at hpstart
    rw [← hnext] at hpnext hsnext
    rw [← hexit] at hpexit hsexit
    have hfree : ∀ y, start ≤ y → ∀ i, ¬ b₁.code.places y i :=
      fun y hy => hready.sound.not_places (hstart ▸ hy)
    have hs₂ : Steps sh floor b₁.code b₂.code := by
      rw [hb₂]
      exact (hlabels floor).trans (steps_place hpstart (hstart ▸ hfloor₁) (hfree start (Nat.le_refl _)))
    have hfree₂ : ∀ y, start < y → ∀ i, ¬ b₂.code.places y i := by
      intro y hy
      rw [hb₂]
      exact not_places_withInstr (Or.inr fun h => absurd (Option.some.inj h) (Nat.ne_of_lt hy))
        (hfree y (Nat.le_of_lt hy))
    have hg₂ : Grows b₁.withLabel.withLabel.withLabel.code b₂.code := by rw [hb₂]; exact grows_addInstr _ _
    have hready₂ := hs₂.ready hready
    have hsize₂ : start + 3 ≤ b₂.code.operands.size := hstart ▸ hsize ▸ hg₂.size_operands
    -- what is lowered from here on places labels with greater numbers only
    have hs₃ := lowersTest_steps (start + 3) (hscope.symbols ▸ htest) hmtest hready₂ (hpexit.mono hg₂)
    have hready₃ := hs₃.ready hready₂
    have hscope₃ := ((hscope.mono hs₁.grows).mono hs₂.grows).mono hs₃.grows
    have hs₄ := lowerStmt_steps body (start + 3) hbody hmbody hready₃
      ⟨hscope₃.symbols, hscope₃.returnValue, fun labels hl => by
        cases hl
        exact ⟨(hpnext.mono hg₂).mono hs₃.grows, (hpexit.mono hg₂).mono hs₃.grows⟩⟩
      (Nat.le_trans hsize₂ hs₃.grows.size_operands)
    have hs₂₄ := hs₃.trans hs₄
    have hplace : Steps sh floor b₄.code _ := steps_place ((hpnext.mono hg₂).mono hs₂₄.grows) (by omega)
      (hs₂₄.not_places (by omega) (hfree₂ next (by omega)))
    have hready₄ := hs₂₄.ready hready₂
    have hscope₄ := (hscope₃.mono hs₄.grows).mono hplace.grows
    have hs₅ := lowerStmt_steps update (start + 3) hupdate hmupdate (hplace.ready hready₄) hscope₄
      (Nat.le_trans hsize₂ (hs₂₄.grows.trans hplace.grows).size_operands)
    have hg₅ := (hs₂₄.grows.trans hplace.grows).trans hs₅.grows
    have hjump := steps_silent floor .jump (by simp) ((hpstart.mono hg₂).mono hg₅).slot (.empty _ _)
    have hne : next ≠ exit := by omega
    have hfree₅ : ∀ i, ¬ b₅.code.places exit i :=
      hs₅.not_places (by omega) (not_places_withInstr (Or.inr fun h => hne (Option.some.inj h))
        (hs₂₄.not_places (by omega) (hfree₂ exit (by omega))))
    have hend : Steps sh floor _ _ := steps_place (((hpexit.mono hg₂).mono hg₅).mono hjump.grows) (by omega)
      (not_places_withInstr (Or.inl (by simp)) hfree₅)
    exact hs₁.trans (hs₂.trans ((hs₂₄.mono (by omega)).trans (hplace.trans ((hs₅.mono (by omega)).trans
      (hjump.trans hend)))))
  | .leave, floor, scope, b, u, b', h, _, _, hscope, _ => by
    obtain ⟨labels, hl, rfl⟩ := lowerStmt_leave h
    exact steps_silent floor .jump (by simp) (hscope.loop labels hl).2.slot (.empty _ _)
  | .next, floor, scope, b, u, b', h, _, _, hscope, _ => by
    obtain ⟨labels, hl, rfl⟩ := lowerStmt_next h
    exact steps_silent floor .jump (by simp) (hscope.loop labels hl).1.slot (.empty _ _)
  | .ret none, floor, scope, b, u, b', h, _, _, _, _ => by
    rw [lowerStmt_ret_none h]
    exact steps_silent floor .ret (by simp) (.empty _ _) (.empty _ _)
  | .ret (some value), floor, scope, b, u, b', h, hm, hb, hscope, _ => by
    obtain ⟨f, v, b₁, hf, hv, rfl⟩ := lowerStmt_ret h
    rw [hscope.symbols] at hv
    obtain ⟨hs₁, hv⟩ := lowerExpr_steps floor value hv hm hb
    have hrv := (hscope.returnValue f hf).mono hs₁.grows
    have hset := steps_set floor (Or.inl rfl) hrv rfl (hv v rfl)
    refine hs₁.trans (hset.trans (steps_read (Or.inr rfl) (hrv.mono hset.grows) (fun _ h => ⟨h, ?_⟩) (.empty _ _)))
    exact ⟨b₁.code.instrs.size, _, size_addInstr _ _, instrs_withInstr _ _ _ _ _ _, rfl, rfl⟩

theorem lowerChain_steps : ∀ (ch : Chain) (floor : Nat) {scope : Scope} {exit : OperandId} {b : Builder} {u : Unit}
    {b' : Builder}, lowerChain scope exit ch b = .ok u b' → ch.mentions ⊆ sh.mentions → sh.Ready b.code →
      sh.Fits scope b.code → sh.Plain b.code.operands exit → floor ≤ b.code.operands.size →
      Steps sh floor b.code b'.code
  | .done, floor, scope, exit, b, u, b', h, _, _, _, _, _ => by
    simp only [lowerChain] at h
    obtain ⟨-, rfl⟩ := LowerM.pure_eq_ok.mp h
    exact .refl
  | .otherwise body, floor, scope, exit, b, u, b', h, hm, hb, hscope, _, hfloor => by
    simp only [lowerChain] at h
    exact lowerStmt_steps body floor h hm hb hscope hfloor
  | .arm test body rest, floor, scope, exit, b, u, b', h, hm, hb, hscope, hexit, hfloor => by
    rw [Chain.mentions, List.append_subset, List.append_subset] at hm
    obtain ⟨⟨hmtest, hmbody⟩, hmrest⟩ := hm
    cases hdone : rest.isDone with
    | true =>
      obtain ⟨t, b₁, ht, hbody⟩ := lowerChain_last hdone h
      rw [hscope.symbols] at ht
      obtain ⟨hs₁, ht⟩ := lowerExpr_steps floor test ht hmtest hb
      have hs₂ := hs₁.trans (steps_silent floor .branch (by simp) ht (hexit.mono hs₁.grows).slot)
      exact hs₂.trans (lowerStmt_steps body _ hbody hmbody (hs₂.ready hb) (hscope.mono hs₂.grows)
        (Nat.le_trans hfloor hs₂.grows.size_operands))
    | false =>
      obtain ⟨t, b₁, b₂, b₃, ht, hbody, hb₃, hrest⟩ := lowerChain_arm hdone h
      rw [hscope.symbols] at ht
      -- up to the body nothing places the label of the next arm, whose number is below this floor
      have hsize : b.withLabel.code.operands.size = b.code.operands.size + 1 := size_addOperand _ _
      have hlabel : Steps sh floor b.code b.withLabel.code := b.steps_withLabel
      have hnext := plain_withLabel hb
      have hb₁ := hlabel.ready hb
      obtain ⟨hs₁, ht⟩ := lowerExpr_steps b.withLabel.code.operands.size test ht hmtest hb₁
      have hs₂ := hs₁.trans (steps_silent _ .branch (by simp) ht (hnext.mono hs₁.grows).slot)
      have hscope₂ := (hscope.mono hlabel.grows).mono hs₂.grows
      have hs₃ := hs₂.trans (lowerStmt_steps body _ hbody hmbody (hs₂.ready hb₁) hscope₂ hs₂.grows.size_operands)
      have hs₄ : Steps sh b.withLabel.code.operands.size b.withLabel.code b₃.code := by
        rw [hb₃]
        split
        · exact hs₃
        · exact hs₃.trans (steps_silent _ .jump (by simp)
            ((hexit.mono hlabel.grows).mono hs₃.grows).slot (.empty _ _))
      have hfree : ∀ i, ¬ b₃.code.places b.code.operands.size i :=
        hs₄.not_places (hsize ▸ Nat.lt_succ_self _) (hb.sound.not_places (Nat.le_refl _))
      have hs₅ : Steps sh floor b.code (b₃.withInstr .label none (some b.code.operands.size) none []).code :=
        hlabel.trans ((hs₄.mono (by omega)).trans (steps_place (hnext.mono hs₄.grows) hfloor hfree))
      exact hs₅.trans (lowerChain_steps rest floor hrest hmrest (hs₅.ready hb) (hscope.mono hs₅.grows)
        (hexit.mono hs₅.grows) (Nat.le_trans hfloor hs₅.grows.size_operands))
end

end MiddleEnd
