import MiddleEnd.Proofs.Lowering.Shape

/-! Arguments are marshalled right before their call. All arguments are evaluated first, calls among them included,
and only then moved one after the other; so no other call comes between the moves and the call they are for. -/

namespace MiddleEnd

open Builder LowerM

/-- From position `first` on, one instruction each moves the arguments from number `k` on into `args`. -/
def Code.MovesArgs (c : Code) (first k : Nat) (args : List OperandId) : Prop :=
  ∀ (m : Nat) (y : OperandId), args[m]? = some y → c.operands.tag? y = some (.arg (k + m)) ∧
    ∃ w, c.instrs[first + m]? = some w ∧ w.op = .arg (k + m) ∧ w.result = some y

/-- The call `z` at position `i` has its arguments moved right before it and its result copied right after it. -/
structure Code.Marshals (c : Code) (i : Nat) (z : Instr) : Prop where
  args : ∃ first, i = first + z.args.length ∧ c.MovesArgs first 0 z.args
  result : ∀ y, z.result = some y → c.operands.tag? y = some .callResult ∧ ∃ w t, c.instrs[i + 1]? = some w ∧
    w.op = .assign ∧ w.left = some y ∧ w.result = some t ∧ c.operands.tag? t = some .copy

/-- The instruction is marshalled, if it is a call. -/
def Code.CallMarshalled (c : Code) (i : Nat) (z : Instr) : Prop := z.op = .call → c.Marshals i z

namespace Code

variable {c d : Code} {i first k : Nat} {args : List OperandId} {z : Instr}

theorem MovesArgs.mono (h : c.MovesArgs first k args) (hg : c.Grows d) : d.MovesArgs first k args := by
  intro m y hy
  obtain ⟨htag, w, hw, hop, hres⟩ := h m y hy
  exact ⟨hg.tagged htag, w, hg.instrs _ w hw, hop, hres⟩

theorem MovesArgs.not_call (h : c.MovesArgs first k args) (hi : first ≤ i) (hlt : i < first + args.length)
    (hz : c.instrs[i]? = some z) : z.op ≠ .call := by
  obtain ⟨-, w, hw, hop, -⟩ := h (i - first) _ (List.getElem?_eq_getElem (by omega))
  rw [show first + (i - first) = i by omega, hz] at hw
  cases hw
  simp [hop]

theorem MovesArgs.nodup (h : c.MovesArgs first k args) : args.Nodup := by
  refine List.nodup_iff_injective_get.mpr fun m n hmn => Fin.ext ?_
  have hm := (h m _ (List.getElem?_eq_getElem m.isLt)).1
  have hn := (h n _ (List.getElem?_eq_getElem n.isLt)).1
  rw [← List.get_eq_getElem, hmn, List.get_eq_getElem, hn] at hm
  have : k + n.1 = k + m.1 := by simpa using hm
  omega

theorem Marshals.mono (h : c.Marshals i z) (hg : c.Grows d) : d.Marshals i z := by
  obtain ⟨⟨first, hi, hmoves⟩, hresult⟩ := h
  refine ⟨⟨first, hi, hmoves.mono hg⟩, fun y hy => ?_⟩
  obtain ⟨htag, w, t, hw, hop, hleft, hres, hcopy⟩ := hresult y hy
  exact ⟨hg.tagged htag, w, t, hg.instrs _ w hw, hop, hleft, hres, hg.tagged hcopy⟩

end Code

open Code

variable {b b' : Builder}

theorem marshal_movesArgs {pos : Nat} {values args : List OperandId} (h : marshal pos values b = .ok args b') :
    b'.code.instrs.size = b.code.instrs.size + args.length ∧ b'.code.MovesArgs b.code.instrs.size pos args := by
  induction values generalizing pos b args with
  | nil =>
    obtain ⟨rfl, rfl⟩ := marshal_nil h
    exact ⟨rfl, fun m y hy => by simp at hy⟩
  | cons value values ih =>
    obtain ⟨rest, rfl, hrest⟩ := marshal_cons h
    obtain ⟨hsize, hmoves⟩ := ih hrest
    have hsame : (b.withTemp (.arg pos)).code.instrs.size = b.code.instrs.size := rfl
    rw [size_withInstr, hsame] at hsize hmoves
    refine ⟨by rw [hsize, List.length_cons]; omega, fun m y hy => ?_⟩
    cases m with
    | zero =>
      obtain rfl : b.code.operands.size = y := by simpa using hy
      have hg := adds_marshal _ _ hrest
      exact ⟨hg.tagged (tag?_compute ..), _, hg.instrs _ _ (instrs_withInstr ..), rfl, rfl⟩
    | succ m =>
      have := hmoves m y (by simpa using hy)
      rwa [Nat.add_assoc, Nat.add_assoc, Nat.add_comm 1 m] at this

theorem stays_callMarshalled : Stays Code.CallMarshalled := fun _ _ _ _ hg h hop => (h hop).mono hg

theorem marshal_callMarshalled {values args : List OperandId} (h : marshal 0 values b = .ok args b') :
    GrowsBy Code.CallMarshalled b.code b'.code := by
  obtain ⟨hsize, hmoves⟩ := marshal_movesArgs h
  refine ⟨adds_marshal _ _ h, fun i z hi hz hop => absurd hop (hmoves.not_call hi ?_ hz)⟩
  have := (Array.getElem?_eq_some_iff.mp hz).1
  omega

section Emit

variable {first : Nat} {args : List OperandId} (hsize : b.code.instrs.size = first + args.length)
  (hmoves : b.code.MovesArgs first 0 args) (target : Option OperandId)
include hsize hmoves

theorem callMarshalled_void :
    GrowsBy Code.CallMarshalled b.code (b.withInstr .call none target none args).code :=
  .addInstr _ fun _ => ⟨⟨first, hsize, hmoves.mono (grows_withInstr ..)⟩, fun y hy => by cases hy⟩

theorem callMarshalled_value {b₁ : Builder} (hb₁ : b₁ = (b.withTemp .callResult).withInstr .call
      (some b.code.operands.size) target none args) :
    GrowsBy Code.CallMarshalled b.code ((b₁.withTemp .copy).withInstr .assign (some b₁.code.operands.size)
      (some b.code.operands.size) none []).code := by
  have hg : b.code.Grows b₁.code := hb₁ ▸ grows_temp ..
  have hg₁ : b₁.code.Grows ((b₁.withTemp .copy).withInstr .assign (some b₁.code.operands.size)
      (some b.code.operands.size) none []).code := grows_temp ..
  have hsize₁ : b₁.code.instrs.size = b.code.instrs.size + 1 := hb₁ ▸ size_withInstr ..
  refine ⟨hg.trans hg₁, fun i z hi hz hop => ?_⟩
  rw [getElem?_withInstr] at hz
  split at hz
  case isTrue =>
    -- the copy
    cases hz
    cases hop
  case isFalse hne =>
    have hz₁ : b₁.code.instrs[i]? = some z := hz
    have hlt := (Array.getElem?_eq_some_iff.mp hz₁).1
    obtain rfl : i = b.code.instrs.size := by omega
    have hcall : b₁.code.instrs[b.code.instrs.size]? = some ((b.withTemp .callResult).instr .call
        (some b.code.operands.size) target none args) := hb₁ ▸ instrs_withInstr (b.withTemp .callResult) ..
    obtain rfl := Option.some.inj (hcall.symm.trans hz₁)
    refine ⟨⟨first, hsize, hmoves.mono (hg.trans hg₁)⟩, fun y hy => ?_⟩
    obtain rfl : b.code.operands.size = y := Option.some.inj hy
    exact ⟨hg₁.tagged (hb₁ ▸ tag?_compute ..), (b₁.withTemp .copy).instr .assign (some b₁.code.operands.size)
      (some b.code.operands.size) none [], b₁.code.operands.size, hsize₁ ▸ instrs_withInstr .., rfl, rfl, rfl,
      tag?_compute ..⟩

end Emit

theorem lowerCall_callMarshalled (symbols : SymbolTable) (callee : SymbolId) (values : List OperandId) (ty : Ty) :
    (lowerCall symbols callee values ty).Makes (GrowsBy Code.CallMarshalled) := by
  intro b b' o h
  -- the operand of the callee is looked up between the moves and the call
  have hrest : ∀ {args b₁} (s : Symbol), marshal 0 values b = .ok args b₁ →
      (b₁.withSymbol callee s).code.instrs.size = b.code.instrs.size + args.length ∧
        (b₁.withSymbol callee s).code.MovesArgs b.code.instrs.size 0 args ∧
        GrowsBy Code.CallMarshalled b.code (b₁.withSymbol callee s).code := by
    intro args b₁ s hargs
    obtain ⟨hsize, hmoves⟩ := marshal_movesArgs hargs
    have hg := b₁.code.grows_addSymbol callee s
    exact ⟨hsize, hmoves.mono hg, (marshal_callMarshalled hargs).trans stays_callMarshalled (.of_instrs hg rfl)⟩
  by_cases hty : ty = .void
  · obtain ⟨args, b₁, s, hargs, -, -, hcode⟩ := lowerCall_void hty h
    obtain ⟨hsize, hmoves, hmade⟩ := hrest s hargs
    rw [hcode]
    exact hmade.trans stays_callMarshalled (callMarshalled_void hsize hmoves _)
  · obtain ⟨args, b₁, s, b₂, b₃, hargs, -, rfl, hb₃, -, hcode⟩ := lowerCall_value hty h
    obtain ⟨hsize, hmoves, hmade⟩ := hrest s hargs
    rw [hcode]
    exact hmade.trans stays_callMarshalled (callMarshalled_value hsize hmoves _ hb₃)

theorem shaped_callMarshalled : Shaped Code.CallMarshalled where
  stays := stays_callMarshalled
  compute b tag op left right h hop := by
    rw [show op = .call from hop] at h
    cases tag <;> cases h
  plain c z h hop := by
    rw [hop] at h
    cases h
  call := lowerCall_callMarshalled
  place b op y h hop := by rcases h with rfl | rfl <;> cases hop
  test h y hop := by cases hop

/-- Arguments are marshalled without a gap. The `n` instructions before a call with `n` arguments move them in order,
each into a temporary of its own that carries the argument's number, is written there only and read by the call only.
A result of the call is copied by the next instruction, which alone reads it, into a temporary that nothing else
writes and nothing before reads. -/
theorem arguments_are_marshalled_right_before_call (p : Program) (l : Lowered) (hl : p.lower = .ok l) (i : Nat)
    (z : Instr) (hz : l.code.instrs[i]? = some z) (hcall : z.op = .call) : ∃ first, i = first + z.args.length ∧
      z.args.Nodup ∧
      (∀ m y, z.args[m]? = some y → l.code.operands.tag? y = some (.arg m) ∧
        (∃ w, l.code.instrs[first + m]? = some w ∧ w.op = .arg m ∧ w.result = some y) ∧
        (∀ q, l.code.WritesAt y q ↔ q = first + m) ∧ ∀ q, l.code.ReadsAt y q ↔ q = i) ∧
      ∀ y, z.result = some y → l.code.operands.tag? y = some .callResult ∧
        (∀ q, l.code.WritesAt y q ↔ q = i) ∧ (∀ q, l.code.ReadsAt y q ↔ q = i + 1) ∧
        ∃ w t, l.code.instrs[i + 1]? = some w ∧ w.op = .assign ∧ w.left = some y ∧ w.result = some t ∧
          l.code.operands.tag? t = some .copy ∧ (∀ q, l.code.WritesAt t q ↔ q = i + 1) ∧
          ∀ q, l.code.ReadsAt t q → i + 1 < q := by
  have hlin := Program.lower_linear hl
  obtain ⟨⟨first, hi, hmoves⟩, hresult⟩ := shaped_callMarshalled.lower hl i z hz hcall
  refine ⟨first, hi, hmoves.nodup, fun m y hy => ?_, fun y hy => ?_⟩
  · obtain ⟨htag, w, hw, hop, hres⟩ := hmoves m y hy
    rw [Nat.zero_add] at htag hop
    have hsingle := isSingle_of_tag htag (by simp)
    refine ⟨htag, ⟨w, hw, hop, hres⟩, hlin.writesAt_iff hsingle ⟨w, hw, ?_⟩, hlin.readsAt_iff hsingle ⟨z, hz, ?_⟩⟩
    · rw [Instr.dest?_eq_result (by simp [hop]), hres]
    · exact List.mem_append_right _ (List.mem_of_getElem? hy)
  · obtain ⟨htag, w, t, hw, hop, hleft, hres, hcopy⟩ := hresult y hy
    have hsingle := isSingle_of_tag htag (by simp)
    have hwrites := hlin.writesAt_iff (isSingle_of_tag hcopy (by simp)) ⟨w, hw, by
      rw [Instr.dest?_eq_result (by simp [hop]), hres]⟩
    refine ⟨htag, hlin.writesAt_iff hsingle ⟨z, hz, ?_⟩, hlin.readsAt_iff hsingle ⟨w, hw, ?_⟩, w, t, hw, hop, hleft,
      hres, hcopy, hwrites, fun q hq => ?_⟩
    · rw [Instr.dest?_eq_result (by simp [hcall]), hy]
    · simp [Instr.sources, hop, hleft]
    · obtain ⟨s, hs, hline⟩ := hlin.supplied t (by simp [Arena.isComputed, hcopy, Tag.isComputed]) q hq
      rw [(hwrites s).mp hs] at hline
      exact hline.lt

/-- Calls in the arguments of calls:

    int f(int n) { return g(n, h(g(n, n))); } -/
def nest : Program where
  symbols.symbols := #[
    { name := "f", kind := .function, ty := .function [.int] .int },
    { name := "n", kind := .param, ty := .int },
    { name := "g", kind := .function, ty := .function [.int, .int] .int },
    { name := "h", kind := .function, ty := .function [.int] .int }]
  decls := [.function 0 [1] (.ret (some (.call 2 [.name 1 .int,
    .call 3 [.call 2 [.name 1 .int, .name 1 .int] .int] .int] .int)))]

/-- The outer call is at position 11. Its arguments are moved at positions 9 and 10, after the calls at positions 4
and 7 that the second of them needs. -/
theorem nest_moves_arguments_last : ∃ l z, nest.lower = .ok l ∧
    (∀ i w, l.code.instrs[i]? = some w → (w.op = .call ↔ i = 4 ∨ i = 7 ∨ i = 11)) ∧
    l.code.instrs[11]? = some z ∧ z.args.length = 2 ∧
    (∀ m y, z.args[m]? = some y → (∀ q, l.code.WritesAt y q ↔ q = 9 + m) ∧ ∀ q, l.code.ReadsAt y q ↔ q = 11) ∧
    ∃ y, z.result = some y ∧ ∀ q, l.code.ReadsAt y q ↔ q = 12 := by
  have hrun : nest.lower.toOption.any (fun l => decide (l.code.instrs.size = 15 ∧
      (∀ i < 15, (l.code.instrs[i]?.any (·.op = .call)) = decide (i = 4 ∨ i = 7 ∨ i = 11)) ∧
      (l.code.instrs[11]?.any fun z => z.args.length = 2 ∧ z.result.isSome) = true)) = true := by
    decide +kernel
  cases hl : nest.lower with
  | error e => rw [hl] at hrun; cases hrun
  | ok l =>
    rw [hl, Except.toOption, Option.any_some, decide_eq_true_eq] at hrun
    obtain ⟨hsize, hcalls, hcall⟩ := hrun
    have hcalls : ∀ i w, l.code.instrs[i]? = some w → (w.op = .call ↔ i = 4 ∨ i = 7 ∨ i = 11) := by
      intro i w hw
      have hi := hcalls i (by have := (Array.getElem?_eq_some_iff.mp hw).1; omega)
      rw [hw, Option.any_some] at hi
      exact decide_eq_decide.mp hi
    obtain ⟨z, hz, hlength⟩ := (Option.any_eq_true _ _).mp hcall
    obtain ⟨hlength, hsome⟩ := of_decide_eq_true hlength
    obtain ⟨y, hy⟩ := Option.isSome_iff_exists.mp hsome
    obtain ⟨first, hfirst, -, hargs, hresult⟩ := arguments_are_marshalled_right_before_call nest l hl 11 z hz
      ((hcalls 11 z hz).mpr (by simp))
    obtain rfl : first = 9 := by omega
    refine ⟨l, z, rfl, hcalls, hz, hlength, fun m x hx => ?_, y, hy, (hresult y hy).2.2.1⟩
    obtain ⟨-, -, hwrites, hreads⟩ := hargs m x hx
    exact ⟨hwrites, hreads⟩

end MiddleEnd
