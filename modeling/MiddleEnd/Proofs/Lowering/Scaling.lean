import MiddleEnd.Proofs.Lowering.Program
import MiddleEnd.Proofs.Lowering.Shape
import Mathlib.Algebra.Group.Int.Defs
import Mathlib.Algebra.Group.Nat.Defs
import Mathlib.Data.List.Forall2

/-! Accesses to arrays. Each access of the source takes one address in the code, in the order of evaluation, and code
takes no other address. The index is multiplied by the bytes of an element, which are counted up to `2 ^ 64` and
written as a signed word: from `2 ^ 63` on the factor is negative. -/

namespace MiddleEnd

open Builder LowerM

/-- Size in bytes, however large. -/
def Ty.bytes : Ty → Nat
  | int => wordSize
  | bool => 1
  | char => 1
  | void => 0
  | array elem len => elem.bytes * len
  | function _ _ => wordSize

theorem Ty.size?_eq_some : ∀ {t : Ty} {n : Nat}, t.size? = some n → n = t.bytes ∧ n < 2 ^ 64
  | int, n, h | bool, n, h | char, n, h | void, n, h | function _ _, n, h => by
    cases h
    exact ⟨rfl, by decide⟩
  | array elem len, n, h => by
    obtain ⟨size, hsize, h⟩ := Option.bind_eq_some_iff.mp h
    obtain ⟨_, hguard, h⟩ := Option.bind_eq_some_iff.mp h
    obtain ⟨rfl, -⟩ := size?_eq_some hsize
    cases h
    exact ⟨rfl, (Option.guard_eq_some' _).mp hguard⟩

/-- Bytes of an element, however many; a symbol that is no array has elements of a word. -/
def Symbol.elementBytes (s : Symbol) : Nat := s.ty.element?.elim Ty.wordSize Ty.bytes

theorem Symbol.elementSize?_eq_some {s : Symbol} {n : Nat} (h : s.elementSize? = some n) :
    n = s.elementBytes ∧ n < 2 ^ 64 := by
  unfold elementSize? at h
  unfold elementBytes
  cases helem : s.ty.element? with
  | none =>
    rw [helem] at h
    cases h
    exact ⟨rfl, by decide⟩
  | some elem =>
    rw [helem] at h
    exact Ty.size?_eq_some h

theorem toInt_ofNat_of_lt {n : Nat} (h : n < 2 ^ 64) :
    (Int64.ofNat n).toInt = if n < 2 ^ 63 then (n : Int) else n - 2 ^ 64 := by
  rw [Int64.toInt_ofNat', show Int64.size = 2 ^ 64 from rfl, Int.bmod_def]
  omega

/-- An array with the position that is read or written. -/
structure Access where
  array : SymbolId
  index : Expr

namespace Expr

mutual
/-- The accesses to arrays in the order of evaluation: those in an index come before the access it is for. -/
def accesses : Expr → List Access
  | literal _ _ => []
  | name _ _ => []
  | binary _ lhs rhs _ => lhs.accesses ++ rhs.accesses
  | unary _ arg _ => arg.accesses
  | call _ args _ => accessesAll args
  | index array pos _ => pos.accesses ++ [⟨array, pos⟩]

def accessesAll : List Expr → List Access
  | [] => []
  | e :: es => e.accesses ++ accessesAll es
end

end Expr

mutual
def Stmt.accesses : Stmt → List Access
  | .skip => []
  | .seq first second => first.accesses ++ second.accesses
  | .declare _ init => init.elim [] Expr.accesses
  | .assign _ value => value.accesses
  | .store array pos value => value.accesses ++ (pos.accesses ++ [⟨array, pos⟩])
  | .eval expr => expr.accesses
  | .cond chain => chain.accesses
  | .loop init test update body => init.accesses ++ (test.elim [] Expr.accesses ++ (body.accesses ++ update.accesses))
  | .leave => []
  | .next => []
  | .ret value => value.elim [] Expr.accesses

def Chain.accesses : Chain → List Access
  | .done => []
  | .otherwise body => body.accesses
  | .arm test body rest => test.accesses ++ (body.accesses ++ rest.accesses)
end

def Decl.accesses : Decl → List Access
  | .function _ _ body => body.accesses
  | .global _ init => init.elim [] Expr.accesses

def Program.accesses (p : Program) : List Access := p.decls.flatMap Decl.accesses

namespace Code

/-- The positions from `start` on at which an address is taken. -/
def addressesFrom (c : Code) (start : Nat) : List Nat :=
  (List.range' start (c.instrs.size - start)).filter fun i => c.instrs[i]?.any (·.op = .address)

/-- The code of an expression ends at position `k`, where its value is in `x`. -/
def EndsAt (c : Code) (symbols : SymbolTable) (e : Expr) (x : OperandId) (k : Nat) : Prop :=
  ∃ b b' : Builder, lowerExpr symbols e b = .ok (some x) b' ∧ b'.code.instrs.size = k ∧ b'.code.Grows c

/-- The instruction at `i` adds to `base` the index times `scale`, which is computed right before, as soon as the
index is there. -/
def Scales (c : Code) (symbols : SymbolTable) (a : Access) (base : OperandId) (scale : Int64) (i : Nat) : Prop :=
  ∃ k index factor offset address, i = k + 1 ∧ c.EndsAt symbols a.index index k ∧
    c.operands.get? factor = some { kind := .int scale, isValue := false } ∧
    c.instrs[k]? = some
      { id := k, op := .binary (.arith .mul), result := some offset, left := some index, right := some factor } ∧
    c.instrs[i]? = some
      { id := i, op := .address, result := some address, left := some base, right := some offset }

theorem Scales.mono {c d : Code} {symbols : SymbolTable} {a : Access} {base : OperandId} {scale : Int64} {i : Nat}
    (h : c.Scales symbols a base scale i) (hg : c.Grows d) : d.Scales symbols a base scale i := by
  obtain ⟨k, index, factor, offset, address, hi, ⟨b, b', hlower, hk, hb'⟩, hfactor, hmul, haddr⟩ := h
  exact ⟨k, index, factor, offset, address, hi, ⟨b, b', hlower, hk, hb'.trans hg⟩, hg.operands _ _ hfactor,
    hg.instrs _ _ hmul, hg.instrs _ _ haddr⟩

/-- The address for the access is taken at `i`, with the operand of the array and the bytes of its elements. -/
def Takes (c : Code) (symbols : SymbolTable) (a : Access) (i : Nat) : Prop :=
  ∃ s size base, symbols.get? a.array = some s ∧ s.elementSize? = some size ∧
    c.operands.interned[a.array]? = some base ∧ c.Scales symbols a base (Int64.ofNat size) i

theorem Takes.mono {c d : Code} {symbols : SymbolTable} {a : Access} {i : Nat} (h : c.Takes symbols a i)
    (hg : c.Grows d) : d.Takes symbols a i := by
  obtain ⟨s, size, base, hs, hsize, hbase, hloc⟩ := h
  exact ⟨s, size, base, hs, hsize, hg.interned _ _ hbase, hloc.mono hg⟩

theorem addressesFrom_append {c d : Code} (h : c.Grows d) {start : Nat} (hstart : start ≤ c.instrs.size) :
    d.addressesFrom start = c.addressesFrom start ++ d.addressesFrom c.instrs.size := by
  have hsize := h.size_instrs
  have hrange : List.range' start (d.instrs.size - start) = List.range' start (c.instrs.size - start) ++
      List.range' c.instrs.size (d.instrs.size - c.instrs.size) := by
    rw [show d.instrs.size - start = (c.instrs.size - start) + (d.instrs.size - c.instrs.size) by omega,
      ← List.range'_append_1, Nat.add_sub_cancel' hstart]
  have hold : ∀ i ∈ List.range' start (c.instrs.size - start), d.instrs[i]? = c.instrs[i]? := by
    intro i hi
    have hlt : i < c.instrs.size := by
      have := List.mem_range'_1.mp hi
      omega
    exact (h.instrs i _ (Array.getElem?_eq_getElem hlt)).trans (Array.getElem?_eq_getElem hlt).symm
  unfold addressesFrom
  rw [hrange, List.filter_append]
  congr 1
  exact List.filter_congr fun i hi => by rw [hold i hi]

/-- `d` is `c` with more at the end, where no address is taken. -/
abbrev Quiet : Code → Code → Prop := GrowsBy fun _ _ z => z.op ≠ .address

namespace Quiet

theorem refl (c : Code) : Quiet c c := .of_instrs (.refl c) rfl

theorem trans {c d e : Code} (h : Quiet c d) (k : Quiet d e) : Quiet c e := GrowsBy.trans (fun _ _ _ _ _ h => h) h k

theorem int (b : Builder) (v : Int64) : Quiet b.code (b.withInt v).code := .of_instrs (b.code.grows_addOperand _) rfl

theorem temp (b : Builder) (tag : Tag) : Quiet b.code (b.withTemp tag).code :=
  .of_instrs (b.code.grows_addOperand _) rfl

theorem label (b : Builder) : Quiet b.code b.withLabel.code := .of_instrs (b.code.grows_addOperand _) rfl

theorem symbol (b : Builder) (id : SymbolId) (s : Symbol) : Quiet b.code (b.withSymbol id s).code :=
  .of_instrs (b.code.grows_addSymbol id s) rfl

theorem instr (b : Builder) {op : Opcode} (hop : op ≠ .address) (result left right : Option OperandId)
    (args : List OperandId) : Quiet b.code (b.withInstr op result left right args).code :=
  GrowsBy.addInstr b.code hop

theorem compute (b : Builder) (tag : Tag) {op : Opcode} (hop : op ≠ .address) (result left right : Option OperandId)
    (args : List OperandId) : Quiet b.code ((b.withTemp tag).withInstr op result left right args).code :=
  (temp b tag).trans (instr _ hop ..)

theorem addressesFrom {c d : Code} (h : Quiet c d) : d.addressesFrom c.instrs.size = [] := by
  refine List.filter_eq_nil_iff.mpr fun i hi haddr => ?_
  obtain ⟨z, hz, hop⟩ := (Option.any_eq_true ..).mp haddr
  exact h.fresh i z (List.mem_range'_1.mp hi).1 hz (of_decide_eq_true hop)

end Quiet

/-- `d` is `c` with more at the end, where the addresses that are taken are those of the accesses, in their order. -/
structure Lays (symbols : SymbolTable) (as : List Access) (c d : Code) : Prop where
  grows : c.Grows d
  takes : List.Forall₂ (d.Takes symbols) as (d.addressesFrom c.instrs.size)

namespace Lays

variable {symbols : SymbolTable} {as bs : List Access} {c d e : Code}

theorem append (h : Lays symbols as c d) (k : Lays symbols bs d e) : Lays symbols (as ++ bs) c e := by
  refine ⟨h.grows.trans k.grows, ?_⟩
  rw [addressesFrom_append k.grows h.grows.size_instrs]
  exact List.rel_append (h.takes.imp fun a i ht => ht.mono k.grows) k.takes

theorem of_quiet (h : Quiet c d) : Lays symbols [] c d := ⟨h.grows, by rw [h.addressesFrom]; exact .nil⟩

theorem quiet (h : Lays symbols as c d) (k : Quiet d e) : Lays symbols as c e := by
  have := h.append (of_quiet k)
  rwa [List.append_nil] at this

theorem after (h : Quiet c d) (k : Lays symbols as d e) : Lays symbols as c e := (of_quiet h).append k

theorem refl (c : Code) : Lays symbols [] c c := of_quiet (.refl c)

end Lays

end Code

open Code

section Expr

variable {symbols : SymbolTable} {b b' : Builder}

theorem lowerAddress_lays {array : SymbolId} {pos : Expr} {p address : OperandId} {s : Symbol} {size : Nat}
    {b₀ : Builder} (hs : symbols.get? array = some s) (hsize : s.elementSize? = some size)
    (hpos : lowerExpr symbols pos b₀ = .ok (some p) b) (h : lowerAddress symbols array size p b = .ok address b') :
    Lays symbols [⟨array, pos⟩] b.code b'.code := by
  have hgrows := adds_lowerAddress symbols array size p h
  obtain ⟨t, b₁, b₂, ht, hb₁, hb₂, -, hb'⟩ := lowerAddress_eq_ok h
  have hsize₁ : b₁.code.instrs.size = b.code.instrs.size + 1 := by rw [hb₁]; exact size_withInstr ..
  have hsize₂ : (b₂.withTemp .address).code.instrs.size = b.code.instrs.size + 1 := by rw [hb₂]; exact hsize₁
  have hgrows₁ : b₁.code.Grows b'.code := by
    rw [hb', hb₂]
    exact (b₁.code.grows_addSymbol array t).trans (grows_temp (b₁.withSymbol array t) ..)
  -- the product
  have hmul := hgrows₁.instrs b.code.instrs.size _ (by rw [hb₁]; exact instrs_withInstr ..)
  have hfactor : b'.code.operands.get? b.code.operands.size =
      some { kind := .int (Int64.ofNat size), isValue := false } := by
    refine hgrows₁.operands _ _ ?_
    rw [hb₁]
    exact (grows_temp ..).operands _ _ (get?_addOperand_self ..)
  -- the sum
  have haddr := instrs_withInstr (b₂.withTemp .address) .address (some b₂.code.operands.size)
    (some (b₁.code.operands.symbol array t).1) (some (b.withInt (Int64.ofNat size)).code.operands.size) []
  rw [← hb', instr, hsize₂] at haddr
  have hbase : b'.code.operands.interned[array]? = some (b₁.code.operands.symbol array t).1 := by
    rw [hb', hb₂]
    exact (grows_temp ..).interned _ _ (b₁.code.operands.interned_symbol array t)
  have htakes : b'.code.Takes symbols ⟨array, pos⟩ (b.code.instrs.size + 1) :=
    ⟨s, size, _, hs, hsize, hbase, _, p, _, _, _, rfl, ⟨b₀, b, hpos, rfl, hgrows⟩, hfactor, hmul, haddr⟩
  have hlist : b'.code.addressesFrom b.code.instrs.size = [b.code.instrs.size + 1] := by
    have htotal : b'.code.instrs.size = b.code.instrs.size + 2 := by rw [hb', size_withInstr, hsize₂]
    rw [addressesFrom, htotal, Nat.add_sub_cancel_left]
    simp [List.range', hmul, haddr, instr]
  refine ⟨hgrows, ?_⟩
  rw [hlist]
  exact .cons htakes .nil

theorem lowerCall_quiet {callee : SymbolId} {values : List OperandId} {ty : Ty} {o : Option OperandId}
    (h : lowerCall symbols callee values ty b = .ok o b') : Quiet b.code b'.code := by
  obtain ⟨hg, hop⟩ := lowerCall_isCalling symbols callee values ty h
  refine ⟨hg, fun i z hi hz haddr => ?_⟩
  have := hop i z hi hz
  rw [haddr] at this
  cases this

mutual
theorem lowerExpr_lays : ∀ {e : Expr} {o : Option OperandId} {b b' : Builder}, lowerExpr symbols e b = .ok o b' →
    Lays symbols e.accesses b.code b'.code
  | .literal lit ty, o, b, b', h => by
    obtain ⟨-, rfl⟩ := lowerExpr_literal h
    exact .of_quiet (.int b _)
  | .name id ty, o, b, b', h => by
    obtain ⟨s, -, -, rfl⟩ := lowerExpr_name h
    exact .of_quiet (.symbol b id s)
  | .binary op lhs rhs ty, o, b, b', h => by
    obtain ⟨l, b₁, r, b₂, hl, hr, -, rfl⟩ := lowerExpr_binary h
    exact ((lowerExpr_lays hl).append (lowerExpr_lays hr)).quiet (.compute _ _ (by simp) ..)
  | .unary op arg ty, o, b, b', h => by
    obtain ⟨a, b₁, ha, -, rfl⟩ := lowerExpr_unary h
    exact (lowerExpr_lays ha).quiet (.compute _ _ (by simp) ..)
  | .call callee args ty, o, b, b', h => by
    obtain ⟨values, b₁, hargs, hcall⟩ := lowerExpr_call h
    exact (lowerArgs_lays hargs).quiet (lowerCall_quiet hcall)
  | .index array pos ty, o, b, b', h => by
    obtain ⟨s, size, p, b₁, address, b₂, hs, hsize, hp, haddr, -, rfl⟩ := lowerExpr_index h
    exact ((lowerExpr_lays hp).append (lowerAddress_lays hs hsize hp haddr)).quiet (.compute _ _ (by simp) ..)

theorem lowerArgs_lays : ∀ {es : List Expr} {values : List OperandId} {b b' : Builder},
    lowerArgs symbols es b = .ok values b' → Lays symbols (Expr.accessesAll es) b.code b'.code
  | [], values, b, b', h => by
    obtain ⟨-, rfl⟩ := lowerArgs_nil h
    exact .refl _
  | e :: es, values, b, b', h => by
    obtain ⟨v, b₁, vs, -, hv, hvs⟩ := lowerArgs_cons h
    exact (lowerExpr_lays hv).append (lowerArgs_lays hvs)
end

end Expr

section Stmt

variable {symbols : SymbolTable}

theorem lowersTest_lays {exit : OperandId} {b b' : Builder} {test : Option Expr}
    (h : LowersTest symbols exit b test b') : Lays symbols (test.elim [] Expr.accesses) b.code b'.code := by
  cases test with
  | none =>
    rw [show b' = b from h]
    exact .refl _
  | some test =>
    obtain ⟨t, b₁, ht, rfl⟩ := h
    exact (lowerExpr_lays ht).quiet (.instr _ (by simp) ..)

theorem assign_lays {e : Expr} {v : OperandId} {b b₁ : Builder} (h : lowerExpr symbols e b = .ok (some v) b₁)
    (id : SymbolId) (s : Symbol) : Lays symbols e.accesses b.code
      ((b₁.withSymbol id s).withInstr .assign (some (b₁.code.operands.symbol id s).1) (some v) none []).code :=
  (lowerExpr_lays h).quiet ((Quiet.symbol b₁ id s).trans (.instr _ (by simp) ..))

mutual
theorem lowerStmt_lays : ∀ {st : Stmt} {scope : Scope} {u : Unit} {b b' : Builder},
    lowerStmt scope st b = .ok u b' → Lays scope.symbols st.accesses b.code b'.code
  | .skip, scope, u, b, b', h => by
    simp only [lowerStmt] at h
    obtain ⟨-, rfl⟩ := pure_eq_ok.mp h
    exact .refl _
  | .seq first second, scope, u, b, b', h => by
    obtain ⟨b₁, h₁, h₂⟩ := lowerStmt_seq h
    exact (lowerStmt_lays h₁).append (lowerStmt_lays h₂)
  | .declare id none, scope, u, b, b', h => by
    simp only [lowerStmt] at h
    obtain ⟨-, rfl⟩ := pure_eq_ok.mp h
    exact .refl _
  | .declare id (some init), scope, u, b, b', h => by
    obtain ⟨v, b₁, s, hv, -, rfl⟩ := lowerStmt_declare h
    exact assign_lays hv id s
  | .assign id value, scope, u, b, b', h => by
    obtain ⟨v, b₁, s, hv, -, rfl⟩ := lowerStmt_assign h
    exact assign_lays hv id s
  | .store array pos value, scope, u, b, b', h => by
    obtain ⟨v, b₁, s, size, p, b₂, address, b₃, hv, hs, hsize, hp, haddr, rfl⟩ := lowerStmt_store h
    have helem := (lowerExpr_lays hp).append (lowerAddress_lays hs hsize hp haddr)
    exact ((lowerExpr_lays hv).append helem).quiet (.instr _ (by simp) ..)
  | .eval expr, scope, u, b, b', h => by
    obtain ⟨o, ho⟩ := lowerStmt_eval h
    exact lowerExpr_lays ho
  | .cond chain, scope, u, b, b', h => by
    obtain ⟨b₁, hchain, rfl⟩ := lowerStmt_cond h
    exact (Lays.after (.label b) (lowerChain_lays hchain)).quiet (.instr _ (by simp) ..)
  | .loop init test update body, scope, u, b, b', h => by
    obtain ⟨b₁, b₂, b₃, b₄, b₅, start, next, exit, hinit, -, -, -, hb₂, htest, hbody, hupdate, rfl⟩ := lowerStmt_loop h
    have hstart : Quiet b₁.code b₂.code := by
      rw [hb₂]
      have hlabels := ((Quiet.label b₁).trans (.label _)).trans (.label _)
      exact hlabels.trans (.instr _ (by simp) ..)
    have hnext := Lays.after (.instr b₄ (by simp) ..) (lowerStmt_lays hupdate)
    have hround := (lowersTest_lays htest).append ((lowerStmt_lays hbody).append hnext)
    have hall := (lowerStmt_lays hinit).append (Lays.after hstart hround)
    exact (hall.quiet (.instr _ (by simp) ..)).quiet (.instr _ (by simp) ..)
  | .leave, scope, u, b, b', h => by
    obtain ⟨labels, -, rfl⟩ := lowerStmt_leave h
    exact .of_quiet (.instr _ (by simp) ..)
  | .next, scope, u, b, b', h => by
    obtain ⟨labels, -, rfl⟩ := lowerStmt_next h
    exact .of_quiet (.instr _ (by simp) ..)
  | .ret none, scope, u, b, b', h => by
    rw [lowerStmt_ret_none h]
    exact .of_quiet (.instr _ (by simp) ..)
  | .ret (some value), scope, u, b, b', h => by
    obtain ⟨f, v, b₁, -, hv, rfl⟩ := lowerStmt_ret h
    exact ((lowerExpr_lays hv).quiet (.instr _ (by simp) ..)).quiet (.instr _ (by simp) ..)

theorem lowerChain_lays : ∀ {chain : Chain} {scope : Scope} {exit : OperandId} {u : Unit} {b b' : Builder},
    lowerChain scope exit chain b = .ok u b' → Lays scope.symbols chain.accesses b.code b'.code
  | .done, scope, exit, u, b, b', h => by
    simp only [lowerChain] at h
    obtain ⟨-, rfl⟩ := pure_eq_ok.mp h
    exact .refl _
  | .otherwise body, scope, exit, u, b, b', h => by
    simp only [lowerChain] at h
    exact lowerStmt_lays h
  | .arm test body rest, scope, exit, u, b, b', h => by
    cases hrest : rest.isDone with
    | true =>
      obtain ⟨t, b₁, ht, hbody⟩ := lowerChain_last hrest h
      have hempty : rest.accesses = [] := by cases rest <;> first | rfl | cases hrest
      have hall := (lowerExpr_lays ht).append (Lays.after (.instr _ (by simp) ..) (lowerStmt_lays hbody))
      rwa [Chain.accesses, hempty, List.append_nil]
    | false =>
      obtain ⟨t, b₁, b₂, b₃, ht, hbody, hb₃, hchain⟩ := lowerChain_arm hrest h
      have hjump : Quiet b₂.code b₃.code := by
        rw [hb₃]
        split
        · exact .refl _
        · exact .instr _ (by simp) ..
      have harm := Lays.after (.label b) (lowerExpr_lays ht)
      have hthen := (Lays.after (.instr _ (by simp) ..) (lowerStmt_lays hbody)).quiet hjump
      exact harm.append (hthen.append (Lays.after (.instr _ (by simp) ..) (lowerChain_lays hchain)))
end

end Stmt

section Program

variable {symbols : SymbolTable}

theorem lowerParams_quiet {params : List SymbolId} {pos : Nat} {u : Unit} {b b' : Builder}
    (h : lowerParams symbols pos params b = .ok u b') : Quiet b.code b'.code := by
  induction params generalizing pos b with
  | nil =>
    obtain ⟨-, rfl⟩ := pure_eq_ok.mp h
    exact .refl _
  | cons id params ih =>
    obtain ⟨s, b₁, -, rfl, hrest⟩ := lowerParams_cons h
    have hparam := (Quiet.temp b (.param pos)).trans (.symbol _ id s)
    exact (hparam.trans (.instr _ (by simp) ..)).trans (ih hrest)

theorem lowerFunction_lays {id : SymbolId} {params : List SymbolId} {body : Stmt} {u : Unit} {b b' : Builder}
    (h : lowerFunction symbols id params body b = .ok u b') : Lays symbols body.accesses b.code b'.code := by
  obtain ⟨s, b₁, b₂, b₃, -, hb₁, hparams, hbody, hb'⟩ := lowerFunction_eq_ok h
  have hhead : Quiet b.code b₁.code := by
    rw [hb₁]
    exact (Quiet.symbol b id s).trans (.instr _ (by simp) ..)
  have hstart := (hhead.trans (lowerParams_quiet hparams)).trans (.temp b₂ .returnValue)
  have hall := Lays.after hstart (lowerStmt_lays hbody)
  rw [hb']
  split
  · exact hall
  · exact hall.quiet (.instr _ (by simp) ..)

theorem lowerGlobal_accesses {id : SymbolId} {init : Option Expr} {u : Unit} {b b' : Builder}
    (h : lowerGlobal symbols id init b = .ok u b') : init.elim [] Expr.accesses = [] := by
  simp only [lowerGlobal] at h
  cases init with
  | none => rfl
  | some e =>
    cases he : e.word? with
    | none =>
      simp only [he, bind_eq_ok] at h
      obtain ⟨_, _, -, _, _, hthrow, -⟩ := h
      exact absurd hthrow throw_ne_ok
    | some word => cases e <;> first | rfl | cases he

theorem lowerDecls_lays {ds : List Decl} {u : Unit} {b b' : Builder} (h : lowerDecls symbols ds b = .ok u b') :
    Lays symbols (ds.flatMap Decl.accesses) b.code b'.code := by
  induction ds generalizing b with
  | nil =>
    obtain ⟨-, rfl⟩ := pure_eq_ok.mp h
    exact .refl _
  | cons d ds ih =>
    simp only [lowerDecls, bind_eq_ok] at h
    obtain ⟨_, b₁, hd, hds⟩ := h
    rw [List.flatMap_cons]
    refine Lays.append ?_ (ih hds)
    cases d with
    | global id init =>
      rw [lowerGlobal_eq_ok hd, Decl.accesses, lowerGlobal_accesses hd]
      exact .refl _
    | function id params body => exact lowerFunction_lays hd

end Program

theorem Program.lower_lays {p : Program} {l : Lowered} (h : p.lower = .ok l) : Lays p.symbols p.accesses {} l.code := by
  obtain ⟨b, hb, hcode⟩ := lowerProgram_eq_ok h
  rw [hcode]
  exact lowerDecls_lays hb

/-- One address is taken for each access of the program, in the order of evaluation, and no other: it is that of the
array plus a product, which is the index times a number. The number is the bytes of an element as a signed word: the
bytes themselves below `2 ^ 63`, and `2 ^ 64` less from there on. -/
theorem accesses_scale_index_by_signed_element_size {p : Program} {l : Lowered} (h : p.lower = .ok l) :
    List.Forall₂ (fun a i => ∃ s base scale, p.symbols.get? a.array = some s ∧
      l.code.operands.get? base = some (s.operand a.array) ∧ l.code.Scales p.symbols a base scale i ∧
      s.elementBytes < 2 ^ 64 ∧
      scale.toInt = if s.elementBytes < 2 ^ 63 then (s.elementBytes : Int) else s.elementBytes - 2 ^ 64)
      p.accesses (l.code.addressesFrom 0) := by
  have hsound : l.code.Sound p.symbols := by
    obtain ⟨b, hb, hcode⟩ := lowerProgram_eq_ok h
    exact hcode ▸ (lowerDecls_sound hb (.empty p.symbols)).2
  refine (Program.lower_lays h).takes.imp ?_
  rintro a i ⟨s, size, base, hs, hsize, hbase, hscales⟩
  obtain ⟨s', hs', hoperand⟩ := hsound.fresh.interned _ _ hbase
  obtain rfl : s = s' := Option.some.inj (hs.symm.trans hs')
  obtain ⟨rfl, hlt⟩ := Symbol.elementSize?_eq_some hsize
  exact ⟨s, base, _, hs, hoperand, hscales, hlt, toInt_ofNat_of_lt hlt⟩

/-- An access in an index, and one to a symbol that is no array:

    int a[8][4];
    char b[5];
    int f(int i, int n) { a[b[i]] = n[i]; return a[n]; } -/
def depot : Program where
  symbols.symbols := #[
    { name := "f", kind := .function, ty := .function [.int, .int] .int },
    { name := "i", kind := .param, ty := .int },
    { name := "n", kind := .param, ty := .int },
    { name := "a", kind := .globalVar, ty := .array (.array .int 4) 8 },
    { name := "b", kind := .globalVar, ty := .array .char 5 }]
  decls := [.global 3 none, .global 4 none,
    .function 0 [1, 2] (.seq (.store 3 (.index 4 (.name 1 .int) .char) (.index 2 (.name 1 .int) .int))
      (.ret (some (.index 3 (.name 2 .int) .int))))]

/-- The addresses are taken at positions 4, 7, 10 and 13, for elements of 8 bytes, of 1 and twice of 32. -/
theorem depot_scales_by_element_size : ∃ l, depot.lower = .ok l ∧
    depot.accesses.map (fun a => (a.array, (depot.symbols.get? a.array).map Symbol.elementBytes)) =
      [(2, some 8), (4, some 1), (3, some 32), (3, some 32)] ∧
    List.Forall₂ (fun a i => ∃ s base scale, depot.symbols.get? a.array = some s ∧
      l.code.Scales depot.symbols a base scale i ∧ scale.toInt = s.elementBytes) depot.accesses [4, 7, 10, 13] := by
  have hrun : depot.lower.toOption.any (fun l => decide (l.code.addressesFrom 0 = [4, 7, 10, 13])) = true := by
    decide +kernel
  have hsmall : ∀ s ∈ depot.symbols.symbols, s.elementBytes < 2 ^ 63 := by decide
  cases hl : depot.lower with
  | error e => rw [hl] at hrun; cases hrun
  | ok l =>
    rw [hl, Except.toOption, Option.any_some, decide_eq_true_eq] at hrun
    have hall := accesses_scale_index_by_signed_element_size hl
    rw [hrun] at hall
    refine ⟨l, rfl, rfl, hall.imp ?_⟩
    rintro a i ⟨s, base, scale, hs, -, hscales, -, hscale⟩
    exact ⟨s, base, scale, hs, hscales, hscale.trans (if_pos (hsmall s (Array.mem_of_getElem? hs)))⟩

/-- An array whose elements have more bytes than a signed word counts:

    char a[1][9223372036854775808];
    int f(int i) { return a[i]; } -/
def hangar : Program where
  symbols.symbols := #[
    { name := "f", kind := .function, ty := .function [.int] .int },
    { name := "i", kind := .param, ty := .int },
    { name := "a", kind := .globalVar, ty := .array (.array .char (2 ^ 63)) 1 }]
  decls := [.function 0 [1] (.ret (some (.index 2 (.name 1 .int) .int)))]

/-- The index is multiplied by `-2 ^ 63`, and nowhere by the bytes of an element. -/
theorem hangar_scales_backwards : ∃ l s base scale, hangar.lower = .ok l ∧ hangar.symbols.get? 2 = some s ∧
    s.elementBytes = 2 ^ 63 ∧ l.code.Scales hangar.symbols ⟨2, .name 1 .int⟩ base scale 3 ∧ scale.toInt = -2 ^ 63 ∧
    ∀ base scale i, l.code.Scales hangar.symbols ⟨2, .name 1 .int⟩ base scale i → scale.toInt ≠ s.elementBytes := by
  have hrun : hangar.lower.toOption.any (fun l => decide (l.code.addressesFrom 0 = [3])) = true := by
    decide +kernel
  cases hl : hangar.lower with
  | error e => rw [hl] at hrun; cases hrun
  | ok l =>
    rw [hl, Except.toOption, Option.any_some, decide_eq_true_eq] at hrun
    have htakes : List.Forall₂ (l.code.Takes hangar.symbols) [⟨2, .name 1 .int⟩] [3] :=
      hrun ▸ (Program.lower_lays hl).takes
    obtain ⟨⟨s, size, base, hs, hsize, -, hscales⟩, -⟩ := List.forall₂_cons.mp htakes
    obtain ⟨rfl, hlt⟩ := Symbol.elementSize?_eq_some hsize
    have hbytes : s.elementBytes = 2 ^ 63 := by
      have : (hangar.symbols.get? 2).map Symbol.elementBytes = some (2 ^ 63) := rfl
      rw [hs] at this
      exact Option.some.inj this
    refine ⟨l, s, base, _, rfl, hs, hbytes, hscales, ?_, fun _ scale _ _ => ?_⟩
    · rw [toInt_ofNat_of_lt hlt, hbytes]
      rfl
    · have := scale.toInt_lt
      omega

end MiddleEnd
