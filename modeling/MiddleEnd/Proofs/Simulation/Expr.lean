import MiddleEnd.Proofs.Lowering.Extent
import MiddleEnd.Proofs.Lowering.Inversion
import MiddleEnd.Proofs.Source.Order
import Mathlib.Data.List.Forall2

/-! Executing the code of an expression evaluates the expression late, whatever calls do, and writes nothing but
operands that lowering the expression added; it gets stuck just where late evaluation does. Under calls that change
nothing but the memory of arrays it computes the value that the expression has and leaves the variables alone. -/

namespace MiddleEnd

open Builder

/-- What is in `e` beyond `d` is a part of the function that stands from `first` to `last` in `c`. -/
structure Code.Part (c : Code) (first last : Nat) (d e : Code) : Prop where
  first_le : first ≤ d.instrs.size
  le_last : e.instrs.size ≤ last + 1
  grows : e.Grows c

/-- Execution goes through the part, one step for each instruction, and writes only operands that the part added. -/
structure Runs (M : Meaning) (c : Code) (first last : Nat) (d e : Code) (st st' : Virtual) : Prop where
  steps : run (fun _ => .virtual) M c first last (.running d.instrs.size st) (e.instrs.size - d.instrs.size) =
    some (.running e.instrs.size st')
  kept : c.Kept d.operands.size st st'

/-- Execution does not get through the part. -/
def Stuck (M : Meaning) (c : Code) (first last : Nat) (d e : Code) (st : Virtual) : Prop :=
  run (fun _ => .virtual) M c first last (.running d.instrs.size st) (e.instrs.size - d.instrs.size) = none

/-- Execution of the part gets stuck where the computation `r` fails, and else it ends in a state that `Q` relates to
what `r` computes. -/
def Follows {α : Type} (M : Meaning) (c : Code) (first last : Nat) (d e : Code) (st : Virtual) (r : Option α)
    (Q : α → Virtual → Prop) : Prop :=
  match r with
  | none => Stuck M c first last d e st
  | some x => ∃ st', Runs M c first last d e st st' ∧ Q x st'

/-- Execution goes through the part, and changes only the memory of arrays and what the part added. -/
structure Computes (F : Effects) (c : Code) (first last : Nat) (d e : Code) (st st' : Virtual) : Prop where
  moves : Moves F c first last (d.instrs.size, st) (e.instrs.size, st')
  frame : c.Frame d.operands.size st st'

section Part

variable {symbols : SymbolTable} {M : Meaning} {F : Effects} {c d d' e : Code} {first last : Nat}
  {st st' st'' : Virtual} {b : Builder}

theorem Code.Part.left (h : c.Part first last d e) (hd : d'.Grows e) : c.Part first last d d' :=
  ⟨h.first_le, Nat.le_trans hd.size_instrs h.le_last, hd.trans h.grows⟩

theorem Code.Part.right (h : c.Part first last d e) (hd : d.Grows d') : c.Part first last d' e :=
  ⟨Nat.le_trans h.first_le hd.size_instrs, h.le_last, h.grows⟩

theorem run_split (hd : d.Grows e) (he : e.Grows d') (st : Virtual) :
    run (fun _ => .virtual) M c first last (.running d.instrs.size st) (d'.instrs.size - d.instrs.size) =
      (run (fun _ => .virtual) M c first last (.running d.instrs.size st) (e.instrs.size - d.instrs.size)).bind
        fun k => run (fun _ => .virtual) M c first last k (d'.instrs.size - e.instrs.size) := by
  rw [← run_add]
  congr 1
  have := hd.size_instrs
  have := he.size_instrs
  omega

theorem Runs.idle (h : e.instrs = d.instrs) (st : Virtual) : Runs M c first last d e st st :=
  ⟨by rw [h, Nat.sub_self]; rfl, fun _ _ => rfl⟩

theorem Runs.trans (h : Runs M c first last d e st st') (h' : Runs M c first last e d' st' st'') (hd : d.Grows e)
    (he : e.Grows d') : Runs M c first last d d' st st'' := by
  refine ⟨?_, h.kept.trans h'.kept hd.size_operands⟩
  rw [run_split hd he, h.steps]
  exact h'.steps

theorem Stuck.left (h : Stuck M c first last d e st) (hd : d.Grows e) (he : e.Grows d') :
    Stuck M c first last d d' st := by
  rw [Stuck, run_split hd he, h]
  rfl

section Follows

variable {α β : Type} {r : Option α} {Q : α → Virtual → Prop} {Q' : β → Virtual → Prop}

theorem Runs.follows (h : Runs M c first last d e st st') (h' : Follows M c first last e d' st' r Q) (hd : d.Grows e)
    (he : e.Grows d') : Follows M c first last d d' st r Q := by
  cases r with
  | none =>
    rw [Follows, Stuck, run_split hd he, h.steps]
    exact h'
  | some x =>
    obtain ⟨st'', hrun, hQ⟩ := h'
    exact ⟨st'', h.trans hrun hd he, hQ⟩

theorem Follows.bind {k : α → Option β} (h : Follows M c first last d e st r Q) (hd : d.Grows e) (he : e.Grows d')
    (hk : ∀ x st', Runs M c first last d e st st' → Q x st' → Follows M c first last e d' st' (k x) Q') :
    Follows M c first last d d' st (r.bind k) Q' := by
  cases r with
  | none => exact Stuck.left h hd he
  | some x =>
    obtain ⟨st', hrun, hQ⟩ := h
    exact hrun.follows (hk x st' hrun hQ) hd he

theorem Follows.map {g : α → β} (h : Follows M c first last d e st r Q) (hQ : ∀ x st', Q x st' → Q' (g x) st') :
    Follows M c first last d e st (r.bind fun x => some (g x)) Q' := by
  cases r with
  | none => exact h
  | some x =>
    obtain ⟨st', hrun, hx⟩ := h
    exact ⟨st', hrun, hQ x st' hx⟩

end Follows

theorem Runs.computes (h : Runs F c first last d e st st') (hglobals : st'.world.globals = st.world.globals) :
    Computes F c first last d e st st' := ⟨moves_of_run h.steps, hglobals, h.kept⟩

variable {op : Opcode} {result left right : Option OperandId} {args : List OperandId} {tag : Tag}

theorem Code.Part.fetch (h : c.Part first last b.code (b.withInstr op result left right args).code) :
    c.fetch first last b.code.instrs.size = some (b.instr op result left right args) := by
  have hlast := h.le_last
  rw [size_withInstr] at hlast
  refine Code.fetch_eq_some.mpr ⟨h.first_le, by omega, h.grows.instrs _ _ ?_⟩
  exact (Code.getElem?_addInstr _ _ _).trans (if_pos rfl)

theorem temp_of_grows (h : (b.withTemp tag).code.Grows c) : c.operands.isValue b.code.operands.size = true ∧
    c.operands.symbol? b.code.operands.size = none := by
  have hget := h.operands b.code.operands.size _ ((Code.get?_addOperand _ _ _).trans (if_pos rfl))
  exact ⟨by rw [Arena.isValue, hget]; rfl, by rw [Arena.symbol?, hget]; rfl⟩

theorem word_of_int {v : Int64} (h : (b.withInt v).code.Grows c) : c.word st b.code.operands.size = some v := by
  have hget := h.operands b.code.operands.size _ ((Code.get?_addOperand _ _ _).trans (if_pos rfl))
  simp [Code.word, Storage.word, hget]

theorem symbol_of_grows (hc : c.Sound symbols) {id : SymbolId} {s : Symbol} (h : (b.withSymbol id s).code.Grows c) :
    c.operands.symbol? (b.code.operands.symbol id s).1 = some id := by
  obtain ⟨t, -, hget⟩ := hc.fresh.interned id _ (h.interned id _ (b.code.operands.interned_symbol id s))
  rw [Arena.symbol?, hget]
  rfl

/-- While only new operands are written and `P` holds of the world, an operand holds what the reading says. -/
def Code.Stands (c : Code) (P : World → Prop) (n : Nat) (st : Virtual) (y : OperandId) (f : Reading) : Prop :=
  c.Old n y ∧ ∀ st' : Virtual, c.Kept n st st' → P st'.world → c.word st' y = some (f st'.world)

theorem Code.Stands.word {P : World → Prop} {n : Nat} {y : OperandId} {f : Reading} (h : c.Stands P n st y f)
    (hst : P st.world) : c.word st y = some (f st.world) := h.2 st (fun _ _ => rfl) hst

theorem Code.Stands.kept {P : World → Prop} {n n' : Nat} {y : OperandId} {f : Reading} (h : c.Stands P n st y f)
    (hk : c.Kept n st st') (hn : n ≤ n') : c.Stands P n' st' y f :=
  ⟨h.1.mono hn, fun st'' hk' hP => h.2 st'' (hk.trans hk' hn) hP⟩

theorem follows_temp {α : Type} {r : Option α} {w : α → World} {v : α → Word} (P : World → Prop)
    (hp : c.Part first last b.code ((b.withTemp tag).withInstr op (some b.code.operands.size) left right args).code)
    (hstep : c.fetch first last b.code.instrs.size =
        some ((b.withTemp tag).instr op (some b.code.operands.size) left right args) →
      M.step c first last b.code.instrs.size st = r.bind fun x =>
        Storage.virtual.finish c b.code.instrs.size { st with world := w x } (some b.code.operands.size) (v x)) :
    Follows M c first last b.code ((b.withTemp tag).withInstr op (some b.code.operands.size) left right args).code st
      r fun x st' => st'.world = w x ∧
        c.Stands P ((b.withTemp tag).withInstr op (some b.code.operands.size) left right args).code.operands.size
          st' b.code.operands.size fun _ => v x := by
  have htemp : (b.withTemp tag).code.Grows c := (Code.grows_addInstr _ _).trans hp.grows
  obtain ⟨hval, hsymbol⟩ := temp_of_grows htemp
  have hfetch := Code.Part.fetch (hp.right (Code.grows_addOperand _ _))
  have hstep := hstep hfetch
  have hsize : ((b.withTemp tag).withInstr op (some b.code.operands.size) left right args).code.instrs.size =
      b.code.instrs.size + 1 := size_withInstr ..
  have hold : c.Old ((b.withTemp tag).withInstr op (some b.code.operands.size) left right args).code.operands.size
      b.code.operands.size := Or.inl ((Code.size_addOperand _ _).symm ▸ Nat.lt_succ_self _)
  cases r with
  | none =>
    rw [Follows, Stuck, hsize, Nat.add_sub_cancel_left]
    exact hstep
  | some x =>
    refine ⟨State.set { st with world := w x } b.code.operands.size (v x),
      ⟨?_, kept_set (Nat.le_refl _) hsymbol _⟩, rfl, hold, fun st' hk _ => ?_⟩
    · rw [hsize, Nat.add_sub_cancel_left]
      exact hstep.trans (finish_value hval)
    · rw [word_of_value hval, hk _ hold]
      exact congrArg some (Function.update_self ..)

theorem runs_temp {v : Word} (P : World → Prop)
    (hp : c.Part first last b.code ((b.withTemp tag).withInstr op (some b.code.operands.size) left right args).code)
    (hstep : c.fetch first last b.code.instrs.size =
        some ((b.withTemp tag).instr op (some b.code.operands.size) left right args) →
      M.step c first last b.code.instrs.size st =
        Storage.virtual.finish c b.code.instrs.size st (some b.code.operands.size) v) :
    ∃ st', Runs M c first last b.code
        ((b.withTemp tag).withInstr op (some b.code.operands.size) left right args).code st st' ∧
      st'.world = st.world ∧
      c.Stands P ((b.withTemp tag).withInstr op (some b.code.operands.size) left right args).code.operands.size
        st' b.code.operands.size fun _ => v :=
  follows_temp (r := some v) (w := fun _ => st.world) (v := fun x => x) P hp hstep

end Part

section Expr

variable {symbols : SymbolTable} {M : Meaning} {P : World → Prop} {read : SymbolId → Reading} {c : Code}
  {first last : Nat}

theorem mapM_word {n : Nat} {st : Virtual} {ys : List OperandId} {fs : List Reading}
    (h : List.Forall₂ (c.Stands P n st) ys fs) (hst : P st.world) :
    ys.mapM (c.word st) = some (fs.map (· st.world)) := by
  induction h with
  | nil => rfl
  | cons hf _ ih => simp [List.mapM_cons, hf.word hst, ih]

theorem marshal_runs (M : Meaning) {values : List OperandId} {b b' : Builder} {pos : Nat} {args : List OperandId}
    {fs : List Reading} {st : Virtual} (h : marshal pos values b = .ok args b') (hp : c.Part first last b.code b'.code)
    (hfs : List.Forall₂ (c.Stands P b.code.operands.size st) values fs) (hst : P st.world) :
    ∃ st', Runs M c first last b.code b'.code st st' ∧ st'.world = st.world ∧
      List.Forall₂ (c.Stands P b'.code.operands.size st') args (fs.map fun f _ => f st.world) := by
  induction values generalizing pos b args fs st with
  | nil =>
    cases hfs
    obtain ⟨rfl, rfl⟩ := marshal_nil h
    exact ⟨st, .idle rfl st, rfl, .nil⟩
  | cons value values ih =>
    cases hfs with
    | @cons _ f _ fs hf hfs =>
      obtain ⟨rest, rfl, hrest⟩ := marshal_cons h
      have hgrows := adds_marshal _ _ hrest
      obtain ⟨st₁, hrun, hworld₁, hstand⟩ := runs_temp (M := M) P (hp.left hgrows) fun hz =>
        step_copy hz (Or.inr ⟨pos, Or.inl rfl⟩) rfl (hf.word hst)
      have htemp := grows_temp b (.arg pos) (.arg pos) (some b.code.operands.size) (some value) none []
      have hvalues := List.Forall₂.imp (fun _ _ hg => Code.Stands.kept hg hrun.kept htemp.size_operands) hfs
      obtain ⟨st', hrun', hworld, hargs⟩ := ih hrest (hp.right htemp) hvalues (hworld₁ ▸ hst)
      rw [hworld₁] at hworld hargs
      exact ⟨st', hrun.trans hrun' htemp hgrows, hworld, .cons (hstand.kept hrun'.kept hgrows.size_operands) hargs⟩

theorem lowerCall_follows (hc : c.Sound symbols) {callee : SymbolId} {values : List OperandId} {ty : Ty}
    {o : Option OperandId} {b b' : Builder} {fs : List Reading} {st : Virtual}
    (h : lowerCall symbols callee values ty b = .ok o b') (hp : c.Part first last b.code b'.code)
    (hfs : List.Forall₂ (c.Stands P b.code.operands.size st) values fs) (hst : P st.world) :
    Follows M c first last b.code b'.code st (M.call callee (fs.map (· st.world)) st.world) fun r st' =>
      st'.world = r.2 ∧
        Option.Rel (c.Stands P b'.code.operands.size st') o (if ty = .void then none else some fun _ => r.1) := by
  -- once marshalled, the arguments are the words of the values
  have hargs : ∀ {args : List OperandId} {n : Nat} {st₁ : Virtual}, st₁.world = st.world →
      List.Forall₂ (c.Stands P n st₁) args (fs.map fun f _ => f st.world) →
      args.mapM (c.word st₁) = some (fs.map (· st.world)) := by
    intro args n st₁ hworld hstand
    rw [mapM_word hstand (hworld ▸ hst), List.map_map]
    rfl
  by_cases hty : ty = .void
  · obtain ⟨args, b₁, s, hmarshal, hs, rfl, hb'⟩ := lowerCall_void hty h
    rw [hb'] at hp ⊢
    have hgrows : b.code.Grows b₁.code := adds_marshal _ _ hmarshal
    have hsym : b₁.code.Grows (b₁.withSymbol callee s).code := Code.grows_addSymbol _ _ _
    have hcall := grows_withInstr (b₁.withSymbol callee s)
      .call none (some (b₁.code.operands.symbol callee s).1) none args
    obtain ⟨st₁, hrun, hworld, hstand⟩ := marshal_runs M hmarshal (hp.left (hsym.trans hcall)) hfs hst
    have hidle : Runs M c first last b₁.code (b₁.withSymbol callee s).code st₁ st₁ := .idle (by rfl) st₁
    have hfetch := Code.Part.fetch (hp.right (hgrows.trans hsym))
    have hstep := step_call (M := M) hfetch rfl rfl (symbol_of_grows hc (hcall.trans hp.grows)) (hargs hworld hstand)
    rw [hworld] at hstep
    refine hrun.follows (hidle.follows ?_ hsym hcall) hgrows (hsym.trans hcall)
    cases hv : M.call callee (fs.map (· st.world)) st.world with
    | none =>
      rw [Follows, Stuck, size_withInstr, Nat.add_sub_cancel_left]
      rw [hv] at hstep
      exact hstep
    | some r =>
      rw [hv] at hstep
      refine ⟨{ st₁ with world := r.2 }, ⟨?_, fun _ _ => rfl⟩, rfl, ?_⟩
      · rw [size_withInstr, Nat.add_sub_cancel_left]
        exact hstep
      · rw [if_pos hty]
        exact .none
  · obtain ⟨args, b₁, s, b₂, b₃, hmarshal, hs, hb₂, hb₃, rfl, hb'⟩ := lowerCall_value hty h
    rw [hb'] at hp ⊢
    have hgrows : b.code.Grows b₁.code := adds_marshal _ _ hmarshal
    have hsym : b₁.code.Grows b₂.code := hb₂ ▸ Code.grows_addSymbol _ _ _
    have hcall : b₂.code.Grows b₃.code := hb₃ ▸ grows_temp ..
    have hcopy := grows_temp b₃ .copy .assign (some b₃.code.operands.size) (some b₂.code.operands.size) none []
    obtain ⟨st₁, hrun, hworld, hstand⟩ := marshal_runs M hmarshal (hp.left (hsym.trans (hcall.trans hcopy))) hfs hst
    have htarget : c.operands.symbol? (b₁.code.operands.symbol callee s).1 = some callee :=
      symbol_of_grows hc (hb₂ ▸ (hcall.trans (hcopy.trans hp.grows)))
    have hidle : Runs M c first last b₁.code b₂.code st₁ st₁ := .idle (hb₂ ▸ rfl) st₁
    have hpcall : c.Part first last b₂.code b₃.code := (hp.left hcopy).right (hgrows.trans hsym)
    subst hb₃
    refine hrun.follows (hidle.follows ?_ hsym (hcall.trans hcopy)) hgrows (hsym.trans (hcall.trans hcopy))
    have hcalled := follows_temp (M := M) (fun _ => True) hpcall fun hz =>
      step_call hz rfl rfl htarget (hargs hworld hstand)
    rw [hworld] at hcalled
    rw [← Option.bind_fun_some (M.call callee _ st.world)]
    refine hcalled.bind hcall hcopy ?_
    rintro r st₂ - ⟨hworld₂, hreturned⟩
    obtain ⟨st₃, hrun₃, hworld₃, hcopied⟩ := runs_temp (M := M) P (hp.right (hgrows.trans (hsym.trans hcall)))
      fun hz => step_copy hz (Or.inl rfl) rfl (hreturned.word trivial)
    refine ⟨st₃, hrun₃, hworld₃.trans hworld₂, ?_⟩
    rw [if_neg hty]
    exact .some hcopied

theorem lowerAddress_follows (hc : c.Sound symbols) {array : SymbolId} {size : Nat} {pos address : OperandId}
    {b b' : Builder} {st : Virtual} {f : Reading} (h : lowerAddress symbols array size pos b = .ok address b')
    (hp : c.Part first last b.code b'.code) (hf : c.Stands P b.code.operands.size st pos f) (hst : P st.world) :
    Follows M c first last b.code b'.code st (M.binary (.arith .mul) (f st.world) (Int64.ofNat size)) fun offset st' =>
      st'.world = st.world ∧ c.Stands P b'.code.operands.size st' address fun _ => M.base array + offset := by
  obtain ⟨s, b₁, b₂, hs, hb₁, hb₂, rfl, rfl⟩ := lowerAddress_eq_ok h
  have hint : b.code.Grows (b.withInt (Int64.ofNat size)).code := Code.grows_addOperand _ _
  have hmul : (b.withInt (Int64.ofNat size)).code.Grows b₁.code := hb₁ ▸ grows_temp ..
  have hsym : b₁.code.Grows b₂.code := hb₂ ▸ Code.grows_addSymbol _ _ _
  have haddr := grows_temp b₂ .address .address (some b₂.code.operands.size) (some (b₁.code.operands.symbol array s).1)
    (some (b.withInt (Int64.ofNat size)).code.operands.size) []
  have hscale : c.word st b.code.operands.size = some (Int64.ofNat size) :=
    word_of_int (hmul.trans (hsym.trans (haddr.trans hp.grows)))
  have hbase : c.operands.symbol? (b₁.code.operands.symbol array s).1 = some array :=
    symbol_of_grows hc (hb₂ ▸ (haddr.trans hp.grows))
  have hidle : b₂.code.instrs = b₁.code.instrs := hb₂ ▸ rfl
  have hpmul := (hp.left (hsym.trans haddr)).right hint
  have hpaddr := hp.right (hint.trans (hmul.trans hsym))
  subst hb₁
  refine Runs.follows (.idle (by rfl) st) ?_ hint (hmul.trans (hsym.trans haddr))
  have hscaled := follows_temp (M := M) (w := fun _ => st.world) P hpmul fun hz =>
    step_binary hz rfl rfl rfl (hf.word hst) hscale
  rw [← Option.bind_fun_some (M.binary _ _ _)]
  refine hscaled.bind hmul (hsym.trans haddr) ?_
  rintro offset st₁ - ⟨hworld₁, hstand₁⟩
  obtain ⟨st₂, hrun₂, hworld₂, hstand₂⟩ := runs_temp (M := M) P hpaddr fun hz =>
    step_address hz rfl rfl hbase rfl (hstand₁.word (hworld₁ ▸ hst))
  exact ⟨st₂, Runs.trans (.idle hidle _) hrun₂ hsym haddr, hworld₂.trans hworld₁, hstand₂⟩

/-- The operands of symbols hold what the symbols read as. -/
def Code.Reads (c : Code) (P : World → Prop) (read : SymbolId → Reading) (st : Virtual) : Prop :=
  ∀ y id, c.operands.symbol? y = some id → c.Stands P 0 st y (read id)

theorem Code.Reads.kept {n : Nat} {st st' : Virtual} (h : c.Reads P read st) (hk : c.Kept n st st') :
    c.Reads P read st' :=
  fun y id hy => (h y id hy).kept (fun x hx => hk x (hx.mono (Nat.zero_le n))) (Nat.le_refl 0)

/-- The state that evaluating an expression whose operand is `o` ends in. -/
def Code.Evaluated (c : Code) (P : World → Prop) (n : Nat) (o : Option OperandId) (r : Option Reading × World)
    (st : Virtual) : Prop :=
  st.world = r.2 ∧ P r.2 ∧ Option.Rel (c.Stands P n st) o r.1

mutual
/-- Executing the code of an expression evaluates the expression late. -/
theorem lowerExpr_follows (hc : c.Sound symbols)
    (hP : ∀ id vs w v w', M.call id vs w = some (v, w') → P w → P w') : ∀ (e : Expr) {b b' : Builder}
    {o : Option OperandId} {st : Virtual}, lowerExpr symbols e b = .ok o b' → c.Part first last b.code b'.code →
    c.Reads P read st → P st.world → Follows M c first last b.code b'.code st (e.late M symbols read st.world)
      (c.Evaluated P b'.code.operands.size o)
  | .literal lit ty, b, b', o, st, h, hp, hst, hw => by
    obtain ⟨rfl, rfl⟩ := lowerExpr_literal h
    refine ⟨st, .idle (by rfl) st, rfl, hw, .some ⟨Or.inl ?_, fun st' _ _ => word_of_int hp.grows⟩⟩
    exact (Code.size_addOperand _ _).symm ▸ Nat.lt_succ_self _
  | .name id ty, b, b', o, st, h, hp, hst, hw => by
    obtain ⟨s, hs, rfl, rfl⟩ := lowerExpr_name h
    have hstand := hst _ id (symbol_of_grows hc hp.grows)
    exact ⟨st, .idle (by rfl) st, rfl, hw, .some (hstand.kept (fun _ _ => rfl) (Nat.zero_le _))⟩
  | .binary op lhs rhs ty, b, b', o, st, h, hp, hst, hw => by
    obtain ⟨l, b₁, r, b₂, hl, hr, rfl, rfl⟩ := lowerExpr_binary h
    have hg₁ := adds_lowerExpr symbols lhs hl
    have hg₂ := adds_lowerExpr symbols rhs hr
    have hg₃ := grows_temp b₂ (.binary op) (.binary op) (some b₂.code.operands.size) (some l) (some r) []
    refine (lowerExpr_follows hc hP lhs hl (hp.left (hg₂.trans hg₃)) hst hw).bind hg₁ (hg₂.trans hg₃) ?_
    rintro ⟨_, _⟩ st₁ hrun₁ ⟨rfl, hw₁, hleft⟩
    cases hleft with | some hleft
    refine (lowerExpr_follows hc hP rhs hr ((hp.left hg₃).right hg₁) (hst.kept hrun₁.kept) hw₁).bind hg₂ hg₃ ?_
    rintro ⟨_, _⟩ st₂ hrun₂ ⟨rfl, hw₂, hright⟩
    cases hright with | some hright
    -- the left operand is read after the right one has been evaluated
    have hleft := (hleft.kept hrun₂.kept hg₂.size_operands).word hw₂
    have htemp := follows_temp (M := M) (w := fun _ => st₂.world) P (hp.right (hg₁.trans hg₂)) fun hfetch =>
      step_binary hfetch rfl rfl rfl hleft (hright.word hw₂)
    exact htemp.map fun z st₃ h => ⟨h.1, hw₂, .some h.2⟩
  | .unary op arg ty, b, b', o, st, h, hp, hst, hw => by
    obtain ⟨a, b₁, ha, rfl, rfl⟩ := lowerExpr_unary h
    have hg₁ := adds_lowerExpr symbols arg ha
    have hg₂ := grows_temp b₁ (.unary op) (.unary op) (some b₁.code.operands.size) (some a) none []
    refine (lowerExpr_follows hc hP arg ha (hp.left hg₂) hst hw).bind hg₁ hg₂ ?_
    rintro ⟨_, _⟩ st₁ - ⟨rfl, hw₁, harg⟩
    cases harg with | some harg
    have htemp := follows_temp (M := M) (w := fun _ => st₁.world) P (hp.right hg₁) fun hfetch =>
      step_unary hfetch rfl rfl (harg.word hw₁)
    exact htemp.map fun z st₂ h => ⟨h.1, hw₁, .some h.2⟩
  | .call callee args ty, b, b', o, st, h, hp, hst, hw => by
    obtain ⟨values, b₁, hvalues, hcall⟩ := lowerExpr_call h
    have hg₁ := adds_lowerArgs symbols args hvalues
    have hg₂ := adds_lowerCall symbols callee values ty hcall
    refine (lowerArgs_follows hc hP args hvalues (hp.left hg₂) hst hw).bind hg₁ hg₂ ?_
    rintro ⟨fs, _⟩ st₁ - ⟨rfl, hw₁, hstand⟩
    have hcalled := lowerCall_follows (M := M) hc hcall (hp.right hg₁) hstand hw₁
    show Follows M c first last _ _ st₁ ((M.call callee (fs.map (· st₁.world)) st₁.world).bind _) _
    cases hv : M.call callee (fs.map (· st₁.world)) st₁.world with
    | none =>
      rw [hv] at hcalled
      exact hcalled
    | some r =>
      rw [hv] at hcalled
      obtain ⟨st₂, hrun₂, hworld, hrel⟩ := hcalled
      exact ⟨st₂, hrun₂, hworld, hP _ _ _ _ _ hv hw₁, hrel⟩
  | .index array pos ty, b, b', o, st, h, hp, hst, hw => by
    obtain ⟨s, size, p, b₁, address, b₂, hs, hsize, hpos, haddr, rfl, rfl⟩ := lowerExpr_index h
    have hg₁ := adds_lowerExpr symbols pos hpos
    have hg₂ := adds_lowerAddress symbols array size p haddr
    have hg₃ := grows_temp b₂ .load .load (some b₂.code.operands.size) (some address) none []
    refine (lowerExpr_follows hc hP pos hpos (hp.left (hg₂.trans hg₃)) hst hw).bind hg₁ (hg₂.trans hg₃) ?_
    rintro ⟨_, _⟩ st₁ - ⟨rfl, hw₁, hindex⟩
    cases hindex with | @some _ f hindex
    have helement := lowerAddress_follows (M := M) hc haddr ((hp.left hg₃).right hg₁) hindex hw₁
    show Follows M c first last _ _ st₁ ((M.element symbols array (f st₁.world)).bind _) _
    rw [Operators.element_eq hs hsize, Option.map_eq_bind, Option.bind_assoc]
    refine helement.bind hg₂ hg₃ ?_
    rintro offset st₂ - ⟨hworld₂, hstand⟩
    obtain ⟨st₃, hrun₃, hworld₃, hloaded⟩ := runs_temp (M := M) P (hp.right (hg₁.trans hg₂)) fun hfetch =>
      step_load hfetch rfl rfl (hstand.word (hworld₂ ▸ hw₁))
    rw [hworld₂] at hloaded
    exact ⟨st₃, hrun₃, hworld₃.trans hworld₂, hw₁, .some hloaded⟩

theorem lowerArgs_follows (hc : c.Sound symbols)
    (hP : ∀ id vs w v w', M.call id vs w = some (v, w') → P w → P w') : ∀ (es : List Expr) {b b' : Builder}
    {ys : List OperandId} {st : Virtual}, lowerArgs symbols es b = .ok ys b' → c.Part first last b.code b'.code →
    c.Reads P read st → P st.world → Follows M c first last b.code b'.code st
      (Expr.lateAll M symbols read es st.world) fun r st' =>
        st'.world = r.2 ∧ P r.2 ∧ List.Forall₂ (c.Stands P b'.code.operands.size st') ys r.1
  | [], b, b', ys, st, h, hp, hst, hw => by
    obtain ⟨rfl, rfl⟩ := lowerArgs_nil h
    exact ⟨st, .idle rfl st, rfl, hw, .nil⟩
  | e :: es, b, b', ys, st, h, hp, hst, hw => by
    obtain ⟨y, b₁, ys', rfl, hy, hys⟩ := lowerArgs_cons h
    have hg₁ := adds_lowerExpr symbols e hy
    have hg₂ := adds_lowerArgs symbols es hys
    refine (lowerExpr_follows hc hP e hy (hp.left hg₂) hst hw).bind hg₁ hg₂ ?_
    rintro ⟨_, _⟩ st₁ hrun₁ ⟨rfl, hw₁, harg⟩
    cases harg with | @some _ f harg
    have hrest := lowerArgs_follows hc hP es hys (hp.right hg₁) (hst.kept hrun₁.kept) hw₁
    show Follows M c first last _ _ st₁ ((Expr.lateAll M symbols read es st₁.world).bind _) _
    cases hfs : Expr.lateAll M symbols read es st₁.world with
    | none =>
      rw [hfs] at hrest
      exact hrest
    | some r =>
      rw [hfs] at hrest
      obtain ⟨st₂, hrun₂, hworld, hw₂, hstand⟩ := hrest
      exact ⟨st₂, hrun₂, hworld, hw₂, .cons (harg.kept hrun₂.kept hg₂.size_operands) hstand⟩
end

end Expr

/-! ### Calls that change nothing but the memory of arrays -/

section Effects

variable {symbols : SymbolTable} {F : Effects} {c : Code} {first last : Nat} {vars : SymbolId → Word}

/-- The operand of an expression, if it has a value, holds it. -/
def Code.Yields (c : Code) (n : Nat) (st : Virtual) (o : Option OperandId) (v : Option Word) : Prop :=
  ∀ w, v = some w → ∃ y, o = some y ∧ c.Gives n st y w

theorem Code.Yields.gives {n : Nat} {st : Virtual} {y : OperandId} {w : Word} (h : c.Yields n st (some y) (some w)) :
    c.Gives n st y w := by
  obtain ⟨x, hx, hg⟩ := h w rfl
  cases hx
  exact hg

theorem Code.Gives.stands {n : Nat} {st : Virtual} {y : OperandId} {v : Word} (h : c.Gives n st y v) :
    c.Stands (fun w => w.globals = st.world.globals) n st y fun _ => v :=
  ⟨h.1, fun _ hk hglobals => (word_congr hglobals (hk y h.1)).trans h.2⟩

theorem Code.Holds.reads {s : Store} {st : Virtual} (h : c.Holds s st) :
    c.Reads (fun w => w.globals = st.world.globals) (fun id _ => s.vars id) st :=
  fun y id hy => Code.Gives.stands ⟨Or.inr ⟨id, hy⟩, h.vars y id hy⟩

theorem Effects.meaning_globals (F : Effects) (g : SymbolId → Word) (id : SymbolId) (vs : List Word) (w : World)
    (v : Word) (w' : World) (h : F.meaning.call id vs w = some (v, w')) (hw : w.globals = g) : w'.globals = g := by
  obtain ⟨r, -, hr⟩ := Option.map_eq_some_iff.mp h
  cases hr
  exact hw

theorem lowerExpr_computes (hc : c.Sound symbols) (e : Expr) {b b' : Builder} {o : Option OperandId}
    {st : Virtual} {v : Option Word} {m : Memory} (h : lowerExpr symbols e b = .ok o b')
    (hp : c.Part first last b.code b'.code) (hst : c.Holds ⟨vars, st.world.memory⟩ st)
    (hv : e.eval F symbols vars st.world.memory = some (v, m)) :
    ∃ st', Computes F c first last b.code b'.code st st' ∧ st'.world.memory = m ∧
      c.Yields b'.code.operands.size st' o v := by
  have hfollows := lowerExpr_follows (M := F) hc (F.meaning_globals st.world.globals) e h hp hst.reads rfl
  rw [Expr.late_of_eval st.world.globals e hv] at hfollows
  obtain ⟨st', hrun, hworld, -, hrel⟩ := hfollows
  have hglobals : st'.world.globals = st.world.globals := by rw [hworld]
  refine ⟨st', hrun.computes hglobals, by rw [hworld], ?_⟩
  rintro x rfl
  cases hrel with
  | @some y _ hstand => exact ⟨y, rfl, hstand.1, hstand.word hglobals⟩

theorem lowerAddress_computes (hc : c.Sound symbols) {array : SymbolId} {size : Nat} {pos address : OperandId}
    {b b' : Builder} {st : Virtual} {i offset : Word} (h : lowerAddress symbols array size pos b = .ok address b')
    (hp : c.Part first last b.code b'.code) (hpos : c.Gives b.code.operands.size st pos i)
    (hoffset : F.binary (.arith .mul) i (Int64.ofNat size) = some offset) :
    ∃ st', Computes F c first last b.code b'.code st st' ∧ st'.world.memory = st.world.memory ∧
      c.Gives b'.code.operands.size st' address (F.base array + offset) := by
  have hfollows := lowerAddress_follows (M := F) hc h hp hpos.stands rfl
  rw [show F.meaning.binary (.arith .mul) i (Int64.ofNat size) = some offset from hoffset] at hfollows
  obtain ⟨st', hrun, hworld, hstand⟩ := hfollows
  have hglobals : st'.world.globals = st.world.globals := by rw [hworld]
  exact ⟨st', hrun.computes hglobals, by rw [hworld], hstand.1, hstand.word hglobals⟩

end Effects

end MiddleEnd
