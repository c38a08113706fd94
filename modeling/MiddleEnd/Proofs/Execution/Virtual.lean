import MiddleEnd.Proofs.Execution.Machine
import MiddleEnd.Proofs.Lowering.Sound
import Mathlib.Logic.Relation

/-! Execution with a variable for every value: what each instruction does, what an execution leaves alone, and
how its state stands for a store. -/

namespace MiddleEnd

/-- Calls as execution sees them. -/
def Effects.meaning (F : Effects) : Meaning where
  toOperators := F.toOperators
  call id args w := (F.call id args w.memory).map fun r => (r.1, { w with memory := r.2 })

abbrev Virtual := State (OperandId → Word)

/-- The word that an operand holds. -/
abbrev Code.word (c : Code) (st : Virtual) (y : OperandId) : Option Word := Storage.virtual.word c st y

/-- The instruction at a position, executed. -/
abbrev Meaning.step (M : Meaning) (c : Code) (first last pc : Nat) (st : Virtual) :
    Option (Config (OperandId → Word)) :=
  Storage.virtual.step M c first last pc st

/-- The instruction at a position, executed under calls that change nothing but the memory of arrays. -/
abbrev Effects.step (F : Effects) (c : Code) (first last pc : Nat) (st : Virtual) :
    Option (Config (OperandId → Word)) :=
  Storage.virtual.step F.meaning c first last pc st

instance : Coe Effects Meaning := ⟨Effects.meaning⟩

/-- Execution goes from one place and state to another. -/
def Moves (M : Meaning) (c : Code) (first last : Nat) : Nat × Virtual → Nat × Virtual → Prop :=
  Relation.ReflTransGen fun k k' => M.step c first last k.1 k.2 = some (.running k'.1 k'.2)

section Step

variable {M : Meaning} {c : Code} {first last pc : Nat} {st : Virtual} {z : Instr} {x y : OperandId} {v w : Word}

theorem Moves.refl (k : Nat × Virtual) : Moves M c first last k k := Relation.ReflTransGen.refl

theorem Moves.trans {k k' k'' : Nat × Virtual} (h : Moves M c first last k k') (h' : Moves M c first last k' k'') :
    Moves M c first last k k'' := Relation.ReflTransGen.trans h h'

theorem Moves.single {pc' : Nat} {st' : Virtual} (h : M.step c first last pc st = some (.running pc' st')) :
    Moves M c first last (pc, st) (pc', st') := Relation.ReflTransGen.single h

theorem run_add (M : Meaning) (c : Code) (first last : Nat) (k : Config (OperandId → Word)) (m n : Nat) :
    run (fun _ => .virtual) M c first last k (m + n) =
      (run (fun _ => .virtual) M c first last k m).bind fun k' => run (fun _ => .virtual) M c first last k' n := by
  induction n with
  | zero => exact (Option.bind_fun_some _).symm
  | succ n ih =>
    rw [← Nat.add_assoc, run, ih, Option.bind_eq_bind, Option.bind_assoc]
    rfl

theorem moves_of_run {n pc' : Nat} {st' : Virtual}
    (h : run (fun _ => .virtual) M c first last (.running pc st) n = some (.running pc' st')) :
    Moves M c first last (pc, st) (pc', st') := by
  induction n generalizing pc' st' with
  | zero =>
    cases h
    exact .refl _
  | succ n ih =>
    rw [run, Option.bind_eq_bind, Option.bind_eq_some_iff] at h
    obtain ⟨k, hk, h⟩ := h
    cases k with
    | running pc₁ st₁ => exact (ih hk).trans (.single h)
    | returned v w => cases h

theorem Moves.exists_run {k k' : Nat × Virtual} (h : Moves M c first last k k') :
    ∃ n, run (fun _ => .virtual) M c first last (.running k.1 k.2) n = some (.running k'.1 k'.2) := by
  induction h with
  | refl => exact ⟨0, rfl⟩
  | tail _ hstep ih =>
    obtain ⟨n, hn⟩ := ih
    exact ⟨n + 1, by rw [run, hn]; exact hstep⟩

theorem step_copy (hz : c.fetch first last pc = some z) (hop : z.op = .assign ∨ ∃ k, z.op = .arg k ∨ z.op = .param k)
    (hl : z.left = some x) (hx : c.word st x = some v) :
    M.step c first last pc st = Storage.virtual.finish c pc st z.result v := by
  rcases hop with hop | ⟨k, hop | hop⟩ <;> simp [Meaning.step, Storage.step, hz, hop, hl, hx]

theorem step_unary {op : UnaryOp} (hz : c.fetch first last pc = some z) (hop : z.op = .unary op)
    (hl : z.left = some x) (hx : c.word st x = some v) :
    M.step c first last pc st = (M.unary op v).bind (Storage.virtual.finish c pc st z.result) := by
  simp [Meaning.step, Storage.step, hz, hop, hl, hx]

theorem step_binary {op : BinaryOp} (hz : c.fetch first last pc = some z) (hop : z.op = .binary op)
    (hl : z.left = some x) (hr : z.right = some y) (hx : c.word st x = some v) (hy : c.word st y = some w) :
    M.step c first last pc st = (M.binary op v w).bind (Storage.virtual.finish c pc st z.result) := by
  have hsame : Storage.virtual.overwrite (.binary op) st.values = st.values := rfl
  simp [Meaning.step, Storage.step, hz, hop, hl, hr, hx, hsame, hy]

theorem step_address {id : SymbolId} (hz : c.fetch first last pc = some z) (hop : z.op = .address)
    (hl : z.left = some x) (hid : c.operands.symbol? x = some id) (hr : z.right = some y)
    (hy : c.word st y = some w) :
    M.step c first last pc st = Storage.virtual.finish c pc st z.result (M.base id + w) := by
  simp [Meaning.step, Storage.step, hz, hop, hl, hid, hr, hy]

theorem step_load (hz : c.fetch first last pc = some z) (hop : z.op = .load) (hl : z.left = some x)
    (hx : c.word st x = some v) :
    M.step c first last pc st = Storage.virtual.finish c pc st z.result (st.world.memory v) := by
  simp [Meaning.step, Storage.step, hz, hop, hl, hx]

theorem step_store (hz : c.fetch first last pc = some z) (hop : z.op = .store) (hl : z.left = some x)
    (hr : z.right = some y) (hx : c.word st x = some v) (hy : c.word st y = some w) :
    M.step c first last pc st =
      some (.running (pc + 1) { st with world.memory := Function.update st.world.memory v w }) := by
  simp [Meaning.step, Storage.step, hz, hop, hl, hr, hx, hy]

theorem step_call {id : SymbolId} {vs : List Word} (hz : c.fetch first last pc = some z) (hop : z.op = .call)
    (hl : z.left = some x) (hid : c.operands.symbol? x = some id) (hargs : z.args.mapM (c.word st) = some vs) :
    M.step c first last pc st = (M.call id vs st.world).bind fun r =>
      z.result.elim (some (.running (pc + 1) { st with world := r.2 })) fun y =>
        Storage.virtual.finish c pc { st with world := r.2 } (some y) r.1 := by
  simp only [Meaning.step, Storage.step, hz, hop, hl, hid, hargs, Option.bind_eq_bind, Option.bind_some]
  cases z.result <;> rfl

theorem step_pass (hz : c.fetch first last pc = some z) (hop : z.op = .header ∨ z.op = .label) :
    M.step c first last pc st = some (.running (pc + 1) st) := by
  rcases hop with hop | hop <;> simp [Meaning.step, Storage.step, hz, hop]

theorem step_jump {pos : Nat} (hz : c.fetch first last pc = some z) (hop : z.op = .jump) (hl : z.left = some x)
    (hpos : c.labelAt? first last x = some pos) : M.step c first last pc st = some (.running pos st) := by
  simp [Meaning.step, Storage.step, Storage.goto, hz, hop, hl, hpos]

theorem step_branch_zero {pos : Nat} (hz : c.fetch first last pc = some z) (hop : z.op = .branch)
    (hl : z.left = some x) (hx : c.word st x = some 0) (hr : z.right = some y)
    (hpos : c.labelAt? first last y = some pos) : M.step c first last pc st = some (.running pos st) := by
  simp [Meaning.step, Storage.step, Storage.goto, hz, hop, hl, hx, hr, hpos]

theorem step_branch_ne (hz : c.fetch first last pc = some z) (hop : z.op = .branch) (hl : z.left = some x)
    (hx : c.word st x = some v) (hv : v ≠ 0) : M.step c first last pc st = some (.running (pc + 1) st) := by
  simp [Meaning.step, Storage.step, hz, hop, hl, hx, hv]

theorem step_ret (hz : c.fetch first last pc = some z) (hop : z.op = .ret) (hl : z.left = none) :
    M.step c first last pc st = some (.returned none st.world) := by
  simp [Meaning.step, Storage.step, hz, hop, hl]

theorem step_ret_value (hz : c.fetch first last pc = some z) (hop : z.op = .ret) (hl : z.left = some x)
    (hx : c.word st x = some v) : M.step c first last pc st = some (.returned (some v) st.world) := by
  simp [Meaning.step, Storage.step, hz, hop, hl, hx]

end Step

section Words

variable {c : Code} {st st' st'' : Virtual} {x y : OperandId} {v w : Word} {n n' : Nat}

/-- The state with another word in the variable of an operand. -/
def State.set (st : Virtual) (y : OperandId) (v : Word) : Virtual :=
  { st with values := Function.update st.values y v }

theorem word_of_value (hy : c.operands.isValue y = true) : c.word st y = some (st.values y) := by
  rw [Arena.isValue, Option.any_eq_true] at hy
  obtain ⟨o, ho, hval⟩ := hy
  simp [Code.word, Storage.word, Storage.virtual, ho, hval]

theorem word_set_self (hy : c.operands.isValue y = true) : c.word (st.set y v) y = some v := by
  rw [word_of_value hy]
  exact congrArg some (Function.update_self ..)

theorem word_symbol {id : SymbolId} {s : Symbol} (hy : c.operands.get? y = some (s.operand id)) :
    c.word st y = some (if s.isRegisterCandidate then st.values y else st.world.globals id) := by
  simp only [Code.word, Storage.word, Storage.virtual, hy, Symbol.operand, Option.bind_eq_bind, Option.bind_some]
  split <;> rfl

theorem word_congr (hglobals : st'.world.globals = st.world.globals) (hy : st'.values y = st.values y) :
    c.word st' y = c.word st y := by
  simp only [Code.word, Storage.word, Storage.virtual, hglobals, hy]

theorem finish_value {pc : Nat} (hy : c.operands.isValue y = true) :
    Storage.virtual.finish c pc st (some y) v = some (.running (pc + 1) (st.set y v)) := by
  rw [Arena.isValue, Option.any_eq_true] at hy
  obtain ⟨o, ho, hval⟩ := hy
  simp [Storage.finish, Storage.assign, Storage.virtual, ho, hval, State.set]

theorem finish_of_assign {pc : Nat} (h : Storage.virtual.assign c st y v = some st') :
    Storage.virtual.finish c pc st (some y) v = some (.running (pc + 1) st') := by
  simp [Storage.finish, h]

/-- Operands that nothing new is written to: the first `n`, and those of symbols. -/
def Code.Old (c : Code) (n : Nat) (y : OperandId) : Prop := y < n ∨ ∃ id, c.operands.symbol? y = some id

theorem Code.Old.mono (h : c.Old n y) (hn : n ≤ n') : c.Old n' y := h.imp (fun h => Nat.lt_of_lt_of_le h hn) id

/-- The two states differ at most in the world and in new operands. -/
def Code.Kept (c : Code) (n : Nat) (st st' : Virtual) : Prop := ∀ y, c.Old n y → st'.values y = st.values y

theorem Code.Kept.trans (h : c.Kept n st st') (h' : c.Kept n' st' st'') (hn : n ≤ n') : c.Kept n st st'' :=
  fun y hy => (h' y (hy.mono hn)).trans (h y hy)

theorem kept_set (hn : n ≤ y) (hy : c.operands.symbol? y = none) (v : Word) : c.Kept n st (st.set y v) := by
  intro x hx
  refine Function.update_of_ne ?_ _ _
  rintro rfl
  rcases hx with hx | ⟨id, hid⟩
  · exact absurd hx (Nat.not_lt.mpr hn)
  · rw [hy] at hid
    cases hid

/-- The two states differ at most in the memory of arrays and in new operands. -/
structure Code.Frame (c : Code) (n : Nat) (st st' : Virtual) : Prop where
  globals : st'.world.globals = st.world.globals
  values : ∀ y, c.Old n y → st'.values y = st.values y

theorem frame_set (hn : n ≤ y) (hy : c.operands.symbol? y = none) (v : Word) : c.Frame n st (st.set y v) :=
  ⟨rfl, kept_set hn hy v⟩

theorem frame_memory (m : Memory) : c.Frame n st { st with world.memory := m } := ⟨rfl, fun _ _ => rfl⟩

/-- An operand that is not new holds a word. -/
def Code.Gives (c : Code) (n : Nat) (st : Virtual) (y : OperandId) (v : Word) : Prop :=
  c.Old n y ∧ c.word st y = some v

theorem Code.Gives.frame (h : c.Gives n st y v) (hf : c.Frame n st st') (hn : n ≤ n') : c.Gives n' st' y v :=
  ⟨h.1.mono hn, (word_congr hf.globals (hf.values y h.1)).trans h.2⟩

/-- Every operand of a symbol holds the word of the variable. -/
structure Code.Holds (c : Code) (s : Store) (st : Virtual) : Prop where
  memory : st.world.memory = s.memory
  vars : ∀ y id, c.operands.symbol? y = some id → c.word st y = some (s.vars id)

theorem Code.Holds.frame {s : Store} (h : c.Holds s st) (hf : c.Frame n st st') :
    c.Holds ⟨s.vars, st'.world.memory⟩ st' :=
  ⟨rfl, fun y id hy => (word_congr hf.globals (hf.values y (Or.inr ⟨id, hy⟩))).trans (h.vars y id hy)⟩

theorem Code.Sound.symbol?_eq_some {symbols : SymbolTable} (hc : c.Sound symbols) {id : SymbolId} :
    c.operands.symbol? y = some id ↔
      ∃ s, symbols.get? id = some s ∧ c.operands.interned[id]? = some y ∧ c.operands.get? y = some (s.operand id) := by
  rw [Arena.symbol?, Option.bind_eq_some_iff]
  constructor
  · rintro ⟨o, ho, hid⟩
    rcases hc.fresh.operand y o ho with hfresh | ⟨id', s, hs, hint, rfl⟩
    · rw [hfresh.symbol?_eq_none] at hid
      cases hid
    · cases hid
      exact ⟨s, hs, hint, ho⟩
  · rintro ⟨s, -, -, ho⟩
    exact ⟨_, ho, rfl⟩

theorem Code.Sound.eq_of_symbol? {symbols : SymbolTable} (hc : c.Sound symbols) {id : SymbolId}
    (hx : c.operands.symbol? x = some id) (hy : c.operands.symbol? y = some id) : x = y := by
  obtain ⟨-, -, hintx, -⟩ := hc.symbol?_eq_some.mp hx
  obtain ⟨-, -, hinty, -⟩ := hc.symbol?_eq_some.mp hy
  exact Option.some.inj (hintx.symm.trans hinty)

theorem Code.Holds.assign {symbols : SymbolTable} (hc : c.Sound symbols) {s : Store} (h : c.Holds s st) {id : SymbolId}
    (hy : c.operands.symbol? y = some id) (v : Word) : ∃ st', Storage.virtual.assign c st y v = some st' ∧
      c.Holds ⟨Function.update s.vars id v, s.memory⟩ st' ∧
      ∀ x, c.operands.symbol? x = none → st'.values x = st.values x := by
  obtain ⟨t, -, -, hget⟩ := hc.symbol?_eq_some.mp hy
  -- it is enough that the operand holds the word and that no other operand changes
  have hholds : ∀ st' : Virtual, st'.world.memory = st.world.memory → c.word st' y = some v →
      (∀ x id', c.operands.symbol? x = some id' → id' ≠ id → c.word st' x = c.word st x) →
      c.Holds ⟨Function.update s.vars id v, s.memory⟩ st' := by
    intro st' hmemory hself hother
    refine ⟨hmemory.trans h.memory, fun x id' hx => ?_⟩
    by_cases hid : id' = id
    · subst hid
      simp [hc.eq_of_symbol? hx hy, hself]
    · simp [hother x id' hx hid, h.vars x id' hx, hid]
  cases hcand : t.isRegisterCandidate with
  | true =>
    have hval : c.operands.isValue y = true := by simp [Arena.isValue, hget, Symbol.operand, hcand]
    refine ⟨st.set y v, by simp [Storage.assign, Storage.virtual, hget, Symbol.operand, hcand, State.set],
      hholds _ rfl (word_set_self hval) fun x id' hx hid => word_congr rfl (Function.update_of_ne ?_ _ _),
      fun x hx => Function.update_of_ne ?_ _ _⟩
    · rintro rfl
      exact hid (Option.some.inj (hx.symm.trans hy))
    · rintro rfl
      rw [hy] at hx
      cases hx
  | false =>
    refine ⟨{ st with world.globals := Function.update st.world.globals id v },
      by simp [Storage.assign, hget, Symbol.operand, hcand], hholds _ rfl ?_ fun x id' hx hid => ?_, fun _ _ => rfl⟩
    · rw [word_symbol hget, hcand, if_neg Bool.false_ne_true]
      exact congrArg some (Function.update_self ..)
    · obtain ⟨t', -, -, hget'⟩ := hc.symbol?_eq_some.mp hx
      rw [word_symbol hget', word_symbol hget']
      dsimp only
      rw [Function.update_of_ne hid]

end Words

end MiddleEnd
