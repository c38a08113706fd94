import MiddleEnd.Proofs.Lowering.Stepwise
import MiddleEnd.Proofs.Simulation.Expr

/-! The order in which code reads variables, under calls that may change any global. The operand of a variable is
the variable itself and not a copy of it, so its value is the one at the instruction that uses it: the code of an
expression evaluates it late. That is strict evaluation from left to right wherever no variable that calls can
change stands before a sibling that calls, and it is not where one does. -/

namespace MiddleEnd

open Builder Code

/-- The word of a variable. Local variables that may be in a register have theirs in `vars`, and no call changes
it; any other variable has its word in the world. -/
def SymbolTable.reading (symbols : SymbolTable) (vars : SymbolId → Word) (id : SymbolId) : Reading := fun w =>
  if (symbols.get? id).any (·.isRegisterCandidate) then vars id else w.globals id

/-- The variables of the local variables that may be in a register hold their words. -/
def Code.HoldsLocals (c : Code) (symbols : SymbolTable) (vars : SymbolId → Word) (st : Virtual) : Prop :=
  ∀ y id, c.operands.symbol? y = some id → (symbols.get? id).any (·.isRegisterCandidate) = true →
    st.values y = vars id

/-- Executing what was emitted between `b` and `b'`, one step for each instruction, ends in the world `w` and leaves
the words `vs` in the operands `ys`. -/
def Meaning.Leaves (M : Meaning) (c : Code) (first last : Nat) (b b' : Builder) (st : Virtual) (ys : List OperandId)
    (vs : List Word) (w : World) : Prop :=
  ∃ st', run (fun _ => .virtual) M c first last (.running b.code.instrs.size st)
      (b'.code.instrs.size - b.code.instrs.size) = some (.running b'.code.instrs.size st') ∧
    st'.world = w ∧ ys.mapM (c.word st') = some vs

section Order

variable {symbols : SymbolTable} {M : Meaning} {vars : SymbolId → Word} {c : Code} {first last : Nat}
  {st : Virtual} {b b₁ b' : Builder}

theorem SymbolTable.reading_local {id : SymbolId} (h : (symbols.get? id).any (·.isRegisterCandidate) = true)
    (w w' : World) : symbols.reading vars id w = symbols.reading vars id w' := by
  rw [reading, reading, if_pos h, if_pos h]

theorem Code.HoldsLocals.reads (hc : c.Sound symbols) (h : c.HoldsLocals symbols vars st) :
    c.Reads (fun _ => True) (symbols.reading vars) st := by
  intro y id hy
  refine ⟨Or.inr ⟨id, hy⟩, fun st' hk _ => ?_⟩
  obtain ⟨s, hs, -, hget⟩ := hc.symbol?_eq_some.mp hy
  rw [word_symbol hget, SymbolTable.reading, hk y (Or.inr ⟨id, hy⟩), hs, Option.any_some]
  split
  case isTrue hlocal => rw [h y id hy (by rw [hs]; exact hlocal)]
  case isFalse => rfl

theorem Meaning.Leaves.unique {ys : List OperandId} {vs vs' : List Word} {w w' : World}
    (h : M.Leaves c first last b b' st ys vs w) (h' : M.Leaves c first last b b' st ys vs' w') :
    vs = vs' ∧ w = w' := by
  obtain ⟨st₁, hrun, rfl, hvs⟩ := h
  obtain ⟨st₂, hrun', rfl, hvs'⟩ := h'
  rw [hrun] at hrun'
  cases hrun'
  exact ⟨Option.some.inj (hvs.symm.trans hvs'), rfl⟩

theorem lowerExpr_sound {e : Expr} {o : Option OperandId} (h : lowerExpr symbols e b = .ok o b')
    (hb : b.code.Sound symbols) : b'.code.Sound symbols := by
  have hready : Share.Ready ⟨symbols, e.mentions, b.code.operands.size⟩ b.code := ⟨hb, Nat.le_refl _⟩
  exact Steps.sound (lowerExpr_steps 0 e h (List.Subset.refl _) hready).1 hb

theorem lowerArgs_sound {es : List Expr} {values temps : List OperandId} {pos : Nat}
    (h : lowerArgs symbols es b = .ok values b₁) (hmarshal : marshal pos values b₁ = .ok temps b')
    (hb : b.code.Sound symbols) : b'.code.Sound symbols := by
  have hready : Share.Ready ⟨symbols, Expr.mentionsAll es, b.code.operands.size⟩ b.code := ⟨hb, Nat.le_refl _⟩
  obtain ⟨hsteps, hplain⟩ := lowerArgs_steps 0 es h (List.Subset.refl _) hready
  exact Steps.sound (marshal_steps 0 hmarshal (hsteps.ready hready) hplain).1 (Steps.sound hsteps hb)

theorem Meaning.Leaves.not_stuck {ys : List OperandId} {vs : List Word} {w : World}
    (h : M.Leaves c first last b b' st ys vs w) : ¬ Stuck M c first last b.code b'.code st := by
  obtain ⟨st', hrun, -⟩ := h
  intro hstuck
  rw [hstuck] at hrun
  cases hrun

theorem lowerExpr_leaves_iff (hc : c.Sound symbols) (hst : c.HoldsLocals symbols vars st)
    (hp : c.Part first last b.code b'.code) {e : Expr} {o : Option OperandId} (h : lowerExpr symbols e b = .ok o b')
    (v : Option Word) (w : World) : M.Leaves c first last b b' st o.toList v.toList w ↔
      (e.late M symbols (symbols.reading vars) st.world).map Expr.settle = some (v, w) := by
  have hfollows := lowerExpr_follows (M := M) hc (fun _ _ _ _ _ _ _ => trivial) e h hp (hst.reads hc) trivial
  cases hf : e.late M symbols (symbols.reading vars) st.world with
  | none =>
    rw [hf] at hfollows
    exact ⟨fun hleaves => (hleaves.not_stuck hfollows).elim, nofun⟩
  | some r =>
    obtain ⟨f, w₁⟩ := r
    rw [hf] at hfollows
    obtain ⟨st', hrun, rfl, -, hrel⟩ := hfollows
    have hword : o.toList.mapM (c.word st') = some (f.map (· st'.world)).toList := by
      cases hrel with
      | none => rfl
      | some hstand => simp [hstand.word trivial]
    have hleaves : M.Leaves c first last b b' st o.toList (f.map (· st'.world)).toList st'.world :=
      ⟨st', hrun.steps, rfl, hword⟩
    rw [Option.map_some, Option.some.injEq, Expr.settle, Prod.mk.injEq]
    constructor
    · intro h'
      obtain ⟨hv, hw⟩ := hleaves.unique h'
      exact ⟨by simpa using congrArg List.head? hv, hw⟩
    · rintro ⟨rfl, rfl⟩
      exact hleaves

theorem lowerArgs_leaves_iff (hc : c.Sound symbols) (hst : c.HoldsLocals symbols vars st)
    (hp : c.Part first last b.code b'.code) {es : List Expr} {values temps : List OperandId} {pos : Nat}
    (h : lowerArgs symbols es b = .ok values b₁) (hmarshal : marshal pos values b₁ = .ok temps b')
    (vs : List Word) (w : World) : M.Leaves c first last b b' st temps vs w ↔
      (Expr.lateAll M symbols (symbols.reading vars) es st.world).map Expr.settleAll = some (vs, w) := by
  have hg₁ := adds_lowerArgs symbols es h
  have hg₂ := adds_marshal _ _ hmarshal
  have hfollows := lowerArgs_follows (M := M) hc (fun _ _ _ _ _ _ _ => trivial) es h (hp.left hg₂) (hst.reads hc)
    trivial
  cases hf : Expr.lateAll M symbols (symbols.reading vars) es st.world with
  | none =>
    rw [hf] at hfollows
    exact ⟨fun hleaves => (hleaves.not_stuck (Stuck.left hfollows hg₁ hg₂)).elim, nofun⟩
  | some r =>
    obtain ⟨fs, w₁⟩ := r
    rw [hf] at hfollows
    obtain ⟨st₁, hrun₁, rfl, -, hstand⟩ := hfollows
    obtain ⟨st₂, hrun₂, hworld, hpassed⟩ := marshal_runs M hmarshal (hp.right hg₁) hstand trivial
    have hword : temps.mapM (c.word st₂) = some (fs.map (· st₁.world)) := by
      rw [mapM_word hpassed trivial, List.map_map]
      rfl
    have hleaves : M.Leaves c first last b b' st temps (fs.map (· st₁.world)) st₁.world :=
      ⟨st₂, (hrun₁.trans hrun₂ hg₁ hg₂).steps, hworld, hword⟩
    rw [Option.map_some, Option.some.injEq, Expr.settleAll, Prod.mk.injEq]
    constructor
    · intro h'
      exact hleaves.unique h'
    · rintro ⟨rfl, rfl⟩
      exact hleaves

end Order

/-- Code reads a variable when it uses it. Whatever calls do to the globals and to the memory of arrays, what
executing the code of an expression leaves in its operand and in the world is exactly what late evaluation gives. It
is what strict evaluation from left to right gives wherever no variable that calls can change stands before a sibling
that calls. The same holds of the arguments of a call. -/
theorem code_reads_variables_when_used (symbols : SymbolTable) (M : Meaning) (vars : SymbolId → Word) (c : Code)
    (hc : c.Sound symbols) (first last : Nat) (st : Virtual) (hst : c.HoldsLocals symbols vars st) (b b' : Builder)
    (hp : c.Part first last b.code b'.code) :
    (∀ (e : Expr) (o : Option OperandId), lowerExpr symbols e b = .ok o b' → ∀ v w,
      (M.Leaves c first last b b' st o.toList (Option.toList v) w ↔
        (e.late M symbols (symbols.reading vars) st.world).map Expr.settle = some (v, w)) ∧
      (e.steady symbols = true → (M.Leaves c first last b b' st o.toList v.toList w ↔
        e.strict M symbols (symbols.reading vars) st.world = some (v, w)))) ∧
    ∀ (es : List Expr) (values temps : List OperandId) (b₁ : Builder) (pos : Nat),
      lowerArgs symbols es b = .ok values b₁ → marshal pos values b₁ = .ok temps b' → ∀ vs w,
      (M.Leaves c first last b b' st temps vs w ↔
        (Expr.lateAll M symbols (symbols.reading vars) es st.world).map Expr.settleAll = some (vs, w)) ∧
      (Expr.steadyAll symbols es = true → (M.Leaves c first last b b' st temps vs w ↔
        Expr.strictAll M symbols (symbols.reading vars) es st.world = some (vs, w))) := by
  have hread : ∀ s, (symbols.get? s).any (·.isRegisterCandidate) = true → ∀ w w' : World,
      symbols.reading vars s w = symbols.reading vars s w' := fun s hs => SymbolTable.reading_local hs
  refine ⟨fun e o h v w => ⟨lowerExpr_leaves_iff hc hst hp h v w, fun hsteady => ?_⟩,
    fun es values temps b₁ pos h hmarshal vs w =>
      ⟨lowerArgs_leaves_iff hc hst hp h hmarshal vs w, fun hsteady => ?_⟩⟩
  · rw [Expr.strict_of_steady hread e st.world hsteady]
    exact lowerExpr_leaves_iff hc hst hp h v w
  · rw [Expr.strictAll_of_steady hread es st.world hsteady]
    exact lowerArgs_leaves_iff hc hst hp h hmarshal vs w

def counter : SymbolTable where
  symbols := #[
    { name := "g", kind := .globalVar, ty := .int },
    { name := "f", kind := .function, ty := .function [] .int },
    { name := "x", kind := .param, ty := .int }]

def counting : Meaning where
  binary
    | .arith .add, x, y => some (x + y)
    | _, _, _ => none
  unary _ _ := none
  base _ := 0
  call _ _ w := some (1, { w with globals := Function.update w.globals 0 5 })

def counterState : Virtual where
  values _ := 10
  world := ⟨fun _ => 1, fun _ => 0⟩

def counted : World := ⟨Function.update (fun _ => 1) 0 5, fun _ => 0⟩

/-- `(x + f()) + g` -/
def counterSum : Expr :=
  .binary (.arith .add) (.binary (.arith .add) (.name 2 .int) (.call 1 [] .int) .int) (.name 0 .int) .int

/-- `g + f()` -/
def counterSwapped : Expr := .binary (.arith .add) (.name 0 .int) (.call 1 [] .int) .int

/-- `x, f(), g` -/
def counterArgs : List Expr := [.name 2 .int, .call 1 [] .int, .name 0 .int]

theorem exists_of_ok {α : Type} {r : EStateM.Result LowerError Builder α}
    (h : (match r with | .ok _ _ => true | .error _ _ => false) = true) : ∃ a b, r = .ok a b := by
  cases r with
  | ok a b => exact ⟨a, b, rfl⟩
  | error e b => cases h

/-- The sum is that of ten, one and five, and these are the arguments that are passed. -/
theorem counter_is_strict :
    (∃ o b', lowerExpr counter counterSum {} = .ok o b' ∧
      counting.Leaves b'.code 0 b'.code.instrs.size {} b' counterState o.toList [16] counted) ∧
    ∃ values b₁ temps b', lowerArgs counter counterArgs {} = .ok values b₁ ∧ marshal 0 values b₁ = .ok temps b' ∧
      counting.Leaves b'.code 0 b'.code.instrs.size {} b' counterState temps [10, 1, 5] counted := by
  have hlocals : ∀ c : Code, c.HoldsLocals counter (fun _ => 10) counterState := fun _ _ _ _ _ => rfl
  have hpart : ∀ c : Code, c.Part 0 c.instrs.size ({} : Builder).code c := fun c =>
    ⟨Nat.le_refl _, Nat.le_succ _, .refl c⟩
  constructor
  · obtain ⟨o, b', h⟩ := exists_of_ok (r := lowerExpr counter counterSum {}) (by decide +kernel)
    have hc := lowerExpr_sound h (.empty counter)
    have hreads := (code_reads_variables_when_used counter counting (fun _ => 10) b'.code hc 0 _ counterState
      (hlocals _) {} b' (hpart _)).1 _ o h (some 16) counted
    exact ⟨o, b', h, (hreads.2 rfl).mpr rfl⟩
  · obtain ⟨temps, b', h⟩ := exists_of_ok (r := (lowerArgs counter counterArgs >>= marshal 0) {}) (by decide +kernel)
    obtain ⟨values, b₁, h, hmarshal⟩ := LowerM.bind_eq_ok.mp h
    have hc := lowerArgs_sound h hmarshal (.empty counter)
    have hreads := (code_reads_variables_when_used counter counting (fun _ => 10) b'.code hc 0 _ counterState
      (hlocals _) {} b' (hpart _)).2 _ values temps b₁ 0 h hmarshal [10, 1, 5] counted
    exact ⟨values, b₁, temps, b', h, hmarshal, (hreads.2 rfl).mpr rfl⟩

/-- Not every expression is strict. `g + f()` is two from left to right, but its code leaves six, since it reads `g`
after `f` has changed it. -/
theorem global_before_call_is_not_strict :
    counterSwapped.strict counting counter (counter.reading fun _ => 10) counterState.world = some (some 2, counted) ∧
      ∃ o b', lowerExpr counter counterSwapped {} = .ok o b' ∧
        ¬ counting.Leaves b'.code 0 b'.code.instrs.size {} b' counterState o.toList [2] counted ∧
        counting.Leaves b'.code 0 b'.code.instrs.size {} b' counterState o.toList [6] counted := by
  refine ⟨rfl, ?_⟩
  obtain ⟨o, b', h⟩ := exists_of_ok (r := lowerExpr counter counterSwapped {}) (by decide +kernel)
  have hc := lowerExpr_sound h (.empty counter)
  have hlocals : b'.code.HoldsLocals counter (fun _ => 10) counterState := fun _ _ _ _ => rfl
  have hleaves : counting.Leaves b'.code 0 b'.code.instrs.size {} b' counterState o.toList [6] counted :=
    (lowerExpr_leaves_iff hc hlocals ⟨Nat.le_refl _, Nat.le_succ _, .refl _⟩ h (some 6) counted).mpr rfl
  refine ⟨o, b', h, fun h' => ?_, hleaves⟩
  exact absurd (hleaves.unique h').1 (by decide)

end MiddleEnd
