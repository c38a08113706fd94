import MiddleEnd.Proofs.Execution.Virtual

/-! When the variables of an expression are read, under calls that may change any global. Strict evaluation takes
the value of each operand in its turn, from left to right. Late evaluation makes the same calls in the same order,
but reads a variable only when the operator or call is applied that the variable is an operand of. The two agree on
expressions in which no variable that calls can change stands before a sibling that calls. -/

namespace MiddleEnd

/-- A value that may depend on when it is read. -/
abbrev Reading := World → Word

@[simp] theorem Effects.meaning_element (F : Effects) (symbols : SymbolTable) (array : SymbolId) (pos : Word) :
    F.meaning.element symbols array pos = F.element symbols array pos := rfl

namespace Expr

section Semantics

variable (M : Meaning) (symbols : SymbolTable) (read : SymbolId → Reading)

mutual
/-- The value of an expression, each part in its turn from left to right, and the world after it. -/
def strict : Expr → World → Option (Option Word × World)
  | .literal lit _, w => some (lit.word, w)
  | .name s _, w => some (read s w, w)
  | .binary op lhs rhs _, w => do
    let (x, w) ← needed (← strict lhs w)
    let (y, w) ← needed (← strict rhs w)
    return (← M.binary op x y, w)
  | .unary op arg _, w => do
    let (x, w) ← needed (← strict arg w)
    return (← M.unary op x, w)
  | .call callee args ty, w => do
    let (xs, w) ← strictAll args w
    let (v, w) ← M.call callee xs w
    return (if ty = .void then none else some v, w)
  | .index array pos _, w => do
    let (i, w) ← needed (← strict pos w)
    return (w.memory (← M.element symbols array i), w)

def strictAll : List Expr → World → Option (List Word × World)
  | [], w => some ([], w)
  | arg :: args, w => do
    let (x, w) ← needed (← strict arg w)
    let (xs, w) ← strictAll args w
    return (x :: xs, w)
end

mutual
/-- The value of an expression, a variable being read when its value is used, and the world after it. -/
def late : Expr → World → Option (Option Reading × World)
  | .literal lit _, w => some (some fun _ => lit.word, w)
  | .name s _, w => some (some (read s), w)
  | .binary op lhs rhs _, w => do
    let (f, w) ← needed (← late lhs w)
    let (g, w) ← needed (← late rhs w)
    let z ← M.binary op (f w) (g w)
    return (some fun _ => z, w)
  | .unary op arg _, w => do
    let (f, w) ← needed (← late arg w)
    let z ← M.unary op (f w)
    return (some fun _ => z, w)
  | .call callee args ty, w => do
    let (fs, w) ← lateAll args w
    let (v, w) ← M.call callee (fs.map (· w)) w
    return (if ty = .void then none else some fun _ => v, w)
  | .index array pos _, w => do
    let (f, w) ← needed (← late pos w)
    let a ← M.element symbols array (f w)
    return (some fun _ => w.memory a, w)

def lateAll : List Expr → World → Option (List Reading × World)
  | [], w => some ([], w)
  | arg :: args, w => do
    let (f, w) ← needed (← late arg w)
    let (fs, w) ← lateAll args w
    return (f :: fs, w)
end

end Semantics

section Inversion

variable {M : Meaning} {symbols : SymbolTable} {read : SymbolId → Reading} {f : Option Reading} {w w' : World}

theorem late_binary {op : BinaryOp} {lhs rhs : Expr} {ty : Ty}
    (h : (binary op lhs rhs ty).late M symbols read w = some (f, w')) : ∃ g k z w₁,
      lhs.late M symbols read w = some (some g, w₁) ∧ rhs.late M symbols read w₁ = some (some k, w') ∧
      M.binary op (g w') (k w') = some z ∧ f = some fun _ => z := by
  simp only [late, Option.bind_eq_bind, Option.bind_eq_some_iff, Prod.exists, needed_eq_some, pure,
    Option.some.injEq, Prod.mk.injEq] at h
  obtain ⟨_, _, hg, g, _, ⟨rfl, rfl⟩, _, _, hk, k, _, ⟨rfl, rfl⟩, z, hz, rfl, rfl⟩ := h
  exact ⟨g, k, z, _, hg, hk, hz, rfl⟩

theorem late_unary {op : UnaryOp} {arg : Expr} {ty : Ty}
    (h : (unary op arg ty).late M symbols read w = some (f, w')) : ∃ g z,
      arg.late M symbols read w = some (some g, w') ∧ M.unary op (g w') = some z ∧ f = some fun _ => z := by
  simp only [late, Option.bind_eq_bind, Option.bind_eq_some_iff, Prod.exists, needed_eq_some, pure,
    Option.some.injEq, Prod.mk.injEq] at h
  obtain ⟨_, _, hg, g, _, ⟨rfl, rfl⟩, z, hz, rfl, rfl⟩ := h
  exact ⟨g, z, hg, hz, rfl⟩

theorem late_call {callee : SymbolId} {args : List Expr} {ty : Ty}
    (h : (call callee args ty).late M symbols read w = some (f, w')) : ∃ gs z w₁,
      lateAll M symbols read args w = some (gs, w₁) ∧ M.call callee (gs.map (· w₁)) w₁ = some (z, w') ∧
      f = if ty = .void then none else some fun _ => z := by
  simp only [late, Option.bind_eq_bind, Option.bind_eq_some_iff, Prod.exists, pure, Option.some.injEq,
    Prod.mk.injEq] at h
  obtain ⟨gs, w₁, hgs, z, _, hz, rfl, rfl⟩ := h
  exact ⟨gs, z, w₁, hgs, hz, rfl⟩

theorem late_index {array : SymbolId} {pos : Expr} {ty : Ty}
    (h : (index array pos ty).late M symbols read w = some (f, w')) : ∃ g a,
      pos.late M symbols read w = some (some g, w') ∧ M.element symbols array (g w') = some a ∧
      f = some fun _ => w'.memory a := by
  simp only [late, Option.bind_eq_bind, Option.bind_eq_some_iff, Prod.exists, needed_eq_some, pure,
    Option.some.injEq, Prod.mk.injEq] at h
  obtain ⟨_, _, hg, g, _, ⟨rfl, rfl⟩, a, ha, rfl, rfl⟩ := h
  exact ⟨g, a, hg, ha, rfl⟩

theorem lateAll_cons {arg : Expr} {args : List Expr} {fs : List Reading}
    (h : lateAll M symbols read (arg :: args) w = some (fs, w')) : ∃ g gs w₁,
      arg.late M symbols read w = some (some g, w₁) ∧ lateAll M symbols read args w₁ = some (gs, w') ∧
      fs = g :: gs := by
  simp only [lateAll, Option.bind_eq_bind, Option.bind_eq_some_iff, Prod.exists, needed_eq_some, pure,
    Option.some.injEq, Prod.mk.injEq] at h
  obtain ⟨_, _, hg, g, _, ⟨rfl, rfl⟩, gs, _, hgs, rfl, rfl⟩ := h
  exact ⟨g, gs, _, hg, hgs, rfl⟩

end Inversion

/-! ### Where no variable changes, late evaluation is evaluation -/

section Eval

variable {F : Effects} {symbols : SymbolTable} {vars : SymbolId → Word} (g : SymbolId → Word)

mutual
theorem late_of_eval : ∀ (e : Expr) {v : Option Word} {m m' : Memory}, e.eval F symbols vars m = some (v, m') →
    e.late F.meaning symbols (fun id _ => vars id) ⟨g, m⟩ = some (v.map fun x _ => x, ⟨g, m'⟩)
  | .literal lit ty, v, m, m', h => by
    cases h
    rfl
  | .name id ty, v, m, m', h => by
    cases h
    rfl
  | .binary op lhs rhs ty, v, m, m', h => by
    obtain ⟨x, y, z, m₁, hx, hy, hz, rfl⟩ := eval_binary h
    have hz : F.meaning.binary op x y = some z := hz
    simp [late, late_of_eval lhs hx, late_of_eval rhs hy, needed, hz]
  | .unary op arg ty, v, m, m', h => by
    obtain ⟨x, z, hx, hz, rfl⟩ := eval_unary h
    have hz : F.meaning.unary op x = some z := hz
    simp [late, late_of_eval arg hx, needed, hz]
  | .call callee args ty, v, m, m', h => by
    obtain ⟨xs, z, m₁, hxs, hz, rfl⟩ := eval_call h
    have hz : F.meaning.call callee xs ⟨g, m₁⟩ = some (z, ⟨g, m'⟩) := by simp [Effects.meaning, hz]
    have hmap : (xs.map fun x (_ : World) => x).map (fun f => f ⟨g, m₁⟩) = xs := by
      rw [List.map_map]
      exact List.map_id' xs
    simp only [late, lateAll_of_evalAll args hxs, hmap, hz, Option.bind_eq_bind, Option.bind_some, pure]
    split <;> rfl
  | .index array pos ty, v, m, m', h => by
    obtain ⟨i, a, hi, ha, rfl⟩ := eval_index h
    simp [late, late_of_eval pos hi, needed, ha]

theorem lateAll_of_evalAll : ∀ (es : List Expr) {xs : List Word} {m m' : Memory},
    evalAll F symbols vars es m = some (xs, m') →
    lateAll F.meaning symbols (fun id _ => vars id) es ⟨g, m⟩ = some (xs.map fun x _ => x, ⟨g, m'⟩)
  | [], xs, m, m', h => by
    cases h
    rfl
  | e :: es, xs, m, m', h => by
    obtain ⟨x, ys, m₁, hx, hys, rfl⟩ := evalAll_cons h
    simp [lateAll, late_of_eval e hx, lateAll_of_evalAll es hys, needed]
end

end Eval

/-! ### Where late evaluation is strict -/

mutual
/-- Whether evaluating the expression calls a function. -/
def calls : Expr → Bool
  | .literal _ _ | .name _ _ => false
  | .binary _ lhs rhs _ => lhs.calls || rhs.calls
  | .unary _ arg _ => arg.calls
  | .call _ _ _ => true
  | .index _ pos _ => pos.calls

def callsAny : List Expr → Bool
  | [] => false
  | arg :: args => arg.calls || callsAny args
end

/-- The expression is just a variable that calls can change. -/
def isShared (symbols : SymbolTable) : Expr → Bool
  | .name s _ => !(symbols.get? s).any (·.isRegisterCandidate)
  | _ => false

mutual
/-- No variable that calls can change stands before a sibling that calls. -/
def steady (symbols : SymbolTable) : Expr → Bool
  | .literal _ _ | .name _ _ => true
  | .binary _ lhs rhs _ => lhs.steady symbols && rhs.steady symbols && !(lhs.isShared symbols && rhs.calls)
  | .unary _ arg _ => arg.steady symbols
  | .call _ args _ => steadyAll symbols args
  | .index _ pos _ => pos.steady symbols

def steadyAll (symbols : SymbolTable) : List Expr → Bool
  | [] => true
  | arg :: args => arg.steady symbols && steadyAll symbols args && !(arg.isShared symbols && callsAny args)
end

section Steady

variable {M : Meaning} {symbols : SymbolTable} {read : SymbolId → Reading}

mutual
theorem late_of_not_calls : ∀ (e : Expr) {f : Option Reading} {w w' : World}, e.calls = false →
    e.late M symbols read w = some (f, w') → w' = w
  | .literal lit ty, f, w, w', _, h => by
    cases h
    rfl
  | .name id ty, f, w, w', _, h => by
    cases h
    rfl
  | .binary op lhs rhs ty, f, w, w', hcalls, h => by
    obtain ⟨g, k, z, w₁, hg, hk, -, -⟩ := late_binary h
    rw [calls, Bool.or_eq_false_iff] at hcalls
    rw [late_of_not_calls rhs hcalls.2 hk, late_of_not_calls lhs hcalls.1 hg]
  | .unary op arg ty, f, w, w', hcalls, h => by
    obtain ⟨g, z, hg, -, -⟩ := late_unary h
    exact late_of_not_calls arg hcalls hg
  | .call callee args ty, f, w, w', hcalls, h => by cases hcalls
  | .index array pos ty, f, w, w', hcalls, h => by
    obtain ⟨g, a, hg, -, -⟩ := late_index h
    exact late_of_not_calls pos hcalls hg

theorem lateAll_of_not_calls : ∀ (es : List Expr) {fs : List Reading} {w w' : World}, callsAny es = false →
    lateAll M symbols read es w = some (fs, w') → w' = w
  | [], fs, w, w', _, h => by
    cases h
    rfl
  | e :: es, fs, w, w', hcalls, h => by
    obtain ⟨g, gs, w₁, hg, hgs, -⟩ := lateAll_cons h
    rw [callsAny, Bool.or_eq_false_iff] at hcalls
    rw [lateAll_of_not_calls es hcalls.2 hgs, late_of_not_calls e hcalls.1 hg]
end

/-- The value of anything but a variable that calls can change does not depend on when it is read. -/
theorem late_of_not_shared
    (hread : ∀ s, (symbols.get? s).any (·.isRegisterCandidate) = true → ∀ w w', read s w = read s w') {e : Expr}
    {f : Reading} {w w' : World} (he : e.isShared symbols = false)
    (h : e.late M symbols read w = some (some f, w')) (u u' : World) : f u = f u' := by
  cases e with
  | literal lit ty =>
    cases h
    rfl
  | name id ty =>
    cases h
    exact hread id (by simpa [isShared] using he) u u'
  | binary op lhs rhs ty =>
    obtain ⟨g, k, z, w₁, -, -, -, hf⟩ := late_binary h
    cases hf
    rfl
  | unary op arg ty =>
    obtain ⟨g, z, -, -, hf⟩ := late_unary h
    cases hf
    rfl
  | call callee args ty =>
    obtain ⟨gs, z, w₁, -, -, hf⟩ := late_call h
    split at hf <;> cases hf
    rfl
  | index array pos ty =>
    obtain ⟨g, a, -, -, hf⟩ := late_index h
    cases hf
    rfl

/-- What late evaluation arrived at, read in the world that it arrived in. -/
def settle (r : Option Reading × World) : Option Word × World := (r.1.map (· r.2), r.2)

def settleAll (r : List Reading × World) : List Word × World := (r.1.map (· r.2), r.2)

variable (hread : ∀ s, (symbols.get? s).any (·.isRegisterCandidate) = true → ∀ w w', read s w = read s w')

include hread

mutual
theorem strict_of_steady : ∀ (e : Expr) (w : World), e.steady symbols = true →
    e.strict M symbols read w = (e.late M symbols read w).map settle
  | .literal lit ty, w, _ => rfl
  | .name id ty, w, _ => rfl
  | .binary op lhs rhs ty, w, h => by
    simp only [steady, Bool.and_eq_true, Bool.not_eq_true', Bool.and_eq_false_iff] at h
    obtain ⟨⟨hl, hr⟩, hsib⟩ := h
    simp only [strict, late, strict_of_steady lhs w hl]
    rcases hlhs : lhs.late M symbols read w with _ | ⟨_ | f, w₁⟩
    · rfl
    · rfl
    simp only [Option.map_some, Option.bind_eq_bind, Option.bind_some, settle, needed, strict_of_steady rhs w₁ hr]
    rcases hrhs : rhs.late M symbols read w₁ with _ | ⟨_ | k, w₂⟩
    · rfl
    · rfl
    -- the left operand has the same value before and after the right one is evaluated
    have hsame : f w₁ = f w₂ := by
      rcases hsib with hshared | hcalls
      · exact late_of_not_shared hread hshared hlhs _ _
      · rw [late_of_not_calls rhs hcalls hrhs]
    simp only [Option.map_some, Option.bind_some, settle, hsame]
    cases M.binary op (f w₂) (k w₂) <;> rfl
  | .unary op arg ty, w, h => by
    simp only [strict, late, strict_of_steady arg w h]
    rcases arg.late M symbols read w with _ | ⟨_ | f, w₁⟩
    · rfl
    · rfl
    simp only [Option.map_some, Option.bind_eq_bind, Option.bind_some, settle, needed]
    cases M.unary op (f w₁) <;> rfl
  | .call callee args ty, w, h => by
    simp only [strict, late, strictAll_of_steady args w h]
    rcases lateAll M symbols read args w with _ | ⟨fs, w₁⟩
    · rfl
    simp only [Option.map_some, Option.bind_eq_bind, Option.bind_some, settleAll]
    generalize M.call callee _ w₁ = r
    rcases r with _ | ⟨v, w₂⟩
    · rfl
    · by_cases hty : ty = .void <;> simp [hty, settle]
  | .index array pos ty, w, h => by
    simp only [strict, late, strict_of_steady pos w h]
    rcases pos.late M symbols read w with _ | ⟨_ | f, w₁⟩
    · rfl
    · rfl
    simp only [Option.map_some, Option.bind_eq_bind, Option.bind_some, settle, needed]
    cases M.element symbols array (f w₁) <;> rfl

theorem strictAll_of_steady : ∀ (es : List Expr) (w : World), steadyAll symbols es = true →
    strictAll M symbols read es w = (lateAll M symbols read es w).map settleAll
  | [], w, _ => rfl
  | e :: es, w, h => by
    simp only [steadyAll, Bool.and_eq_true, Bool.not_eq_true', Bool.and_eq_false_iff] at h
    obtain ⟨⟨he, hes⟩, hsib⟩ := h
    simp only [strictAll, lateAll, strict_of_steady e w he]
    rcases harg : e.late M symbols read w with _ | ⟨_ | f, w₁⟩
    · rfl
    · rfl
    simp only [Option.map_some, Option.bind_eq_bind, Option.bind_some, settle, needed, strictAll_of_steady es w₁ hes]
    rcases hrest : lateAll M symbols read es w₁ with _ | ⟨fs, w₂⟩
    · rfl
    have hsame : f w₁ = f w₂ := by
      rcases hsib with hshared | hcalls
      · exact late_of_not_shared hread hshared harg _ _
      · rw [lateAll_of_not_calls es hcalls hrest]
    simp only [Option.map_some, Option.bind_some, hsame]
    rfl
end

end Steady

end Expr

end MiddleEnd
