import MiddleEnd.Operand.Arena

/-! The arena through its operands: what each way to add one does to the others, and what a change of one
leaves alone. -/

namespace MiddleEnd

/-- The operand that a symbol gets. -/
def Symbol.operand (id : SymbolId) (s : Symbol) : Operand := { kind := .symbol id, isValue := s.isRegisterCandidate }

namespace Arena

variable (a : Arena)

theorem lt_size_of_get? {a : Arena} {y : Nat} {o : Operand} (h : a.get? y = some o) : y < a.size :=
  (Array.getElem?_eq_some_iff.mp h).1

theorem exists_of_lt_size {a : Arena} {y : Nat} (h : y < a.size) : ∃ o, a.get? y = some o :=
  ⟨_, Array.getElem?_eq_getElem h⟩

theorem lt_size_of_isValue {a : Arena} {x : OperandId} (h : a.isValue x = true) : x < a.size := by
  obtain ⟨o, ho, -⟩ := Option.any_eq_true _ _ |>.mp h
  exact lt_size_of_get? ho

theorem get?_push (o : Operand) (y : OperandId) :
    (a.push o).2.get? y = if y = a.size then some o else a.get? y :=
  Array.getElem?_push

theorem get?_push_of_get? {a : Arena} (o : Operand) {y : OperandId} {p : Operand} (h : a.get? y = some p) :
    (a.push o).2.get? y = some p := by
  rw [get?_push, if_neg (Nat.ne_of_lt (lt_size_of_get? h)), h]

theorem interned_insert (m : Std.ExtTreeMap SymbolId OperandId) (id s : SymbolId) (y : OperandId) :
    (m.insert id y)[s]? = if s = id then some y else m[s]? := by
  rw [Std.ExtTreeMap.getElem?_insert]
  by_cases h : s = id
  · rw [if_pos h, if_pos (by rw [h]; exact Nat.compare_eq_eq.mpr rfl)]
  · rw [if_neg h, if_neg (by rw [Nat.compare_eq_eq]; exact fun e => h e.symm)]

theorem symbol_cases (id : SymbolId) (s : Symbol) :
    (∃ y, a.interned[id]? = some y ∧ a.symbol id s = (y, a)) ∨
      (a.interned[id]? = none ∧ (a.symbol id s).1 = a.size ∧
        (∀ y, (a.symbol id s).2.get? y = if y = a.size then some (s.operand id) else a.get? y) ∧
        ∀ t, (a.symbol id s).2.interned[t]? = if t = id then some a.size else a.interned[t]?) := by
  unfold symbol
  cases h : a.interned[id]? with
  | some y => exact Or.inl ⟨y, rfl, rfl⟩
  | none => exact Or.inr ⟨rfl, rfl, a.get?_push _, fun t => interned_insert a.interned id t a.size⟩

theorem interned_symbol (id : SymbolId) (s : Symbol) : (a.symbol id s).2.interned[id]? = some (a.symbol id s).1 := by
  obtain ⟨y, hy, h⟩ | ⟨-, hfst, -, hint⟩ := a.symbol_cases id s
  · rw [h]
    exact hy
  · rw [hfst]
    exact (hint id).trans (if_pos rfl)

theorem ext_get? {a b : Arena} (hi : a.interned = b.interned) (h : ∀ y, a.get? y = b.get? y) : a = b := by
  cases a
  cases b
  simp only [mk.injEq]
  exact ⟨Array.ext_getElem? h, hi⟩

theorem get?_modify (x : OperandId) (f : Operand → Operand) (y : OperandId) :
    (a.modify x f).get? y = if x = y then (a.get? y).map f else a.get? y := Array.getElem?_modify

theorem modify_congr {a : Arena} {x : OperandId} {f g : Operand → Operand} (h : ∀ o, a.get? x = some o → f o = g o) :
    a.modify x f = a.modify x g := by
  refine ext_get? rfl fun y => ?_
  rw [get?_modify, get?_modify]
  split
  case isTrue he =>
    cases hy : a.get? y with
    | none => rfl
    | some o => exact congrArg some (h o (he ▸ hy))
  case isFalse => rfl

theorem modify_eq_self {a : Arena} {x : OperandId} {f : Operand → Operand} (h : ∀ o, a.get? x = some o → f o = o) :
    a.modify x f = a := by
  rw [modify_congr (g := id) h]
  refine ext_get? rfl fun y => ?_
  rw [get?_modify, Option.map_id_fun, id_eq, ite_self]

theorem assign_in_frame {a : Arena} {x : OperandId} {o : Operand} (ho : a.get? x = some o) (hframe : o.inFrame = true)
    (reg : Register) : a.assign x reg = .error .assignedInFrame := by
  simp only [assign, ho, Operand.assign, hframe, if_true]
  rfl

theorem assign_outside_frame {a : Arena} {x : OperandId} (reg : Register)
    (hframe : ∀ o, a.get? x = some o → o.inFrame = false) :
    a.assign x reg = .ok (a.modify x fun o => { o with location := some (.register reg) }) := by
  unfold assign
  cases ho : a.get? x with
  | none => rw [modify_eq_self fun o h => by rw [ho] at h; cases h]
  | some o =>
    simp only [Operand.assign, hframe o ho, Bool.false_eq_true, if_false]
    refine congrArg Except.ok (ext_get? rfl fun y => ?_)
    rw [get?_modify, get?, Array.getElem?_setIfInBounds]
    split
    case isTrue he =>
      rw [if_pos (show x < a.operands.size from lt_size_of_get? ho), ← he, ho]
      rfl
    case isFalse => rfl

end Arena

end MiddleEnd
