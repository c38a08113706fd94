import MiddleEnd.Proofs.Allocation.Arena
import MiddleEnd.Proofs.Lowering.Sound

/-! The places that a calling convention fixes, and the registers that instructions keep values out of. -/

namespace MiddleEnd

/-- Temporaries are values. -/
def Arena.TempsAreValues (a : Arena) : Prop := ∀ y tag, a.tag? y = some tag → a.isValue y = true

namespace Convention

variable {conv : Convention} {P : OperandId → Prop} {a b d : Arena}

theorem isFixed_of_fixed? {tag : Tag} {loc : Location} (h : conv.fixed? tag = some loc) : tag.isFixed = true := by
  cases tag <;> first | rfl | cases h

/-- What pinning has made of the arena `a` so far, when it looks only at operands of which `P` holds. -/
structure Pinned (conv : Convention) (P : OperandId → Prop) (a b : Arena) : Prop where
  like : a.Like b
  moved : ∀ y, b.location y ≠ a.location y → P y ∧ a.isValue y
  fixed : ∀ y reg, b.location y = some (.register reg) → a.location y = some (.register reg) ∨
    ∃ tag, a.tag? y = some tag ∧ conv.fixed? tag = some (.register reg)

theorem Pinned.refl (P : OperandId → Prop) (a : Arena) : conv.Pinned P a a :=
  ⟨.refl a, fun _ h => absurd rfl h, fun _ _ h => Or.inl h⟩

theorem Pinned.locate {x : OperandId} {loc : Location} (h : conv.Pinned P a b) (hloc : b.Locates x loc d) (hx : P x)
    (hvalue : a.isValue x)
    (hfixed : ∀ reg, loc = .register reg → ∃ tag, a.tag? x = some tag ∧ conv.fixed? tag = some (.register reg)) :
    conv.Pinned P a d := by
  refine ⟨h.like.trans hloc.like, fun y hy => ?_, fun y reg hy => ?_⟩
  · by_cases hxy : x = y
    · exact hxy ▸ ⟨hx, hvalue⟩
    · exact h.moved y (hloc.location_of_ne hxy ▸ hy)
  · by_cases hxy : x = y
    · subst hxy
      cases hget : b.get? x with
      | none =>
        rw [Arena.location, hloc x, if_pos rfl, hget] at hy
        cases hy
      | some o =>
        rw [hloc.location_self hget] at hy
        exact Or.inr (hfixed reg (Option.some.inj hy))
    · exact h.fixed y reg (hloc.location_of_ne hxy ▸ hy)

theorem Pinned.pin {x : OperandId} (ha : a.TempsAreValues) (hb : conv.Pinned P a b) (hx : P x)
    (h : conv.pin b x = .ok d) : conv.Pinned P a d := by
  unfold Convention.pin at h
  split at h
  · cases h
    exact hb
  · rw [hb.like.tag? x] at h
    cases htag : a.tag? x with
    | none =>
      rw [htag] at h
      cases h
      exact hb
    | some tag =>
      rw [htag, Option.bind_some] at h
      cases hloc : conv.fixed? tag with
      | none =>
        rw [hloc] at h
        cases h
        exact hb
      | some loc =>
        rw [hloc] at h
        cases loc with
        | register reg =>
          refine hb.locate (Arena.locates_assign h) hx (ha x tag htag) fun r hr => ?_
          exact ⟨tag, htag, by rw [hloc, hr]⟩
        | frame =>
          cases h
          exact hb.locate (Arena.locates_spill _ _) hx (ha x tag htag) fun r hr => by cases hr

theorem Pinned.pinInstr {z : Instr} (ha : a.TempsAreValues) (hb : conv.Pinned P a b) (hz : ∀ x ∈ z.mentions, P x)
    (h : conv.pinInstr b z = .ok d) : conv.Pinned P a d := by
  obtain ⟨e, he, h⟩ := Except.bind_eq_ok.mp h
  cases h
  have hpin : conv.Pinned P a e := foldlM_preserves (fun _ _ _ hx hs h => hs.pin ha (hz _ hx) h) he hb
  unfold spillParam
  split
  case h_1 pos x hop hres =>
    split
    case isTrue hc =>
      simp only [Bool.and_eq_true] at hc
      refine hpin.locate (Arena.locates_spill _ _) (hz x (by simp [Instr.mentions, hres])) ?_ fun r hr => by cases hr
      rw [← hpin.like.isValue]
      exact hc.2
    case isFalse => exact hpin
  case h_2 => exact hpin

theorem foldlM_pinned {is : List Instr} (ha : a.TempsAreValues) (hP : ∀ z ∈ is, ∀ x ∈ z.mentions, P x)
    (h : is.foldlM conv.pinInstr a = .ok b) : conv.Pinned P a b :=
  foldlM_preserves (fun _ _ _ hz hs h => hs.pinInstr ha (hP _ hz) h) h (.refl P a)

/-- What the restrictions of the instructions have made of the arena `a`. -/
structure Restricted (conv : Convention) (is : List Instr) (a b : Arena) : Prop where
  like : a.Like b
  location : ∀ y, b.location y = a.location y
  kept : ∀ y reg, reg ∈ a.restricted y → reg ∈ b.restricted y
  restricted : ∀ z ∈ is, ∀ y, (z.divisor? a = some y ∨ y ∈ z.exposed) → (a.get? y).isSome →
    ∀ reg ∈ conv.clobbers z.op, reg ∈ b.restricted y

theorem divisor?_of_like (h : a.Like b) (z : Instr) : z.divisor? b = z.divisor? a := by
  unfold Instr.divisor?
  rw [show b.isValue = a.isValue from funext h.isValue]

theorem foldl_restricted (conv : Convention) (is : List Instr) (a : Arena) :
    conv.Restricted is a (is.foldl conv.restrictInstr a) := by
  induction is generalizing a with
  | nil => exact ⟨.refl a, fun _ => rfl, fun _ _ h => h, by simp⟩
  | cons z is ih =>
    obtain ⟨hlike, hloc, hres⟩ := a.restrictAll_keeps (conv.clobbers z.op) ((z.divisor? a).toList ++ z.exposed.toList)
    obtain ⟨hlike', hloc', hkept', hres'⟩ := ih (conv.restrictInstr a z)
    refine ⟨hlike.trans hlike', fun y => (hloc' y).trans (hloc y),
      fun y reg h => hkept' y reg (hres y reg (Or.inl h)), fun w hw y hy hget reg hreg => ?_⟩
    rcases List.mem_cons.mp hw with rfl | hw
    · refine hkept' y reg (hres y reg (Or.inr ⟨?_, hreg, hget⟩))
      rw [List.mem_append, Option.mem_toList, Std.ExtTreeSet.mem_toList]
      exact hy
    · refine hres' w hw y (by rwa [restrictInstr, divisor?_of_like hlike]) ?_ reg hreg
      rw [← Option.isSome_map (f := Operand.bare)] at hget ⊢
      rwa [restrictInstr, hlike y]

end Convention

end MiddleEnd
