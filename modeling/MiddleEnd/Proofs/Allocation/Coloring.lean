import MiddleEnd.Proofs.Allocation.Arena

/-! Colouring. It moves no operand that has a place, gives one to every operand of its order, and a register
that it chooses is allowed to the operand and held by no neighbour. -/

namespace MiddleEnd

theorem firstFree?_eq_find? (held restricted registers : List Register) :
    firstFree? held restricted registers = registers.find? fun r => r ∉ held && r ∉ restricted := by
  have hfilter : (registers.filter (· ∉ restricted)).find? (· ∉ held) =
      registers.find? fun r => r ∉ held && r ∉ restricted := by
    rw [List.find?_filter]
    exact congrArg (registers.find? ·) (funext fun r => by grind)
  unfold firstFree?
  split
  case h_1 r hr =>
    split
    case isTrue => exact hfilter
    case isFalse hfree =>
      -- what is found first among all is found first among the allowed ones
      obtain ⟨hheld, before, after, rfl, hbefore⟩ := List.find?_eq_some_iff_append.mp hr
      refine (List.find?_eq_some_iff_append.mpr ⟨by simp_all, before, after, rfl, fun q hq => ?_⟩).symm
      have := hbefore q hq
      simp_all
  case h_2 hnone =>
    refine (List.find?_eq_none.mpr fun q hq => ?_).symm
    have := List.find?_eq_none.mp hnone q hq
    simp_all

/-- Neighbours are neighbours of each other, and no operand is its own. -/
structure Interference.Proper (g : Interference) : Prop where
  symm : ∀ x y, g.interferes x y → g.interferes y x
  irrefl : ∀ x, ¬ g.interferes x x

/-- What colouring has made of the arena `a` so far. -/
structure Interference.Colored (g : Interference) (a b : Arena) : Prop where
  like : a.Like b
  kept : ∀ y, a.isResolved y → b.location y = a.location y
  moved : ∀ y, b.location y ≠ a.location y → y ∈ g.order
  restricted : ∀ y, b.restricted y = a.restricted y
  allowed : ∀ y reg, a.location y = none → b.register? y = some reg → reg ∉ a.restricted y
  apart : ∀ x y reg, g.interferes x y → a.location x = none ∨ a.location y = none →
    b.register? x = some reg → b.register? y ≠ some reg

namespace Interference

variable {g : Interference} {registers : List Register}

theorem Colored.refl (a : Arena) : g.Colored a a := by
  refine ⟨.refl a, fun _ _ => rfl, fun y h => absurd rfl h, fun _ => rfl, fun y reg hy h => ?_,
    fun x y reg _ h hx hy => ?_⟩
  · rw [Arena.register?_eq, hy] at h
    cases h
  · rw [Arena.register?_eq] at hx hy
    rcases h with h | h
    · rw [h] at hx; cases hx
    · rw [h] at hy; cases hy

theorem mem_held {a : Arena} {ids : List OperandId} {y : OperandId} {reg : Register} (hy : y ∈ ids)
    (h : a.register? y = some reg) : reg ∈ a.held ids := List.mem_filterMap.mpr ⟨y, hy, h⟩

theorem free?_eq_some {a : Arena} {x : OperandId} {reg : Register} (h : g.free? a registers x = some reg) :
    reg ∉ a.restricted x ∧ ∀ y, g.interferes x y → a.register? y ≠ some reg := by
  rw [free?, firstFree?_eq_find?] at h
  have hp := List.find?_some h
  simp only [Bool.and_eq_true, decide_eq_true_eq] at hp
  refine ⟨hp.2, fun y hy hreg => hp.1 (mem_held ?_ hreg)⟩
  rw [Std.ExtTreeSet.mem_toList]
  exact Std.ExtTreeSet.contains_iff_mem.mp hy

theorem colorOne_eq_ok {s t : Coloring} {x : OperandId} (h : g.colorOne registers s x = .ok t) :
    (s.operands.isResolved x = true ∧ t = s) ∨ (s.operands.location x = none ∧
      ∃ loc, s.operands.Locates x loc t.operands ∧
        ∀ reg, loc = .register reg → g.free? s.operands registers x = some reg) := by
  unfold colorOne at h
  split at h
  case isTrue hx => exact Or.inl ⟨hx, (Except.ok.inj h).symm⟩
  case isFalse hx =>
    rw [Arena.isResolved_eq, Option.not_isSome_iff_eq_none] at hx
    refine Or.inr ⟨hx, ?_⟩
    split at h
    case h_1 reg hreg =>
      obtain ⟨operands, hop, h⟩ := Except.bind_eq_ok.mp h
      cases h
      exact ⟨_, Arena.locates_assign hop, fun r hr => by cases hr; exact hreg⟩
    case h_2 =>
      cases h
      exact ⟨_, Arena.locates_spill _ _, fun r hr => by cases hr⟩

theorem Colored.step (hg : g.Proper) {a : Arena} {s t : Coloring} {x : OperandId} (hx : x ∈ g.order)
    (hs : g.Colored a s.operands) (h : g.colorOne registers s x = .ok t) : g.Colored a t.operands := by
  obtain ⟨-, rfl⟩ | ⟨hnone, loc, hloc, hreg⟩ := colorOne_eq_ok h
  · exact hs
  -- the only operand that changes is `x`, which had no place
  have hother : ∀ y, x ≠ y → t.operands.location y = s.operands.location y := fun y hy => hloc.location_of_ne hy
  have hself : ∀ reg, t.operands.register? x = some reg → g.free? s.operands registers x = some reg := by
    intro reg h
    cases hget : s.operands.get? x with
    | none =>
      rw [Arena.register?, hloc x, if_pos rfl, hget] at h
      cases h
    | some o =>
      rw [Arena.register?_eq, hloc.location_self hget] at h
      cases loc with
      | register r =>
        cases h
        exact hreg reg rfl
      | frame => cases h
  have hregister : ∀ y, x ≠ y → t.operands.register? y = s.operands.register? y := by
    intro y hy
    rw [Arena.register?_eq, Arena.register?_eq, hother y hy]
  have hxnone : a.location x = none := by
    cases hax : a.location x with
    | none => rfl
    | some l =>
      rw [hs.kept x (by rw [Arena.isResolved_eq, hax]; rfl), hax] at hnone
      cases hnone
  refine ⟨hs.like.trans hloc.like, fun y hy => ?_, fun y hy => ?_, fun y => (hloc.restricted y).trans (hs.restricted y),
    fun y reg hy h => ?_, fun y z reg hyz hnone hy hz => ?_⟩
  · by_cases hxy : x = y
    · rw [← hxy, Arena.isResolved_eq, hxnone] at hy
      cases hy
    · rw [hother y hxy, hs.kept y hy]
  · by_cases hxy : x = y
    · exact hxy ▸ hx
    · exact hs.moved y (hother y hxy ▸ hy)
  · by_cases hxy : x = y
    · subst hxy
      exact hs.restricted x ▸ (free?_eq_some (hself reg h)).1
    · exact hs.allowed y reg hy (hregister y hxy ▸ h)
  · by_cases hxy : x = y
    · subst hxy
      have hxz : x ≠ z := by rintro rfl; exact hg.irrefl x hyz
      exact (free?_eq_some (hself reg hy)).2 z hyz (hregister z hxz ▸ hz)
    · by_cases hxz : x = z
      · subst hxz
        exact (free?_eq_some (hself reg hz)).2 y (hg.symm y x hyz) (hregister y hxy ▸ hy)
      · exact hs.apart y z reg hyz hnone (hregister y hxy ▸ hy) (hregister z hxz ▸ hz)

theorem color_colored (hg : g.Proper) {a : Arena} {s : Coloring} (h : g.color registers a = .ok s) :
    g.Colored a s.operands :=
  foldlM_preserves (P := fun s => g.Colored a s.operands) (fun _ _ _ hx hs h => hs.step hg hx h) h (.refl a)

theorem colorOne_resolved {s t : Coloring} {x : OperandId} (h : g.colorOne registers s x = .ok t) :
    (∀ y, s.operands.isResolved y → t.operands.isResolved y) ∧
      (∀ y, (t.operands.get? y).isSome = (s.operands.get? y).isSome) ∧
      ((s.operands.get? x).isSome → t.operands.isResolved x) := by
  obtain ⟨hx, rfl⟩ | ⟨hnone, loc, hloc, -⟩ := colorOne_eq_ok h
  · exact ⟨fun _ h => h, fun _ => rfl, fun _ => hx⟩
  refine ⟨fun y hy => ?_, fun y => ?_, fun hx => ?_⟩
  · by_cases hxy : x = y
    · rw [← hxy, Arena.isResolved_eq, hnone] at hy
      cases hy
    · rwa [Arena.isResolved_eq, hloc.location_of_ne hxy, ← Arena.isResolved_eq]
  · rw [hloc y]
    split
    · rw [Option.isSome_map]
    · rfl
  · obtain ⟨o, ho⟩ := Option.isSome_iff_exists.mp hx
    rw [Arena.isResolved_eq, hloc.location_self ho]
    rfl

theorem foldlM_colorOne_resolved {l : List OperandId} {s t : Coloring}
    (h : l.foldlM (g.colorOne registers) s = .ok t) :
    (∀ y, s.operands.isResolved y → t.operands.isResolved y) ∧
      ∀ y ∈ l, (s.operands.get? y).isSome → t.operands.isResolved y := by
  induction l generalizing s with
  | nil =>
    obtain rfl : s = t := by simpa [pure, Except.pure] using h
    exact ⟨fun _ h => h, by simp⟩
  | cons x l ih =>
    rw [List.foldlM_cons, Except.bind_eq_ok] at h
    obtain ⟨u, hu, h⟩ := h
    obtain ⟨hkeep, hsome, hself⟩ := colorOne_resolved hu
    obtain ⟨hkeep', hrest⟩ := ih h
    refine ⟨fun y hy => hkeep' y (hkeep y hy), fun y hy hget => ?_⟩
    rcases List.mem_cons.mp hy with rfl | hy
    · exact hkeep' y (hself hget)
    · exact hrest y hy (hsome y ▸ hget)

theorem color_resolved {a : Arena} {s : Coloring} (h : g.color registers a = .ok s) {y : OperandId}
    (hy : y ∈ g.order) (hget : (a.get? y).isSome) : s.operands.isResolved y :=
  (foldlM_colorOne_resolved h).2 y hy hget

end Interference

end MiddleEnd
