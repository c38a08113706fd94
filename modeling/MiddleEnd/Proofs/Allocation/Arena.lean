import MiddleEnd.Allocation
import MiddleEnd.Proofs.Arena
import MiddleEnd.Proofs.Except

/-! What allocation does to the arena: it gives operands locations and keeps them out of registers, and
changes nothing else. -/

namespace MiddleEnd

/-- An operand without what allocation notes on it. -/
def Operand.bare (o : Operand) : Operand := { o with location := none, restricted := [] }

/-- Two arenas differ at most in what allocation notes. -/
def Arena.Like (a b : Arena) : Prop := ∀ y, (b.get? y).map Operand.bare = (a.get? y).map Operand.bare

namespace Arena

theorem Like.refl (a : Arena) : a.Like a := fun _ => rfl

theorem Like.symm {a b : Arena} (h : a.Like b) : b.Like a := fun y => (h y).symm

theorem Like.trans {a b d : Arena} (h : a.Like b) (k : b.Like d) : a.Like d := fun y => (k y).trans (h y)

theorem Like.bind_eq {a b : Arena} (h : a.Like b) {α : Type} {f : Operand → Option α}
    (hf : ∀ o : Operand, f o.bare = f o) (y : OperandId) : (b.get? y).bind f = (a.get? y).bind f := by
  have key : ∀ o : Option Operand, o.bind f = (o.map Operand.bare).bind f := by
    intro o
    cases o with
    | none => rfl
    | some o => exact (hf o).symm
  rw [key, h y, ← key]

theorem Like.isValue {a b : Arena} (h : a.Like b) (y : OperandId) : b.isValue y = a.isValue y := by
  have hb : ∀ a : Arena, a.isValue y = ((a.get? y).bind fun o => some o.isValue).getD false := by
    intro a
    unfold Arena.isValue
    cases a.get? y <;> rfl
  rw [hb, hb, h.bind_eq fun _ => rfl]

theorem Like.tag? {a b : Arena} (h : a.Like b) (y : OperandId) : b.tag? y = a.tag? y :=
  h.bind_eq (fun _ => rfl) y

/-- Where an operand is. -/
def location (a : Arena) (y : OperandId) : Option Location := (a.get? y).bind (·.location)

theorem register?_eq (a : Arena) (y : OperandId) : a.register? y = (a.location y).bind Location.register? := by
  unfold register? location
  cases a.get? y <;> rfl

theorem register?_eq_some_iff {a : Arena} {y : OperandId} {reg : Register} :
    a.register? y = some reg ↔ a.location y = some (.register reg) := by
  rw [register?_eq]
  cases a.location y with
  | none => simp
  | some place => cases place <;> simp [Location.register?]

theorem isResolved_eq (a : Arena) (y : OperandId) : a.isResolved y = (a.location y).isSome := by
  unfold isResolved location
  cases a.get? y <;> rfl

theorem inFrame_of_unresolved {a : Arena} {x : OperandId} (hx : a.isResolved x = false) {o : Operand}
    (ho : a.get? x = some o) : o.inFrame = false := by
  simp only [isResolved, ho, Option.any_some, Operand.isResolved, Option.isSome_eq_false_iff,
    Option.isNone_iff_eq_none] at hx
  rw [Operand.inFrame, hx, Option.any_none]

/-- `b` is `a` with `x` put in a place. -/
def Locates (a : Arena) (x : OperandId) (loc : Location) (b : Arena) : Prop :=
  ∀ y, b.get? y = if x = y then (a.get? y).map (fun o => { o with location := some loc }) else a.get? y

theorem locates_spill (a : Arena) (x : OperandId) : a.Locates x .frame (a.spill x) := a.get?_modify x _

theorem locates_assign {a b : Arena} {x : OperandId} {reg : Register} (h : a.assign x reg = .ok b) :
    a.Locates x (.register reg) b := by
  have hframe : ∀ o, a.get? x = some o → o.inFrame = false := by
    intro o ho
    by_contra hin
    rw [assign_in_frame ho (by simpa using hin)] at h
    cases h
  rw [assign_outside_frame reg hframe] at h
  cases h
  exact a.get?_modify x _

namespace Locates

variable {a b : Arena} {x : OperandId} {loc : Location}

theorem like (h : a.Locates x loc b) : a.Like b := by
  intro y
  rw [h y]
  split
  · cases a.get? y <;> rfl
  · rfl

theorem restricted (h : a.Locates x loc b) (y : OperandId) : b.restricted y = a.restricted y := by
  unfold Arena.restricted
  rw [h y]
  split
  · cases a.get? y <;> rfl
  · rfl

theorem location_of_ne (h : a.Locates x loc b) {y : OperandId} (hy : x ≠ y) : b.location y = a.location y := by
  rw [location, h y, if_neg hy, location]

theorem location_self (h : a.Locates x loc b) {o : Operand} (ho : a.get? x = some o) : b.location x = some loc := by
  rw [location, h x, if_pos rfl, ho]
  rfl

end Locates

theorem mem_restrict (o : Operand) (regs : List Register) (reg : Register) :
    reg ∈ (o.restrict regs).restricted ↔ reg ∈ o.restricted ∨ reg ∈ regs := by
  have key : ∀ regs rs : List Register,
      reg ∈ regs.foldl (fun rs r => if r ∈ rs then rs else rs ++ [r]) rs ↔ reg ∈ rs ∨ reg ∈ regs := by
    intro regs
    induction regs with
    | nil => simp
    | cons r regs ih =>
      intro rs
      rw [List.foldl_cons, ih, List.mem_cons]
      split <;> grind
  exact key regs o.restricted

theorem restrictAll_keeps (a : Arena) (regs : List Register) (ids : List OperandId) :
    a.Like (a.restrictAll regs ids) ∧ (∀ y, (a.restrictAll regs ids).location y = a.location y) ∧
      ∀ y reg, reg ∈ a.restricted y ∨ (y ∈ ids ∧ reg ∈ regs ∧ (a.get? y).isSome) →
        reg ∈ (a.restrictAll regs ids).restricted y := by
  induction ids generalizing a with
  | nil => exact ⟨.refl a, fun _ => rfl, fun y reg h => by simpa [restrictAll] using h⟩
  | cons x ids ih =>
    obtain ⟨hlike, hloc, hres⟩ := ih (a.restrict x regs)
    have hget : ∀ y, (a.restrict x regs).get? y = if x = y then (a.get? y).map (·.restrict regs) else a.get? y :=
      a.get?_modify x _
    have hlike' : a.Like (a.restrict x regs) := by
      intro y
      rw [hget]
      split
      · cases a.get? y <;> rfl
      · rfl
    refine ⟨hlike'.trans hlike, fun y => (hloc y).trans ?_, fun y reg h => hres y reg ?_⟩
    · rw [location, hget, location]
      split
      · cases a.get? y <;> rfl
      · rfl
    · rw [Arena.restricted, hget]
      cases hy : a.get? y with
      | none => simp [Arena.restricted, hy] at h
      | some o =>
        simp only [Arena.restricted, hy, Option.elim_some, List.mem_cons, Option.isSome_some, and_true] at h
        split
        case isTrue he =>
          rw [Option.map_some, Option.elim_some, mem_restrict]
          exact Or.inl (h.imp id fun h => h.2)
        case isFalse he =>
          exact h.imp id fun ⟨hy, hreg⟩ => ⟨hy.resolve_left fun e => he e.symm, hreg, rfl⟩

end Arena

/-! ### Analysis looks at no more of an operand than whether it is a value -/

section Values

variable {a b : Arena} (h : b.isValue = a.isValue)
include h

theorem Instr.reads_congr (z : Instr) : z.reads b = z.reads a := by
  rw [reads, reads, h]

theorem Instr.writes?_congr (z : Instr) : z.writes? b = z.writes? a := by
  rw [writes?, writes?, h]

theorem localSets_congr (is : List Instr) : localSets b is = localSets a is := by
  have hstep : localStep b = localStep a := by
    funext sets z
    rw [localStep, localStep, Instr.reads_congr h, Instr.writes?_congr h]
  rw [localSets, localSets, hstep]

theorem Scan.run_congr (first : Nat) (is : List Instr) (out : LiveSet) : run b first is out = run a first is out := by
  have hstep : step b = step a := by
    funext z pos s
    rw [step, step, Instr.reads_congr h, Instr.writes?_congr h]
  rw [run, run, hstep]

end Values

theorem Code.interference_congr {c d : Code} (h : d.operands.isValue = c.operands.isValue) {g : FlowGraph}
    (hins : d.blockInstrs g = c.blockInstrs g) : d.interference g = c.interference g := by
  have hbundle : BlockInstr.bundle? d.operands = BlockInstr.bundle? c.operands := by
    funext s
    rw [BlockInstr.bundle?, BlockInstr.bundle?, Instr.writes?_congr h]
  have hlink : BlockInstr.link d.operands = BlockInstr.link c.operands := by
    funext adj s
    rw [BlockInstr.link, BlockInstr.link, Instr.writes?_congr h]
  have htouched : BlockInstr.touched d.operands = BlockInstr.touched c.operands := by
    funext s
    rw [BlockInstr.touched, BlockInstr.touched, Instr.reads_congr h, Instr.writes?_congr h]
  simp only [interference, hins, hbundle, hlink, htouched]

end MiddleEnd
