import MiddleEnd.Liveness
import MiddleEnd.Proofs.Code

/-! The backward scan of a block. What is live before an instruction follows from what is live after
it; what the scan arrives at is what the uses and definitions of the block say. -/

namespace MiddleEnd

/-- An instruction without its live-out set. -/
def Instr.bare (i : Instr) : Instr := { i with liveOut := ∅ }

/-- What is live before an instruction, given what is live after it. -/
def Instr.before (a : Arena) (i : Instr) (live : LiveSet) : LiveSet :=
  ((i.writes? a).elim live live.erase).insertMany (i.reads a)

theorem Instr.mem_before (a : Arena) (i : Instr) (live : LiveSet) (x : OperandId) :
    x ∈ i.before a live ↔ x ∈ i.reads a ∨ (x ∈ live ∧ i.writes? a ≠ some x) := by
  cases hw : i.writes? a with
  | none => simp [before, hw, or_comm]
  | some d =>
    simp only [before, hw, Option.elim_some, LiveSet.mem_insertMany_iff, LiveSet.mem_erase_iff, ne_eq,
      Option.some.injEq]
    grind

section LocalSets

variable (a : Arena)

theorem foldl_localStep (is : List Instr) (u d : LiveSet) :
    (∀ x, x ∈ (is.foldl (localStep a) (u, d)).1 ↔ x ∈ u ∨ (x ∈ (localSets a is).1 ∧ x ∉ d)) ∧
      ∀ x, x ∈ (is.foldl (localStep a) (u, d)).2 ↔ x ∈ d ∨ x ∈ (localSets a is).2 := by
  induction is generalizing u d with
  | nil => simp [localSets]
  | cons i is ih =>
    obtain ⟨h1, h2⟩ := ih (localStep a (u, d) i).1 (localStep a (u, d) i).2
    obtain ⟨k1, k2⟩ := ih (localStep a (∅, ∅) i).1 (localStep a (∅, ∅) i).2
    simp only [localSets, List.foldl_cons] at *
    constructor
    · intro x
      rw [h1, k1]
      simp only [localStep, LiveSet.mem_insertMany_iff, List.mem_filter, decide_eq_true_eq]
      grind
    · intro x
      rw [h2, k2]
      simp only [localStep, LiveSet.mem_insertMany_iff]
      grind

theorem mem_uses_cons (i : Instr) (is : List Instr) (x : OperandId) :
    x ∈ (localSets a (i :: is)).1 ↔ x ∈ i.reads a ∨ (x ∈ (localSets a is).1 ∧ i.writes? a ≠ some x) := by
  have := (foldl_localStep a is (localStep a (∅, ∅) i).1 (localStep a (∅, ∅) i).2).1 x
  rw [localSets, List.foldl_cons, this]
  simp [localStep, eq_comm]

theorem mem_defs_cons (i : Instr) (is : List Instr) (x : OperandId) :
    x ∈ (localSets a (i :: is)).2 ↔ i.writes? a = some x ∨ x ∈ (localSets a is).2 := by
  have := (foldl_localStep a is (localStep a (∅, ∅) i).1 (localStep a (∅, ∅) i).2).2 x
  rw [localSets, List.foldl_cons, this]
  simp [localStep]

end LocalSets

namespace Scan

variable (a : Arena)

theorem run_nil (first : Nat) (out : LiveSet) : run a first [] out = start out := rfl

theorem run_cons (first : Nat) (i : Instr) (is : List Instr) (out : LiveSet) :
    run a first (i :: is) out = (run a (first + 1) is out).step a i first := rfl

theorem live_cons (first : Nat) (i : Instr) (is : List Instr) (out : LiveSet) :
    (run a first (i :: is) out).live = i.before a (run a (first + 1) is out).live := rfl

theorem liveOuts_cons (first : Nat) (i : Instr) (is : List Instr) (out : LiveSet) :
    (run a first (i :: is) out).liveOuts =
      (run a (first + 1) is out).live :: (run a (first + 1) is out).liveOuts := rfl

theorem length_liveOuts (first : Nat) (is : List Instr) (out : LiveSet) :
    (run a first is out).liveOuts.length = is.length := by
  induction is generalizing first with
  | nil => rfl
  | cons i is ih => rw [liveOuts_cons, List.length_cons, ih, List.length_cons]

theorem liveOuts_getElem? (first : Nat) (is : List Instr) (out : LiveSet) {k : Nat} (hk : k < is.length) :
    (run a first is out).liveOuts[k]? = some (run a (first + k + 1) (is.drop (k + 1)) out).live := by
  induction is generalizing first k with
  | nil => simp at hk
  | cons i is ih =>
    rw [liveOuts_cons]
    cases k with
    | zero => rfl
    | succ k =>
      rw [List.getElem?_cons_succ, ih (first + 1) (by simpa using hk), List.drop_succ_cons,
        show first + 1 + k + 1 = first + (k + 1) + 1 by omega]

/-- The scan arrives at the uses of the block and at what is live after it and not defined in it. -/
theorem mem_live_run (first : Nat) (is : List Instr) (out : LiveSet) (x : OperandId) :
    x ∈ (run a first is out).live ↔ x ∈ (localSets a is).1 ∨ (x ∈ out ∧ x ∉ (localSets a is).2) := by
  induction is generalizing first with
  | nil => simp [run_nil, start, localSets]
  | cons i is ih =>
    rw [live_cons, Instr.mem_before, ih, mem_uses_cons, mem_defs_cons]
    grind

theorem run_map_bare (first : Nat) (is : List Instr) (out : LiveSet) :
    run a first (is.map Instr.bare) out = run a first is out := by
  induction is generalizing first with
  | nil => rfl
  | cons i is ih => rw [List.map_cons, run_cons, ih, run_cons]; rfl

end Scan

/-- What is live after position `i` of a block that ends at `last`, where `out` is live. -/
def Code.liveAfter (c : Code) (last : Nat) (out : LiveSet) (i : Nat) : LiveSet :=
  (Scan.run c.operands (i + 1) (c.slice (i + 1) last) out).live

theorem Code.liveAfter_last (c : Code) (last : Nat) (out : LiveSet) : c.liveAfter last out last = out := by
  rw [liveAfter, slice_eq_nil c (by omega)]
  rfl

theorem Code.liveAfter_of_lt {c : Code} {last i : Nat} {x : Instr} (out : LiveSet) (hi : i < last)
    (hx : c.instrs[i + 1]? = some x) :
    c.liveAfter last out i = x.before c.operands (c.liveAfter last out (i + 1)) := by
  rw [liveAfter, slice_cons c (by omega) hx, Scan.live_cons]
  rfl

end MiddleEnd
