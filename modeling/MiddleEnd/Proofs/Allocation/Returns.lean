import MiddleEnd.Convention.SysV
import MiddleEnd.Proofs.Allocation.Record
import MiddleEnd.Proofs.Lowering.Shape

/-! What is live after a return. Control does not go on from there, so nothing is, with one exception: a jump right
behind a return is in the block of the return, and a block goes on to where its last instruction goes. -/

namespace MiddleEnd

section Wanted

variable {c : Code} {r : Routine} {x : OperandId} {i j : Nat} {z w : Instr}

theorem Routine.CutFrom.follows_return (h : r.CutFrom c) (hz : c.instrs[i]? = some z) (hret : z.op = .ret) :
    r.flow.Follows i j ↔ c.DeadJump r.first r.last i j := by
  rw [h.mirrors.follows_iff, or_iff_right]
  rintro ⟨-, y, hy, hto⟩
  obtain rfl : z = y := Option.some.inj (hz.symm.trans hy)
  rcases hto with ⟨-, htransfer⟩ | ⟨label, hlabel, -⟩
  · simp [Instr.isTransfer, hret] at htransfer
  · simp [Instr.target?, hret] at hlabel

theorem Routine.CutFrom.follows_jump (h : r.CutFrom c) (hf : r.first ≤ i) (hl : i ≤ r.last)
    (hw : c.instrs[i]? = some w) (hjump : w.op = .jump) {label : OperandId} (hleft : w.left = some label) {m : Nat}
    (hm : c.labelAt? r.first r.last label = some m) : r.flow.Follows i j ↔ j = m := by
  have htarget : w.target? = some label := by rw [Instr.target?, hjump, hleft]
  rw [h.mirrors.follows_iff]
  constructor
  · rintro (⟨-, y, hy, hto⟩ | ⟨-, ⟨y, hy, hret⟩, -⟩)
    · obtain rfl : w = y := Option.some.inj (hw.symm.trans hy)
      rcases hto with ⟨-, htransfer⟩ | ⟨label', hlabel, hj⟩
      · simp [Instr.isTransfer, hjump] at htransfer
      · obtain rfl : label = label' := Option.some.inj (htarget.symm.trans hlabel)
        exact Option.some.inj (hj.symm.trans hm)
    · obtain rfl : w = y := Option.some.inj (hw.symm.trans hy)
      rw [hjump] at hret
      cases hret
  · rintro rfl
    obtain ⟨h1, h2, -⟩ := Code.labelAt?_spec hm
    exact Or.inl ⟨⟨hf, hl, h1, h2⟩, w, hw, Or.inr ⟨label, htarget, hm⟩⟩

theorem wantedAt_jump_iff (hw : c.instrs[i]? = some w) (hjump : w.op = .jump) (hargs : w.args = [])
    (hresult : w.result = none) : WantedAt c r.flow x i ↔ Wanted c r.flow x i := by
  have hreads : w.reads c.operands = [] := by simp [Instr.reads, Instr.sources, hjump, hargs]
  have hwrites : w.writes? c.operands = none := by simp [Instr.writes?, Instr.dest?, hjump, hresult]
  constructor
  · rintro ⟨y, hy, hx⟩
    obtain rfl : w = y := Option.some.inj (hw.symm.trans hy)
    simpa [hreads, hwrites] using hx
  · exact fun hx => ⟨w, hw, Or.inr ⟨by simp [hwrites], hx⟩⟩

theorem Routine.CutFrom.not_wanted_return (h : r.CutFrom c) (hz : c.instrs[i]? = some z) (hret : z.op = .ret)
    (hnext : ∀ w, c.instrs[i + 1]? = some w → w.op ≠ .jump) : ¬ Wanted c r.flow x i := by
  intro hx
  obtain ⟨j, hij, -⟩ := wanted_iff.mp hx
  obtain ⟨⟨-, -, rfl⟩, -, w, hw, hjump⟩ := (h.follows_return hz hret).mp hij
  exact hnext w hw hjump

theorem Routine.CutFrom.wanted_return_iff (h : r.CutFrom c) (hf : r.first ≤ i) (hl : i + 1 ≤ r.last)
    (hz : c.instrs[i]? = some z) (hret : z.op = .ret) (hw : c.instrs[i + 1]? = some w) (hjump : w.op = .jump)
    (hargs : w.args = []) (hresult : w.result = none) : Wanted c r.flow x i ↔ Wanted c r.flow x (i + 1) := by
  rw [wanted_iff, ← wantedAt_jump_iff hw hjump hargs hresult]
  constructor
  · rintro ⟨j, hij, hx⟩
    obtain ⟨⟨-, -, rfl⟩, -⟩ := (h.follows_return hz hret).mp hij
    exact hx
  · exact fun hx => ⟨i + 1, (h.follows_return hz hret).mpr ⟨⟨hf, hl, rfl⟩, ⟨z, hz, hret⟩, w, hw, hjump⟩, hx⟩

end Wanted

/-- Only a jump keeps values live after a return. In a program that compiles, the live-out set of a return is empty
unless the next instruction is a jump. In that case the two share a block and a live-out set, which is what is live
into the block at the target of the jump. -/
theorem only_jump_keeps_values_live_after_return (conv : Convention) (p : Program) (u : Compiled)
    (hu : p.compile conv = .ok u) (i : Nat) (z : Instr) (hz : u.code.instrs[i]? = some z) (hret : z.op = .ret) :
    ((∀ w, u.code.instrs[i + 1]? = some w → w.op ≠ .jump) → z.liveOut = ∅) ∧
      ∀ w, u.code.instrs[i + 1]? = some w → w.op = .jump → z.liveOut = w.liveOut ∧
        ∃ r ∈ u.routines, (∃ k b, r.flow.block? k = some b ∧ b.first ≤ i ∧ i + 1 ≤ b.last) ∧
          ∃ label j k b, w.left = some label ∧ u.code.labelAt? r.first r.last label = some j ∧
            r.flow.block? k = some b ∧ b.first = j ∧ ∀ x, x ∈ z.liveOut ↔ x ∈ b.liveIn := by
  obtain ⟨l, rs, hl, hc, hrs, hlike, hall⟩ := Program.compile_records hu
  -- the function that the return is in
  obtain ⟨live, hz'⟩ := hlike.symm.instr hz
  obtain ⟨range, hmem, hf, hlast⟩ :=
    (Code.routines_spans hrs).cover (Nat.zero_le i) (Array.getElem?_eq_some_iff.mp hz').1
  obtain ⟨r, hr, rfl⟩ := List.mem_map.mp hmem
  obtain ⟨s, hs, hrec⟩ := (mem_of_forall₂ hall).2 r hr
  have hcut := Code.routines_cutFrom hc.numbered hrs hr
  refine ⟨fun hnext => ?_, fun w hw hjump => ?_⟩
  · ext x
    rw [hrec.noted i z hf hlast hz x]
    refine iff_of_false (hcut.not_wanted_return hz' hret fun w hw hjump => ?_) (by simp)
    obtain ⟨live', hw'⟩ := hlike.instr hw
    exact hnext _ hw' hjump
  · obtain ⟨live', hw'⟩ := hlike.symm.instr hw
    have hargs := (Code.shaped_typical.lower hl _ _ hw').jump hjump
    have hresult := (hc.fits _ _ hw').silent (by rw [show Instr.op _ = .jump from hjump]; rfl)
    have hin : i + 1 ≤ r.last := hcut.succ_le_last hlast hw' (by simp [hjump])
    have hsame : ∀ {x}, Wanted l.code r.flow x i ↔ Wanted l.code r.flow x (i + 1) :=
      hcut.wanted_return_iff hf hin hz' hret hw' hjump hargs hresult
    refine ⟨?_, s, hs, ?_, ?_⟩
    · ext x
      rw [hrec.noted i z hf hlast hz x, hrec.noted (i + 1) w (by omega) hin hw x, hsame]
    · obtain ⟨-, k, b, hk, hbi, hib⟩ := hcut.mirrors.dead_jump i (i + 1)
        ⟨⟨hf, hin, rfl⟩, ⟨_, hz', hret⟩, _, hw', hjump⟩
      obtain ⟨d, hd, hfirst, hblast, -⟩ := hrec.block k b hk
      exact ⟨k, d, hd, by omega, by omega⟩
    · obtain ⟨label, j, htarget, hj, k, b, hk, hfirst⟩ :=
        hcut.mirrors.target_starts (i + 1) _ (by omega) hin hw' (Or.inl hjump)
      have hleft : w.left = some label := by simpa [Instr.target?, hjump] using htarget
      obtain ⟨d, hd, hdfirst, -, hlive⟩ := hrec.block k b hk
      refine ⟨label, j, k, d, hleft, ?_, hd, hdfirst.trans hfirst, fun x => ?_⟩
      · rw [hrec.first, hrec.last, hlike.labelAt?, hj]
      · rw [hrec.noted i z hf hlast hz x, hlive x, hfirst, hsame, wanted_iff]
        simp only [hcut.follows_jump (by omega) hin hw' hjump hleft hj, exists_eq_left]

/-- A loop that is left behind a return:

    int f(int x, int y) { while (x) { return x; break; } return y; } -/
def dropout : Program where
  symbols.symbols := #[
    { name := "f", kind := .function, ty := .function [.int, .int] .int },
    { name := "x", kind := .param, ty := .int },
    { name := "y", kind := .param, ty := .int }]
  decls := [.function 0 [1, 2] (.seq
    (.whileLoop (.name 1 .int) (.seq (.ret (some (.name 1 .int))) .leave))
    (.ret (some (.name 2 .int))))]

/-- The parameter `y` counts as live after the return in the loop, although control never goes on from there. -/
theorem dropout_keeps_value_live_after_return : ∃ u z, dropout.compile Convention.SysV.convention = .ok u ∧
    u.code.instrs[6]? = some z ∧ z.op = .ret ∧ z.liveOut ≠ ∅ := by
  have hrun : (dropout.compile Convention.SysV.convention).toOption.any (fun u =>
      (u.code.instrs[6]?.any fun z => z.op = .ret ∧ z.liveOut.toList = [4])) = true := by
    decide +kernel
  cases hu : dropout.compile Convention.SysV.convention with
  | error e => rw [hu] at hrun; cases hrun
  | ok u =>
    rw [hu, Except.toOption, Option.any_some] at hrun
    obtain ⟨z, hz, hlive⟩ := (Option.any_eq_true _ _).mp hrun
    obtain ⟨hret, hlive⟩ := of_decide_eq_true hlive
    refine ⟨u, z, rfl, hz, hret, fun hempty => ?_⟩
    rw [hempty] at hlive
    cases hlive

/-- The return at position 6 has what the jump behind it has live, and nothing is live after the one at the end. -/
theorem dropout_returns : ∃ u, dropout.compile Convention.SysV.convention = .ok u ∧
    (∃ z w, u.code.instrs[6]? = some z ∧ u.code.instrs[7]? = some w ∧ z.op = .ret ∧ w.op = .jump ∧
      z.liveOut = w.liveOut ∧ ∃ r ∈ u.routines, ∃ k b, r.flow.block? k = some b ∧ b.first ≤ 6 ∧ 7 ≤ b.last) ∧
    ∃ z, u.code.instrs[12]? = some z ∧ z.op = .ret ∧ z.liveOut = ∅ := by
  have hrun : (dropout.compile Convention.SysV.convention).toOption.any (fun u => decide (
      (u.code.instrs[6]?.any (·.op = .ret)) = true ∧ (u.code.instrs[7]?.any (·.op = .jump)) = true ∧
      (u.code.instrs[12]?.any (·.op = .ret)) = true ∧ u.code.instrs[13]? = none)) = true := by
    decide +kernel
  cases hu : dropout.compile Convention.SysV.convention with
  | error e => rw [hu] at hrun; cases hrun
  | ok u =>
    rw [hu, Except.toOption, Option.any_some, decide_eq_true_eq] at hrun
    obtain ⟨h6, h7, h12, h13⟩ := hrun
    obtain ⟨z, hz, hret⟩ := (Option.any_eq_true _ _).mp h6
    obtain ⟨w, hw, hjump⟩ := (Option.any_eq_true _ _).mp h7
    obtain ⟨v, hv, hend⟩ := (Option.any_eq_true _ _).mp h12
    have hret := of_decide_eq_true hret
    have hjump := of_decide_eq_true hjump
    have hend := of_decide_eq_true hend
    obtain ⟨-, hdead⟩ := only_jump_keeps_values_live_after_return _ dropout u hu 6 z hz hret
    obtain ⟨hlive, r, hr, hblock, -⟩ := hdead w hw hjump
    obtain ⟨hempty, -⟩ := only_jump_keeps_values_live_after_return _ dropout u hu 12 v hv hend
    refine ⟨u, rfl, ⟨z, w, hz, hw, hret, hjump, hlive, r, hr, hblock⟩, v, hv, hend, hempty fun x hx => ?_⟩
    rw [h13] at hx
    cases hx

end MiddleEnd
