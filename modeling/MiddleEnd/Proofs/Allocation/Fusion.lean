import MiddleEnd.Convention.SysV
import MiddleEnd.Proofs.Allocation.Record
import MiddleEnd.Proofs.Lowering.Shape

/-! Comparisons that can be fused with a branch. The bundle of a comparison looks one instruction ahead and no
further. That is enough, because the condition of a branch is computed right before it and used nowhere else. -/

namespace MiddleEnd

namespace Code

variable {c d : Code} {y : OperandId} {i j : Nat} {z w : Instr}

theorem Like.readsAt (h : c.Like d) (hy : c.ReadsAt y i) : d.ReadsAt y i := by
  obtain ⟨z, hz, hmem⟩ := hy
  obtain ⟨live, hd⟩ := h.instr hz
  exact ⟨_, hd, hmem⟩

theorem Like.readsAt_iff (h : c.Like d) : d.ReadsAt y i ↔ c.ReadsAt y i := ⟨h.symm.readsAt, h.readsAt⟩

theorem readsAt_of_branch (hw : c.instrs[j]? = some w) (hop : w.op = .branch) (hleft : w.left = some y) :
    c.ReadsAt y j :=
  ⟨w, hw, by simp [Instr.sources, hop, hleft]⟩

theorem not_breaks_of_compare {op : RelOp} (hz : c.instrs[i]? = some z) (hop : z.op = .binary (.rel op))
    (hw : c.instrs[i + 1]? = some w) (hbranch : w.op = .branch) : ¬ c.Breaks (i + 1) := by
  rintro (⟨x, hx, hlabel⟩ | ⟨before, x, hpos, hx, hleaves⟩)
  · obtain rfl : w = x := Option.some.inj (hw.symm.trans hx)
    rw [hbranch] at hlabel
    cases hlabel
  · obtain rfl : i = before := by omega
    obtain rfl : z = x := Option.some.inj (hz.symm.trans hx)
    simp [hop] at hleaves

/-- A comparison whose result a branch tests: the branch is the next instruction, and nothing else reads the
result. -/
theorem Linear.branch_after_compare (hlin : c.Linear) (hshape : c.Each Code.Typical) {op : RelOp}
    (hz : c.instrs[i]? = some z) (hop : z.op = .binary (.rel op)) (hres : z.result = some y)
    (hw : c.instrs[j]? = some w) (hbranch : w.op = .branch) (hleft : w.left = some y) :
    j = i + 1 ∧ ∀ q, c.ReadsAt y q ↔ q = i + 1 := by
  obtain ⟨y', hy', htag⟩ := (hshape i z hz).compare op hop
  obtain rfl : y = y' := Option.some.inj (hres.symm.trans hy')
  have hsingle := isSingle_of_tag htag (by simp)
  have hwrites : c.WritesAt y i := ⟨z, hz, by rw [Instr.dest?_eq_result (by simp [hop]), hres]⟩
  obtain ⟨t, ht, hmade⟩ := (hshape j w hw).branch hbranch
  obtain rfl : y = t := Option.some.inj (hleft.symm.trans ht)
  -- the condition is a temporary, so it was written right before the branch
  obtain rfl : j = i + 1 := by
    rcases hmade with ⟨id, hid⟩ | ⟨-, hnone⟩ | ⟨k, rfl, hk⟩
    · rw [(hlin.interned id y hid).2] at htag
      cases htag
    · rw [hnone] at htag
      cases htag
    · rw [hlin.writes y hsingle k i hk hwrites]
  exact ⟨rfl, hlin.readsAt_iff hsingle (readsAt_of_branch hw hbranch hleft)⟩

end Code

section Wanted

variable {c : Code} {r : Routine} {y : OperandId} {i : Nat} {z w : Instr}

theorem Routine.CutFrom.follows_branch (h : r.CutFrom c) (hw : c.instrs[i + 1]? = some w) (hop : w.op = .branch)
    {j : Nat} (hj : r.flow.Follows j (i + 1)) : j = i := by
  rcases (h.mirrors.follows_iff j (i + 1)).mp hj with ⟨-, x, -, ⟨hnext, -⟩ | ⟨label, -, hlabel⟩⟩ | ⟨⟨-, -, hnext⟩, -⟩
  · omega
  · obtain ⟨-, -, v, hv, hlabel, -⟩ := Code.labelAt?_spec hlabel
    obtain rfl : w = v := Option.some.inj (hw.symm.trans hv)
    rw [hop] at hlabel
    cases hlabel
  · omega

/-- A value that is read by one branch only, right behind where it is written, is wanted in between and nowhere
else. -/
theorem Routine.CutFrom.eq_of_wanted (h : r.CutFrom c) (hz : c.instrs[i]? = some z) (hdest : z.dest? = some y)
    (hw : c.instrs[i + 1]? = some w) (hop : w.op = .branch) (hreads : ∀ q, c.ReadsAt y q → q = i + 1) {q : Nat}
    (hq : Wanted c r.flow y q) : q = i := by
  have hval : c.operands.isValue y = true := hq.isValue
  induction hq with
  | read hij hx hy =>
    obtain rfl := hreads _ ⟨_, hx, (Instr.mem_reads.mp hy).1⟩
    exact h.follows_branch hw hop hij
  | pass hij hx hy _ ih =>
    -- the way from here would lead over the instruction that writes the value
    rw [ih] at hx
    obtain rfl := Option.some.inj (hz.symm.trans hx)
    exact absurd (Instr.writes?_eq_some.mpr ⟨hdest, hval⟩) hy

end Wanted

theorem BlockInstr.feedsBranch_iff (s : BlockInstr) (y : OperandId) : s.feedsBranch y = true ↔
    (∃ op, s.instr.op = .binary (.rel op)) ∧ ∃ w, s.next = some w ∧ w.op = .branch ∧ w.left = some y := by
  unfold feedsBranch
  split
  case h_1 op hop => simp [hop, Option.any_eq_true]
  case h_2 hop =>
    refine iff_of_false (by simp) ?_
    rintro ⟨⟨op, h⟩, -⟩
    exact hop op h

/-- Comparisons that can be fused are marked exactly. In a program that compiles, the bundle of an instruction is
marked just when the instruction is a comparison and its result is the condition of some branch. The branch is then
the next instruction, in the same block, and alone reads the result, which is not live after it. -/
theorem marked_comparisons_only_feed_branch (conv : Convention) (p : Program) (u : Compiled)
    (hu : p.compile conv = .ok u) (r : Routine) (hr : r ∈ u.routines) (b : Bundle) (hb : b ∈ r.interference.bundles) :
    (b.feedsBranch = true ↔ ∃ z op y, u.code.instrs[b.instr]? = some z ∧ z.op = .binary (.rel op) ∧
      z.result = some y ∧ ∃ (j : Nat) (w : Instr), u.code.instrs[j]? = some w ∧ w.op = .branch ∧ w.left = some y) ∧
    (b.feedsBranch = true → ∃ z w, u.code.instrs[b.instr]? = some z ∧ z.result = some b.defined ∧
      u.code.instrs[b.instr + 1]? = some w ∧ w.op = .branch ∧ w.left = some b.defined ∧
      (∃ d, r.flow.block? b.block = some d ∧ d.first ≤ b.instr ∧ b.instr + 1 ≤ d.last) ∧
      (∀ q, u.code.ReadsAt b.defined q ↔ q = b.instr + 1) ∧ b.defined ∉ w.liveOut) := by
  obtain ⟨l, rs, hl, hc, hrs, hlike, hall⟩ := Program.compile_records hu
  obtain ⟨s, hs, hrec⟩ := (mem_of_forall₂ hall).1 r hr
  have hcut := Code.routines_cutFrom hc.numbered hrs hs
  have hlin := Program.lower_linear hl
  have hshape := Code.shaped_typical.lower hl
  rw [hrec.interference] at hb
  obtain ⟨t, ht, hwrites, hblock, hinstr, -, hfeeds⟩ := (Code.mem_bundles _ _ b).mp hb
  obtain ⟨d, hd, hdf, hdl, hz, hnext⟩ := (Code.mem_blockInstrs_iff _ _ t).mp ht
  obtain ⟨hdest, -⟩ := Instr.writes?_eq_some.mp hwrites
  have hres : ∀ {op}, t.instr.op = .binary (.rel op) → t.instr.result = some b.defined := fun hop => by
    rw [← Instr.dest?_eq_result (by simp [hop]), hdest]
  obtain ⟨_, hz'⟩ := hlike.symm.instr hz
  rw [hfeeds, BlockInstr.feedsBranch_iff, hblock, hinstr, hnext]
  refine ⟨⟨?_, ?_⟩, ?_⟩
  · rintro ⟨⟨op, hop⟩, w, hw, hbranch, hleft⟩
    obtain ⟨-, hw⟩ := Option.ite_none_right_eq_some.mp hw
    exact ⟨t.instr, op, b.defined, hz, hop, hres hop, t.pos + 1, w, hw, hbranch, hleft⟩
  · rintro ⟨z, op, y, hz₁, hop, hy, j, w, hw, hbranch, hleft⟩
    obtain rfl : t.instr = z := Option.some.inj (hz.symm.trans hz₁)
    obtain rfl : b.defined = y := Option.some.inj ((hres hop).symm.trans hy)
    obtain ⟨_, hw'⟩ := hlike.symm.instr hw
    obtain ⟨rfl, -⟩ := hlin.branch_after_compare hshape hz' hop (hres hop) hw' hbranch hleft
    -- the function and the block both go on from the comparison to the branch
    obtain ⟨e, he, hef, hel⟩ := hrec.block_of _ d hd
    have hbounds := hcut.built.block_bounds he
    have hlast := hcut.succ_le_last (i := t.pos) (by omega) hw' (by simp [hbranch])
    have hin := hcut.succ_le_block he (by omega) (by omega) hlast (Code.not_breaks_of_compare hz' hop hw' hbranch)
    exact ⟨⟨op, hop⟩, w, by rw [if_pos (by omega), hw], hbranch, hleft⟩
  · rintro ⟨⟨op, hop⟩, w, hw, hbranch, hleft⟩
    obtain ⟨hlt, hw⟩ := Option.ite_none_right_eq_some.mp hw
    obtain ⟨_, hw'⟩ := hlike.symm.instr hw
    obtain ⟨-, hreads⟩ := hlin.branch_after_compare hshape hz' hop (hres hop) hw' hbranch hleft
    refine ⟨t.instr, w, hz, hres hop, hw, hbranch, hleft, ⟨d, hd, hdf, hlt⟩,
      fun q => (hlike.readsAt_iff).trans (hreads q), fun hlive => ?_⟩
    obtain ⟨e, he, hef, hel⟩ := hrec.block_of _ d hd
    have hbounds := hcut.built.block_bounds he
    have hwanted := (hrec.noted (t.pos + 1) w (by omega) (by omega) hw b.defined).mp hlive
    have := hcut.eq_of_wanted hz' hdest hw' hbranch (fun q => (hreads q).mp) hwanted
    omega

/-- A comparison that a loop tests and another one that is kept:

    int f(int n, int m) { while (n < m) n = m < n; return n; } -/
def turnstile : Program where
  symbols.symbols := #[
    { name := "f", kind := .function, ty := .function [.int, .int] .int },
    { name := "n", kind := .param, ty := .int },
    { name := "m", kind := .param, ty := .int }]
  decls := [.function 0 [1, 2] (.seq
    (.whileLoop (.binary (.rel .lt) (.name 1 .int) (.name 2 .int) .bool)
      (.assign 1 (.binary (.rel .lt) (.name 2 .int) (.name 1 .int) .bool)))
    (.ret (some (.name 1 .int))))]

/-- The comparison at position 4 is marked: only the branch behind it reads its result. The one at position 6 is not,
and no branch tests its result. -/
theorem turnstile_marks_tested_comparison : ∃ u, turnstile.compile Convention.SysV.convention = .ok u ∧
    ∃ r ∈ u.routines, (∃ b ∈ r.interference.bundles, b.instr = 4 ∧ b.feedsBranch = true ∧
      (∃ w, u.code.instrs[5]? = some w ∧ w.op = .branch ∧ b.defined ∉ w.liveOut) ∧
      ∀ q, u.code.ReadsAt b.defined q ↔ q = 5) ∧
    ∃ z, u.code.instrs[6]? = some z ∧ z.op = .binary (.rel .lt) ∧ ∃ y, z.result = some y ∧
      ∀ (j : Nat) (w : Instr), u.code.instrs[j]? = some w → w.op = .branch → w.left ≠ some y := by
  have hrun : (turnstile.compile Convention.SysV.convention).toOption.any (fun u => decide (
      (u.routines.any fun r => r.interference.bundles.any (fun b => b.instr = 4 && b.feedsBranch) &&
        r.interference.bundles.any fun b => b.instr = 6 && !b.feedsBranch) = true ∧
      (u.code.instrs[6]?.any fun z => z.op = .binary (.rel .lt) ∧ z.result.isSome) = true)) = true := by
    decide +kernel
  cases hu : turnstile.compile Convention.SysV.convention with
  | error e => rw [hu] at hrun; cases hrun
  | ok u =>
    rw [hu, Except.toOption, Option.any_some, decide_eq_true_eq] at hrun
    obtain ⟨hbundles, hcompare⟩ := hrun
    obtain ⟨r, hr, hbundles⟩ := List.any_eq_true.mp hbundles
    rw [Bool.and_eq_true] at hbundles
    obtain ⟨b, hb, hb4⟩ := Array.any_eq_true'.mp hbundles.1
    obtain ⟨d, hd, hd6⟩ := Array.any_eq_true'.mp hbundles.2
    obtain ⟨h4, hmarked⟩ : b.instr = 4 ∧ b.feedsBranch = true := by simpa using hb4
    obtain ⟨h6, hunmarked⟩ : d.instr = 6 ∧ d.feedsBranch = false := by simpa using hd6
    obtain ⟨z, hz, hz'⟩ := (Option.any_eq_true _ _).mp hcompare
    obtain ⟨hop, hsome⟩ := of_decide_eq_true hz'
    obtain ⟨y, hy⟩ := Option.isSome_iff_exists.mp hsome
    obtain ⟨-, hfeeds⟩ := marked_comparisons_only_feed_branch _ turnstile u hu r hr b hb
    obtain ⟨-, w, -, -, hw, hbranch, -, -, hreads, hlive⟩ := hfeeds hmarked
    obtain ⟨hiff, -⟩ := marked_comparisons_only_feed_branch _ turnstile u hu r hr d hd
    rw [h4] at hw hreads
    refine ⟨u, rfl, r, hr, ⟨b, hb, h4, hmarked, ⟨w, hw, hbranch, hlive⟩, hreads⟩, z, hz, hop, y, hy,
      fun j w hw hbranch hleft => ?_⟩
    rw [hiff.mpr ⟨z, .lt, y, h6 ▸ hz, hop, hy, j, w, hw, hbranch, hleft⟩] at hunmarked
    cases hunmarked

end MiddleEnd
