import MiddleEnd.Proofs.Allocation.Like
import MiddleEnd.Proofs.Lowering.Linear
import MiddleEnd.Proofs.Lowering.WellFormed

/-! Temporaries live inside blocks. The line from where a temporary is written to where it is read has no label and
no branch on it, so it stays in one block; a parameter is there from the start of its function. Hence no temporary
is live at the end of a block, and only parameters are live at the start of one. -/

namespace MiddleEnd

/-- How the instruction `z` at `j` comes by a temporary with a tag: what it reads is there from position `s` on. -/
def Code.Supplies (c : Code) (y : OperandId) (s j : Nat) (z : Instr) : Tag → Prop
  | .param pos => j = s + 1 + pos ∧ z.op = .param pos ∧ y ∈ z.sources ∧ ∃ x, c.instrs[s]? = some x ∧ x.op = .header
  | .returnValue => c.WritesAt y s ∧ j = s + 1 ∧ z.op = .ret
  | _ => c.WritesAt y s

section Lines

variable {symbols : SymbolTable} {c : Code} {r : Routine} {y : OperandId} {tag : Tag} {z : Instr} {s j k : Nat}
  {b : Block}

theorem Code.Supplies.writesAt (h : c.Supplies y s j z tag) (htag : ∀ pos, tag ≠ .param pos) : c.WritesAt y s := by
  cases tag with
  | param pos => exact absurd rfl (htag pos)
  | returnValue => exact h.1
  | _ => exact h

theorem Code.Linear.supplies (hlin : c.Linear) (hc : c.Sound symbols) (htag : c.operands.tag? y = some tag)
    (hz : c.instrs[j]? = some z) (hy : y ∈ z.sources) :
    z.op ≠ .label ∧ ∃ s, c.Supplies y s j z tag ∧ c.Line y s j := by
  refine ⟨fun hop => ?_, ?_⟩
  · rw [hlin.label j z hz hop] at hy
    cases hy
  have hmay := (hc.fits j z hz).sources y hy tag htag
  have hcomputed : tag.isComputed = true → ∃ s, c.WritesAt y s ∧ c.Line y s j := fun h =>
    hlin.supplied y (by rw [Arena.isComputed, htag]; exact h) j ⟨z, hz, hy⟩
  cases tag with
  | param pos =>
    have hline := hmay.line rfl
    obtain ⟨s, rfl, hheader, -, hop, -⟩ := hmay
    rw [show s + 1 + pos - Tag.reach z (.param pos) = s by simp only [Tag.reach]; omega] at hline
    exact ⟨s, ⟨rfl, hop, hy, hheader⟩, hline⟩
  | returnValue =>
    have hline := hmay.line rfl
    obtain ⟨hop, s, x, rfl, hx, hassign, hres⟩ := hmay
    refine ⟨s, ⟨⟨x, hx, ?_⟩, rfl, hop⟩, hline⟩
    rw [Instr.dest?_eq_result (by simp [hassign]), hres]
  | _ => exact hcomputed rfl

theorem Code.EndsInReturns.not_header (h : c.EndsInReturns) (hline : c.Line y s j) {m : Nat} (hsm : s < m)
    (hmj : m ≤ j) {x : Instr} (hx : c.instrs[m]? = some x) : x.op ≠ .header := by
  intro hop
  obtain ⟨w, hw, hstraight⟩ := hline.straight (m - 1) (by omega) (by omega)
  have hnext : m - 1 + 1 = m := by omega
  rw [h (m - 1) w hw (Or.inr ⟨x, hnext.symm ▸ hx, hop⟩)] at hstraight
  cases hstraight

theorem Code.Line.first_le (hline : c.Line y s j) (hr : r.Built c) (hexit : c.EndsInReturns)
    (hz : c.instrs[j]? = some z) (hop : z.op ≠ .label) (hk : r.flow.block? k = some b) (hbj : b.first ≤ j) :
    b.first ≤ s := by
  by_contra hlt
  rcases hr.breaks k b hk with hfirst | hbreaks
  · obtain ⟨x, hx, hheader⟩ := hr.header
    exact hexit.not_header hline (by omega) (hfirst ▸ hbj) hx hheader
  · refine hline.not_breaks (by omega) hbj (fun w hw => ?_) hbreaks
    obtain rfl : z = w := Option.some.inj (hz.symm.trans hw)
    exact hop

theorem Code.Line.le_last (hline : c.Line y s j) (hr : r.Built c) (hexit : c.EndsInReturns)
    (hret : ∃ x, c.instrs[r.last]? = some x ∧ x.op = .ret) (hz : c.instrs[j]? = some z) (hop : z.op ≠ .label)
    (hk : r.flow.block? k = some b) (hs : s ≤ b.last) : j ≤ b.last := by
  by_contra hlt
  obtain ⟨hfirst, hbb, hlast⟩ := hr.block_bounds hk
  rcases Nat.eq_or_lt_of_le hlast with heq | hlt'
  · -- the function ends in a return
    obtain ⟨x, hx, hstraight⟩ := hline.straight b.last hs (by omega)
    obtain ⟨w, hw, hopw⟩ := hret
    rw [heq, hw] at hx
    cases hx
    rw [hopw] at hstraight
    cases hstraight
  · -- the block after this one starts a line of its own
    obtain ⟨k', b', hk', h1, h2⟩ := hr.exists_block (i := b.last + 1) (by omega) (by omega)
    have hle := hline.first_le hr hexit hz hop hk' (by omega)
    have hsame : k = k' := hr.tiles.unique ((FlowGraph.blocks_getElem? r.flow k).trans hk)
      ((FlowGraph.blocks_getElem? r.flow k').trans hk') ⟨hbb, Nat.le_refl _⟩ ⟨by omega, by omega⟩
    rw [← hsame, hk] at hk'
    cases hk'
    omega

end Lines

section Blocks

variable {symbols : SymbolTable} {ds : List Decl} {c : Code} {rs : List Routine} {r : Routine} {y : OperandId}
  {tag : Tag} {k : Nat} {b : Block}

/-- A function of the code of some declarations, whose temporaries are used once. -/
structure Routine.Tidy (symbols : SymbolTable) (c : Code) (r : Routine) : Prop where
  sound : c.Sound symbols
  linear : c.Linear
  exit : c.EndsInReturns
  built : r.Built c
  lone : r.Lone c
  ret : ∃ x, c.instrs[r.last]? = some x ∧ x.op = .ret

theorem Code.Formed.tidy (hc : c.Formed symbols ds) (hlin : c.Linear) (hrs : c.routines symbols = .ok rs)
    (hr : r ∈ rs) : r.Tidy symbols c := by
  have hwf := hc.routine_wellFormed hrs hr
  refine ⟨hc.sound, hlin, hc.exit, Code.routines_built hc.sound.numbered hrs r hr, fun m x hm hml hx hop => ?_, hwf.ret⟩
  have := (hwf.header m x (by omega) hml hx).mp hop
  omega

namespace Routine.Tidy

variable (h : r.Tidy symbols c) (htag : c.operands.tag? y = some tag)
include h htag

/-- A temporary is wanted along a line that supplies it only. -/
theorem line_of_wanted {i : Nat} (hw : Wanted c r.flow y i) : ∃ s j z, c.instrs[j]? = some z ∧ z.op ≠ .label ∧
    c.Supplies y s j z tag ∧ c.Line y s j ∧ s ≤ i ∧ i < j :=
  hw.on_line h.built h.lone (P := fun s j z => c.Supplies y s j z tag) fun _ _ hz hy =>
    h.linear.supplies h.sound htag hz hy

theorem not_wanted_last (hk : r.flow.block? k = some b) : ¬ Wanted c r.flow y b.last := by
  intro hw
  obtain ⟨s, j, z, hz, hop, -, hline, hs, hj⟩ := h.line_of_wanted htag hw
  have := hline.le_last h.built h.exit h.ret hz hop hk hs
  omega

theorem param_of_wantedAt_first (hk : r.flow.block? k = some b) (hw : WantedAt c r.flow y b.first) :
    k = r.flow.head ∧ ∃ pos, tag = .param pos ∧ r.first + 1 + pos ≤ b.last ∧
      ∃ z, c.instrs[r.first + 1 + pos]? = some z ∧ z.op = .param pos ∧ y ∈ z.sources := by
  obtain ⟨hfirst, hbb, hlast⟩ := h.built.block_bounds hk
  obtain ⟨x, hx, hread | ⟨hne, hw⟩⟩ := hw
  · -- a line to here would start in the block before
    obtain ⟨hop, s, -, hline⟩ := h.linear.supplies h.sound htag hx (Instr.mem_reads.mp hread).1
    have := hline.first_le h.built h.exit hx hop hk (Nat.le_refl _)
    have := hline.lt
    omega
  · obtain ⟨s, j, z, hz, hop, hsup, hline, hs, hj⟩ := h.line_of_wanted htag hw
    obtain rfl : s = b.first := Nat.le_antisymm hs (hline.first_le h.built h.exit hz hop hk (Nat.le_of_lt hj))
    have hjb := hline.le_last h.built h.exit h.ret hz hop hk hbb
    -- the line starts with the header, since the operand is not written here
    have hheader : x.op = .header := by
      obtain ⟨w, hw', hstart⟩ := hline.start
      obtain rfl : x = w := Option.some.inj (hx.symm.trans hw')
      refine hstart.resolve_right fun hdest => hne ?_
      rw [Instr.writes?, hdest, Option.filter_some, if_pos hw.isValue]
    have heq : b.first = r.first := by
      by_contra hlt
      exact h.lone b.first x (by omega) (by omega) hx hheader
    obtain ⟨pos, rfl⟩ : ∃ pos, tag = .param pos := by
      by_contra hparam
      obtain ⟨w, hw', hdest⟩ := hsup.writesAt fun pos hpos => hparam ⟨pos, hpos⟩
      obtain rfl : x = w := Option.some.inj (hx.symm.trans hw')
      rw [Instr.dest?, hheader] at hdest
      cases hdest
    obtain ⟨rfl, hparam, hy, -⟩ := hsup
    rw [heq] at hz hjb
    exact ⟨h.built.eq_head hk heq, pos, rfl, hjb, z, hz, hparam, hy⟩

end Routine.Tidy

end Blocks

/-- Temporaries are used once and inside one block. In the code of a program whose functions have function types,
a temporary other than that of a return value is written by one instruction at most and read by one. What reads a
temporary that is no parameter stands behind what writes it in the same block, and a return right behind it. When
a function is analyzed, whatever other analyses have noted, no temporary is live out of a block; one that is live
into a block is a parameter of the function and the block is the function's first. -/
theorem temporaries_are_used_once (p : Program) (htyped : p.FunctionsTyped) (l : Lowered) (hl : p.lower = .ok l) :
    (∀ y tag, l.code.operands.tag? y = some tag → tag ≠ .returnValue →
      (∀ i j, l.code.WritesAt y i → l.code.WritesAt y j → i = j) ∧
        ∀ i j, l.code.ReadsAt y i → l.code.ReadsAt y j → i = j) ∧
    ∃ rs, l.code.routines p.symbols = .ok rs ∧
      (∀ y tag i, l.code.operands.tag? y = some tag → (∀ pos, tag ≠ .param pos) → l.code.ReadsAt y i →
        ∃ r ∈ rs, ∃ k b j, r.flow.block? k = some b ∧ b.first ≤ j ∧ j < i ∧ i ≤ b.last ∧ l.code.WritesAt y j ∧
          (tag = .returnValue → i = j + 1 ∧ ∃ z, l.code.instrs[i]? = some z ∧ z.op = .ret)) ∧
      ∀ r ∈ rs, ∀ d, l.code.Alike d → ∃ an, d.analyze r.flow = .ok an ∧
        ∀ k b, an.flow.block? k = some b → ∀ y tag, l.code.operands.tag? y = some tag → y ∉ b.liveOut ∧
          (y ∈ b.liveIn → k = an.flow.head ∧ ∃ pos, tag = .param pos ∧ r.first + 1 + pos ≤ b.last ∧
            ∃ z, l.code.instrs[r.first + 1 + pos]? = some z ∧ z.op = .param pos ∧ y ∈ z.sources) := by
  have hc := Program.lower_formed hl htyped
  have hlin := Program.lower_linear hl
  obtain ⟨rs, hrs⟩ := hc.exists_routines
  refine ⟨fun y tag htag hne => ?_, rs, hrs, fun y tag i htag hparam hread => ?_, fun r hr d hd => ?_⟩
  · have hsingle : l.code.operands.isSingle y = true := by simp [Arena.isSingle, htag, hne]
    exact ⟨hlin.writes y hsingle, hlin.reads y hsingle⟩
  · obtain ⟨z, hz, hy⟩ := hread
    obtain ⟨q, hq, hfi, hil⟩ := (Code.routines_spans hrs).cover (Nat.zero_le i) (Array.getElem?_eq_some_iff.mp hz).1
    obtain ⟨r, hr, rfl⟩ := List.mem_map.mp hq
    have htidy := hc.tidy hlin hrs hr
    obtain ⟨k, b, hk, hbi, hib⟩ := htidy.built.exists_block hfi hil
    obtain ⟨hop, s, hsup, hline⟩ := hlin.supplies hc.sound htag hz hy
    refine ⟨r, hr, k, b, s, hk, hline.first_le htidy.built hc.exit hz hop hk hbi, hline.lt, hib,
      hsup.writesAt hparam, ?_⟩
    rintro rfl
    exact ⟨hsup.2.1, z, hz, hsup.2.2⟩
  · have htidy := hc.tidy hlin hrs hr
    have hbuilt := hd.like.built htidy.built
    obtain ⟨an, han, hA⟩ := Code.analyze_eq_ok hbuilt
    refine ⟨an, han, fun k b hk y tag htag => ?_⟩
    obtain ⟨e, he, hf, hlast, hsets⟩ := Code.analyze_block_sets hbuilt han hk
    refine ⟨fun hy => ?_, fun hy => ?_⟩
    · exact htidy.not_wanted_last htag he ((wanted_like_iff hd.like).mp ((hsets y).1.mp hy))
    · rw [hA.head, hlast]
      exact htidy.param_of_wantedAt_first htag he (.of_like hd.like.symm ((hsets y).2.mp hy))

/-- A sum that waits for an element of an array before both are passed on:

    int f(int n, int m) { while (n < m) a[n] = g(n + m, a[m]); return -n; } -/
def loom : Program where
  symbols.symbols := #[
    { name := "f", kind := .function, ty := .function [.int, .int] .int },
    { name := "n", kind := .param, ty := .int },
    { name := "m", kind := .param, ty := .int },
    { name := "a", kind := .localVar, ty := .array .int 4 },
    { name := "g", kind := .function, ty := .function [.int, .int] .int }]
  decls := [.function 0 [1, 2] (.seq
    (.whileLoop (.binary (.rel .lt) (.name 1 .int) (.name 2 .int) .bool)
      (.store 3 (.name 1 .int) (.call 4 [.binary (.arith .add) (.name 1 .int) (.name 2 .int) .int,
        .index 3 (.name 2 .int) .int] .int)))
    (.ret (some (.unary .neg (.name 1 .int) .int))))]

/-- The sum is operand 10. It is written at position 6 and read at 10, both in the body of the loop, and is live
nowhere between blocks; the first parameter, operand 1, is live into the first block. -/
theorem loom_sum_is_used_once : loom.FunctionsTyped ∧ ∃ l, loom.lower = .ok l ∧
    (∀ i, l.code.WritesAt 10 i ↔ i = 6) ∧ (∀ i, l.code.ReadsAt 10 i ↔ i = 10) ∧
    ∃ rs, l.code.routines loom.symbols = .ok rs ∧
      (∃ r ∈ rs, ∃ k b, r.flow.block? k = some b ∧ b.first ≤ 6 ∧ 10 ≤ b.last) ∧
      ∀ r ∈ rs, ∃ an, l.code.analyze r.flow = .ok an ∧
        (∀ k b, an.flow.block? k = some b → 10 ∉ b.liveOut ∧ 10 ∉ b.liveIn) ∧
        ∃ b, an.flow.block? an.flow.head = some b ∧ 1 ∈ b.liveIn := by
  have htyped : loom.FunctionsTyped := by decide
  have hrun : loom.lower.toOption.any (fun l => decide (
      l.code.operands.tag? 10 = some (.binary (.arith .add)) ∧
      (l.code.instrs[6]?.any (·.dest? = some 10)) = true ∧ (l.code.instrs[10]?.any (10 ∈ ·.sources)) = true ∧
      ((l.code.routines loom.symbols).toOption.all fun rs => rs.all fun r => (l.code.analyze r.flow).toOption.all
        fun an => (an.flow.block? an.flow.head).any (·.liveIn.contains 1)) = true)) = true := by
    decide +kernel
  cases hl : loom.lower with
  | error e => rw [hl] at hrun; cases hrun
  | ok l =>
    rw [hl, Except.toOption, Option.any_some, decide_eq_true_eq] at hrun
    obtain ⟨htag, hwrites, hreads, hlive⟩ := hrun
    have hw : l.code.WritesAt 10 6 := by
      simpa [Code.WritesAt, Option.any_eq_true] using hwrites
    have hr : l.code.ReadsAt 10 10 := by
      simpa [Code.ReadsAt, Option.any_eq_true] using hreads
    obtain ⟨honce, rs, hrs, hblock, hsets⟩ := temporaries_are_used_once loom htyped l hl
    obtain ⟨hw', hr'⟩ := honce 10 _ htag (by simp)
    obtain ⟨r, hmem, k, b, j, hk, hbj, -, hib, hj, -⟩ := hblock 10 _ 10 htag (by simp) hr
    obtain rfl : j = 6 := hw' j 6 hj hw
    refine ⟨htyped, l, rfl, fun i => ⟨fun hi => hw' i 6 hi hw, fun hi => hi ▸ hw⟩,
      fun i => ⟨fun hi => hr' i 10 hi hr, fun hi => hi ▸ hr⟩, rs, hrs, ⟨r, hmem, k, b, hk, hbj, hib⟩, fun r hr => ?_⟩
    obtain ⟨an, han, hsets⟩ := hsets r hr l.code (.refl _)
    refine ⟨an, han, fun k b hk => ⟨(hsets k b hk 10 _ htag).1, fun hin => ?_⟩, ?_⟩
    · obtain ⟨-, pos, hpos, -⟩ := (hsets k b hk 10 _ htag).2 hin
      cases hpos
    · rw [hrs, Except.toOption, Option.all_some, List.all_eq_true] at hlive
      have hhead := hlive r hr
      rw [han, Except.toOption, Option.all_some, Option.any_eq_true] at hhead
      obtain ⟨b, hb, hin⟩ := hhead
      exact ⟨b, hb, Std.ExtTreeSet.contains_iff_mem.mp hin⟩

end MiddleEnd
