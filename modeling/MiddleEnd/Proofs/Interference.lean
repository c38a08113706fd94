import MiddleEnd.Interference.Build
import MiddleEnd.Proofs.Liveness.Analysis
import Mathlib.Logic.Relation

/-! Which operands interfere. Two of them do when one is written while the other is live after, or when
both are live after a header; so two values that are live at once interfere, wherever they come from,
because the first instruction on the way there that has them both live either writes one of them or is the
header. -/

namespace MiddleEnd

namespace Adjacency

theorem neighbors_insert (adj : Adjacency) (a x : OperandId) (s : LiveSet) :
    neighbors (adj.insert a s) x = if x = a then s else adj.neighbors x := by
  unfold neighbors
  rw [Std.ExtTreeMap.getD_insert]
  by_cases h : x = a
  · rw [if_pos h, if_pos (by rw [h]; exact Nat.compare_eq_eq.mpr rfl)]
  · rw [if_neg h, if_neg (by rw [Nat.compare_eq_eq]; exact fun e => h e.symm)]

theorem mem_addEdge (adj : Adjacency) (a b x y : OperandId) :
    y ∈ (adj.addEdge a b).neighbors x ↔ y ∈ adj.neighbors x ∨ (x = a ∧ y = b) := by
  rw [addEdge, neighbors_insert]
  split
  case isTrue h =>
    subst h
    rw [LiveSet.mem_insert_iff]
    grind
  case isFalse h => simp [h]

theorem mem_link (adj : Adjacency) (a b x y : OperandId) :
    y ∈ (adj.link a b).neighbors x ↔ y ∈ adj.neighbors x ∨ (x = a ∧ y = b) ∨ (x = b ∧ y = a) := by
  rw [link, mem_addEdge, mem_addEdge, or_assoc]

theorem mem_linkAll (adj : Adjacency) (a : OperandId) (others : List OperandId) (x y : OperandId) :
    y ∈ (adj.linkAll a others).neighbors x ↔
      y ∈ adj.neighbors x ∨ (x = a ∧ y ∈ others) ∨ (y = a ∧ x ∈ others) := by
  unfold linkAll
  induction others generalizing adj with
  | nil => simp
  | cons b others ih =>
    rw [List.foldl_cons, ih, mem_link]
    simp only [List.mem_cons]
    grind

theorem mem_linkPairs (adj : Adjacency) {l : List OperandId} (hl : l.Nodup) (x y : OperandId) :
    y ∈ (adj.linkPairs l).neighbors x ↔ y ∈ adj.neighbors x ∨ (x ∈ l ∧ y ∈ l ∧ x ≠ y) := by
  induction l generalizing adj with
  | nil => simp [linkPairs]
  | cons a l ih =>
    obtain ⟨ha, hl⟩ := List.nodup_cons.mp hl
    rw [linkPairs, ih _ hl, mem_linkAll]
    simp only [List.mem_cons]
    grind

end Adjacency

/-- The instruction makes `x` and `y` interfere. -/
def Instr.Clash (a : Arena) (i : Instr) (x y : OperandId) : Prop :=
  x ≠ y ∧ ((i.op = .header ∧ x ∈ i.liveOut ∧ y ∈ i.liveOut) ∨
    (i.writes? a = some x ∧ y ∈ i.liveOut) ∨ (i.writes? a = some y ∧ x ∈ i.liveOut))

theorem Instr.Clash.symm {a : Arena} {i : Instr} {x y : OperandId} (h : i.Clash a x y) : i.Clash a y x :=
  ⟨h.1.symm, h.2.imp (fun ⟨hop, hx, hy⟩ => ⟨hop, hy, hx⟩) Or.symm⟩

namespace BlockInstr

theorem mem_link (a : Arena) (adj : Adjacency) (s : BlockInstr) (x y : OperandId) :
    y ∈ (s.link a adj).neighbors x ↔ y ∈ adj.neighbors x ∨ s.instr.Clash a x y := by
  have hheader : y ∈ (if s.instr.op = .header then adj.linkPairs s.instr.liveOut.toList else adj).neighbors x ↔
      y ∈ adj.neighbors x ∨ (s.instr.op = .header ∧ x ∈ s.instr.liveOut ∧ y ∈ s.instr.liveOut ∧ x ≠ y) := by
    split
    case isTrue h =>
      rw [Adjacency.mem_linkPairs adj s.instr.liveOut.nodup_toList]
      simp [h]
    case isFalse h => simp [h]
  unfold link Instr.Clash
  cases hw : s.instr.writes? a with
  | none =>
    rw [Option.elim_none, hheader]
    grind
  | some d =>
    rw [Option.elim_some, Adjacency.mem_linkAll, hheader]
    simp only [Std.ExtTreeSet.mem_toList, LiveSet.mem_erase_iff]
    grind

end BlockInstr

theorem Code.mem_blockInstrs_iff (c : Code) (g : FlowGraph) (s : BlockInstr) : s ∈ c.blockInstrs g ↔
    ∃ b, g.block? s.block = some b ∧ b.first ≤ s.pos ∧ s.pos ≤ b.last ∧ c.instrs[s.pos]? = some s.instr ∧
      s.next = if s.pos < b.last then c.instrs[s.pos + 1]? else none := by
  simp only [blockInstrs, List.mem_flatMap, Digraph.mem_ids]
  constructor
  · rintro ⟨k, -, hs⟩
    cases hk : g.block? k with
    | none => simp [hk] at hs
    | some b =>
      rw [hk, Option.elim_some, List.mem_map] at hs
      obtain ⟨⟨x, i⟩, hx, rfl⟩ := hs
      rw [List.mk_mem_zipIdx_iff_le_and_getElem?_sub, slice_getElem?] at hx
      obtain ⟨hle, hx⟩ := hx
      split at hx
      case isTrue hi =>
        rw [show b.first + (i - b.first) = i by omega] at hx hi
        exact ⟨b, hk, hle, hi, hx, rfl⟩
      case isFalse => cases hx
  · rintro ⟨b, hk, hle, hi, hx, hnext⟩
    refine ⟨s.block, FlowGraph.lt_size hk, ?_⟩
    rw [hk, Option.elim_some, List.mem_map]
    refine ⟨(s.instr, s.pos), ?_, by rw [← hnext]⟩
    rw [List.mk_mem_zipIdx_iff_le_and_getElem?_sub, slice_getElem?, show b.first + (s.pos - b.first) = s.pos by omega,
      if_pos hi]
    exact ⟨hle, hx⟩

theorem Code.mem_blockInstrs (c : Code) (g : FlowGraph) (z : Instr) :
    (∃ s ∈ c.blockInstrs g, s.instr = z) ↔
      ∃ k b i, g.block? k = some b ∧ b.first ≤ i ∧ i ≤ b.last ∧ c.instrs[i]? = some z := by
  constructor
  · rintro ⟨s, hs, rfl⟩
    obtain ⟨b, hk, hle, hi, hx, -⟩ := (c.mem_blockInstrs_iff g s).mp hs
    exact ⟨s.block, b, s.pos, hk, hle, hi, hx⟩
  · rintro ⟨k, b, i, hk, hle, hi, hx⟩
    exact ⟨⟨k, i, z, if i < b.last then c.instrs[i + 1]? else none⟩,
      (c.mem_blockInstrs_iff g _).mpr ⟨b, hk, hle, hi, hx, rfl⟩, rfl⟩

theorem Code.mem_bundles (c : Code) (g : FlowGraph) (d : Bundle) : d ∈ (c.interference g).bundles ↔
    ∃ s ∈ c.blockInstrs g, s.instr.writes? c.operands = some d.defined ∧ d.block = s.block ∧ d.instr = s.pos ∧
      d.interferes = s.instr.liveOut.erase d.defined ∧ d.feedsBranch = s.feedsBranch d.defined := by
  simp only [interference, List.mem_toArray, List.mem_filterMap, BlockInstr.bundle?, Option.map_eq_some_iff]
  refine exists_congr fun s => and_congr_right fun _ => ⟨?_, ?_⟩
  · rintro ⟨y, hy, rfl⟩
    exact ⟨hy, rfl, rfl, rfl, rfl⟩
  · rintro ⟨hw, hblock, hinstr, hinter, hfeeds⟩
    refine ⟨d.defined, hw, ?_⟩
    rw [← hblock, ← hinstr, ← hinter, ← hfeeds]

theorem Code.interferes_iff (c : Code) (g : FlowGraph) (x y : OperandId) :
    (c.interference g).interferes x y ↔
      ∃ k b i z, g.block? k = some b ∧ b.first ≤ i ∧ i ≤ b.last ∧ c.instrs[i]? = some z ∧ z.Clash c.operands x y := by
  have key : ∀ (ss : List BlockInstr) (adj : Adjacency),
      y ∈ (ss.foldl (BlockInstr.link c.operands) adj).neighbors x ↔
        y ∈ adj.neighbors x ∨ ∃ s ∈ ss, s.instr.Clash c.operands x y := by
    intro ss
    induction ss with
    | nil => simp
    | cons s ss ih =>
      intro adj
      rw [List.foldl_cons, ih, BlockInstr.mem_link]
      simp only [List.mem_cons, exists_eq_or_imp, or_assoc]
  have hempty : ¬ y ∈ Adjacency.neighbors ∅ x := by simp [Adjacency.neighbors]
  rw [Interference.interferes, Interference.neighbors, Std.ExtTreeSet.contains_iff_mem]
  simp only [interference]
  rw [key, or_iff_right hempty]
  constructor
  · rintro ⟨s, hs, hclash⟩
    obtain ⟨k, b, i, hk, h1, h2, hz⟩ := (mem_blockInstrs c g s.instr).mp ⟨s, hs, rfl⟩
    exact ⟨k, b, i, s.instr, hk, h1, h2, hz, hclash⟩
  · rintro ⟨k, b, i, z, hk, h1, h2, hz, hclash⟩
    obtain ⟨s, hs, rfl⟩ := (mem_blockInstrs c g z).mpr ⟨k, b, i, hk, h1, h2, hz⟩
    exact ⟨s, hs, hclash⟩

namespace Interference

theorem firstSeen_eq_foldl (xs : List OperandId) : firstSeen xs = xs.foldl Digraph.pushNew [] := by
  have key : ∀ (xs : List OperandId) (s : LiveSet × Array OperandId), (∀ y, y ∈ s.1 ↔ y ∈ s.2) →
      (xs.foldl visit s).2.toList = xs.foldl Digraph.pushNew s.2.toList := by
    intro xs
    induction xs with
    | nil => exact fun _ _ => rfl
    | cons x xs ih =>
      intro s hs
      rw [List.foldl_cons, List.foldl_cons, visit, Digraph.pushNew]
      by_cases hx : x ∈ s.1
      · rw [if_pos hx, if_pos (Array.mem_toList_iff.mpr ((hs x).mp hx))]
        exact ih s hs
      · rw [if_neg hx, if_neg fun h => hx ((hs x).mpr (Array.mem_toList_iff.mp h)), ← Array.toList_push]
        refine ih _ fun y => ?_
        rw [LiveSet.mem_insert_iff, Array.mem_push, hs y, or_comm]
  exact key xs _ (by simp)

theorem mem_firstSeen (xs : List OperandId) (y : OperandId) : y ∈ firstSeen xs ↔ y ∈ xs := by
  rw [firstSeen_eq_foldl, Digraph.mem_foldl_pushNew]
  simp

end Interference

theorem Code.mem_nodes (c : Code) (g : FlowGraph) (y : OperandId) : y ∈ (c.interference g).nodes ↔
    ∃ k b i z, g.block? k = some b ∧ b.first ≤ i ∧ i ≤ b.last ∧ c.instrs[i]? = some z ∧
      (z.writes? c.operands = some y ∨ y ∈ z.reads c.operands ∨ y ∈ z.liveOut) := by
  have htouched : ∀ s : BlockInstr, y ∈ s.touched c.operands ↔
      (s.instr.writes? c.operands = some y ∨ y ∈ s.instr.reads c.operands ∨ y ∈ s.instr.liveOut) := by
    intro s
    simp [BlockInstr.touched]
  simp only [interference, Interference.mem_firstSeen, List.mem_flatMap]
  constructor
  · rintro ⟨s, hs, hy⟩
    obtain ⟨k, b, i, hk, h1, h2, hz⟩ := (mem_blockInstrs c g s.instr).mp ⟨s, hs, rfl⟩
    exact ⟨k, b, i, s.instr, hk, h1, h2, hz, (htouched s).mp hy⟩
  · rintro ⟨k, b, i, z, hk, h1, h2, hz, hy⟩
    obtain ⟨s, hs, rfl⟩ := (mem_blockInstrs c g z).mpr ⟨k, b, i, hk, h1, h2, hz⟩
    exact ⟨s, hs, (htouched s).mpr hy⟩

namespace Analyzed

variable {c : Code} {r : Routine} {an : Analysis}

theorem block_of (h : Analyzed c r an) {k : Nat} {d : Block} (hd : an.flow.block? k = some d) :
    ∃ b, r.flow.block? k = some b ∧ d.first = b.first ∧ d.last = b.last := by
  obtain ⟨b, hb⟩ := FlowGraph.exists_block (h.size ▸ FlowGraph.lt_size hd)
  obtain ⟨d', hd', hf, hl⟩ := h.block k b hb
  rw [hd] at hd'
  cases hd'
  exact ⟨b, hb, hf, hl⟩

theorem interferes_iff (h : Analyzed c r an) (hr : r.Built c) (x y : OperandId) :
    (an.code.interference an.flow).interferes x y ↔
      ∃ i z, r.first ≤ i ∧ i ≤ r.last ∧ an.code.instrs[i]? = some z ∧ z.Clash c.operands x y := by
  rw [Code.interferes_iff, h.alike.operands]
  constructor
  · rintro ⟨k, d, i, z, hd, h1, h2, hz, hclash⟩
    obtain ⟨b, hb, hf, hl⟩ := h.block_of hd
    have := hr.block_bounds hb
    exact ⟨i, z, by omega, by omega, hz, hclash⟩
  · rintro ⟨i, z, h1, h2, hz, hclash⟩
    obtain ⟨k, b, hk, hbi, hib⟩ := hr.exists_block h1 h2
    obtain ⟨d, hd, hf, hl⟩ := h.block k b hk
    exact ⟨k, d, i, z, hd, by omega, by omega, hz, hclash⟩

theorem interferes_of_live (h : Analyzed c r an) (hr : r.Built c) {i : Nat}
    (hi : Relation.ReflTransGen r.flow.Follows r.first i) {z : Instr} (hz : an.code.instrs[i]? = some z)
    {x y : OperandId} (hx : x ∈ z.liveOut) (hy : y ∈ z.liveOut) (hxy : x ≠ y) :
    (an.code.interference an.flow).interferes x y := by
  induction hi generalizing z with
  | refl =>
    obtain ⟨w, hw, hop⟩ := hr.header
    obtain ⟨live, hw'⟩ := h.alike.instrs r.first w hw
    rw [hz] at hw'
    cases hw'
    exact (h.interferes_iff hr x y).mpr
      ⟨r.first, _, Nat.le_refl _, hr.first_le, hz, hxy, Or.inl ⟨hop, hx, hy⟩⟩
  | @tail i j _ hij ih =>
    obtain ⟨⟨hfi, hil⟩, hfj, hjl⟩ := hr.follows_bounds hij
    by_cases hwx : z.writes? c.operands = some x
    · exact (h.interferes_iff hr x y).mpr ⟨j, z, hfj, hjl, hz, hxy, Or.inr (Or.inl ⟨hwx, hy⟩)⟩
    by_cases hwy : z.writes? c.operands = some y
    · exact (h.interferes_iff hr x y).mpr ⟨j, z, hfj, hjl, hz, hxy, Or.inr (Or.inr ⟨hwy, hx⟩)⟩
    -- neither is written here, so both were live one step before
    obtain ⟨w, hw, hzw⟩ := h.alike.of_right hz
    have hlast := hr.last_lt
    have hsize := h.alike.size
    obtain ⟨v, hv⟩ : ∃ v, an.code.instrs[i]? = some v := ⟨_, Array.getElem?_eq_getElem (by omega)⟩
    have hback : ∀ u, u ∈ z.liveOut → z.writes? c.operands ≠ some u → u ∈ v.liveOut := by
      intro u hu hwu
      rw [h.liveOut_iff i v hfi hil hv]
      refine .pass hij hw ?_ ((h.liveOut_iff j z hfj hjl hz u).mp hu)
      rw [hzw] at hwu
      exact hwu
    exact ih hv (hback x hx hwx) (hback y hy hwy)

end Analyzed

/-- Values that are live at once interfere. For every function of a table, liveness ends well, and any two
operands in the live-out set of an instruction of a block that the edges lead to are neighbours, whether or
not and wherever they are written. -/
theorem simultaneously_live_interfere (symbols : SymbolTable) (c : Code) (hc : c.Numbered) (rs : List Routine)
    (hrs : c.routines symbols = .ok rs) (r : Routine) (hr : r ∈ rs) :
    ∃ an, c.analyze r.flow = .ok an ∧ ∀ k b i z x y,
      Relation.ReflTransGen (fun a b => b ∈ an.flow.succ a) an.flow.head k → an.flow.block? k = some b →
      b.first ≤ i → i ≤ b.last → an.code.instrs[i]? = some z → x ∈ z.liveOut → y ∈ z.liveOut → x ≠ y →
      (an.code.interference an.flow).interferes x y = true := by
  have hbuilt := Code.routines_built hc hrs r hr
  obtain ⟨an, han, h⟩ := Code.analyze_eq_ok hbuilt
  refine ⟨an, han, ?_⟩
  intro k d i z x y hk hd hdi hid hz hx hy hxy
  obtain ⟨b, hb, hf, hl⟩ := h.block_of hd
  simp only [h.succ, h.head] at hk
  have hi := hbuilt.follows_of_reaches hk hb (i := i) (by omega) (by omega)
  exact h.interferes_of_live hbuilt hi hz hx hy hxy

/-- A loop over `u` and `v`, of which it writes only `u`:

    f:
    L0:
      t = u - v
      u = t
      if !u goto L1
      goto L0
    L1:
      return v -/
def countdown : Code where
  instrs := #[
    { id := 0, op := .header, result := some 0 },
    { id := 1, op := .label, left := some 3 },
    { id := 2, op := .binary (.arith .sub), result := some 4, left := some 1, right := some 2 },
    { id := 3, op := .assign, result := some 1, left := some 4 },
    { id := 4, op := .branch, left := some 1, right := some 5 },
    { id := 5, op := .jump, left := some 3 },
    { id := 6, op := .label, left := some 5 },
    { id := 7, op := .ret, left := some 2 }]
  operands.operands := #[
    { kind := .symbol 0, isValue := false },
    { kind := .symbol 1, isValue := true },
    { kind := .symbol 2, isValue := true },
    { kind := .label ⟨0⟩, isValue := false },
    { kind := .temp ⟨0⟩ (.binary (.arith .sub)), isValue := true },
    { kind := .label ⟨1⟩, isValue := false }]

def countdownSymbols : SymbolTable where
  symbols := #[
    { name := "f", kind := .function, ty := .function [] .int },
    { name := "u", kind := .localVar, ty := .int },
    { name := "v", kind := .localVar, ty := .int }]

def countdownRoutine : Routine where
  symbol := 0
  first := 0
  last := 7
  flow := (FlowGraph.build countdown "f" 0 7).toOption.getD {}

/-- The two variables of the loop are live together after its second instruction, and interfere. -/
theorem countdown_variables_interfere : countdown.Numbered ∧
    countdown.routines countdownSymbols = .ok [countdownRoutine] ∧
    ∃ an, countdown.analyze countdownRoutine.flow = .ok an ∧ (an.code.interference an.flow).interferes 1 2 = true := by
  have hc : countdown.Numbered := by
    intro i x hx
    have hi : i < 8 := (Array.getElem?_eq_some_iff.mp hx).1
    have hall : ∀ i < 8, (countdown.instrs[i]?).all (·.id = i) := by decide +kernel
    simpa [hx] using hall i hi
  have hrs : countdown.routines countdownSymbols = .ok [countdownRoutine] := rfl
  refine ⟨hc, hrs, ?_⟩
  obtain ⟨an, han, h⟩ := simultaneously_live_interfere countdownSymbols countdown hc _ hrs countdownRoutine (by simp)
  obtain rfl : (countdown.analyze countdownRoutine.flow).toOption.getD ⟨0, {}, {}⟩ = an := by rw [han]; rfl
  have hblock : (((countdown.analyze countdownRoutine.flow).toOption.getD ⟨0, {}, {}⟩).flow.block? 1).map
      (fun b => (b.first, b.last)) = some (1, 4) := by decide +kernel
  have hlive : (((countdown.analyze countdownRoutine.flow).toOption.getD ⟨0, {}, {}⟩).code.instrs[3]?).map
      (·.liveOut.toList) = some [1, 2] := by decide +kernel
  obtain ⟨b, hb, hbl⟩ := Option.map_eq_some_iff.mp hblock
  obtain ⟨z, hz, hzl⟩ := Option.map_eq_some_iff.mp hlive
  obtain ⟨hf, hl⟩ := Prod.mk.inj hbl
  refine ⟨_, han, h 1 b 3 z 1 2 (.single (by decide +kernel)) hb (by omega) (by omega) hz ?_ ?_ (by decide)⟩
  · rw [← Std.ExtTreeSet.mem_toList, hzl]
    decide
  · rw [← Std.ExtTreeSet.mem_toList, hzl]
    decide

end MiddleEnd
