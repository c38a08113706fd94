import MiddleEnd.Proofs.Allocation.Function
import MiddleEnd.Proofs.Flow.Lookup

/-! The parts of an interference graph say the same thing. The bundles, the index of the bundles by operand, the
neighbours and the nodes are filled side by side while the blocks are gone through. Each of them is read off the
instructions here, and so they agree with one another, also on operands that are written in several places. -/

namespace MiddleEnd

namespace Interference

theorem nodup_firstSeen (xs : List OperandId) : (firstSeen xs).Nodup := by
  rw [firstSeen_eq_foldl]
  exact Digraph.nodup_foldl_pushNew xs List.nodup_nil

theorem getD_indexBundles (bundles : List Bundle) (x : OperandId) :
    (indexBundles bundles).getD x [] = (bundles.zipIdx.filter (·.1.defined = x)).map (·.2) := by
  have key : ∀ (ps : List (Bundle × Nat)) (m : Std.ExtTreeMap OperandId (List Nat)),
      (ps.foldl (fun m b => m.insert b.1.defined (m.getD b.1.defined [] ++ [b.2])) m).getD x [] =
        m.getD x [] ++ (ps.filter (·.1.defined = x)).map (·.2) := by
    intro ps
    induction ps with
    | nil => simp
    | cons p ps ih =>
      intro m
      rw [List.foldl_cons, ih, Std.ExtTreeMap.getD_insert]
      by_cases hp : p.1.defined = x
      · simp [hp]
      · rw [if_neg (by rwa [Nat.compare_eq_eq]), List.filter_cons_of_neg (by simpa using hp)]
  rw [indexBundles, key]
  simp

theorem filterMap_zipIdx (bundles : List Bundle) (p : Bundle → Bool) :
    ((bundles.zipIdx.filter fun b => p b.1).map (·.2)).filterMap (bundles.toArray[·]?) = bundles.filter p := by
  have hget : ∀ b ∈ bundles.zipIdx.filter (fun b => p b.1), bundles.toArray[b.2]? = some b.1 := by
    intro b hb
    rw [List.getElem?_toArray]
    exact List.mem_zipIdx_iff_getElem?.mp (List.mem_filter.mp hb).1
  calc ((bundles.zipIdx.filter fun b => p b.1).map (·.2)).filterMap (bundles.toArray[·]?)
      = (bundles.zipIdx.filter fun b => p b.1).filterMap fun b => some b.1 := by
        rw [List.filterMap_map]
        exact List.filterMap_congr hget
    _ = (bundles.zipIdx.filter fun b => p b.1).map (·.1) := congrFun List.filterMap_eq_map _
    _ = (bundles.zipIdx.map (·.1)).filter p := by rw [List.filter_map]; rfl
    _ = bundles.filter p := by rw [List.zipIdx_map_fst]

end Interference

theorem BlockInstr.block_of_mem {b? : Option Block} {k : Nat} {f : Block → List (Instr × Nat)}
    {next : Block → Instr × Nat → Option Instr} {s : BlockInstr}
    (hs : s ∈ b?.elim [] fun b => (f b).map fun i => ⟨k, i.2, i.1, next b i⟩) : s.block = k := by
  cases b? with
  | none => cases hs
  | some b =>
    obtain ⟨i, -, rfl⟩ := List.mem_map.mp hs
    rfl

namespace Code

variable {c : Code} {g : FlowGraph}

theorem bundlesOf_interference (c : Code) (g : FlowGraph) (x : OperandId) :
    (c.interference g).bundlesOf x = (c.interference g).bundles.toList.filter (·.defined = x) := by
  simp only [interference, Interference.bundlesOf, Interference.getD_indexBundles]
  exact Interference.filterMap_zipIdx _ fun b => b.defined = x

theorem mem_nodes_of_interferes {x y : OperandId} (h : (c.interference g).interferes x y = true) :
    x ∈ (c.interference g).nodes := by
  obtain ⟨k, b, i, z, hk, h1, h2, hz, -, ⟨-, hx, -⟩ | ⟨hw, -⟩ | ⟨-, hx⟩⟩ := (c.interferes_iff g x y).mp h
  · exact (c.mem_nodes g x).mpr ⟨k, b, i, z, hk, h1, h2, hz, Or.inr (Or.inr hx)⟩
  · exact (c.mem_nodes g x).mpr ⟨k, b, i, z, hk, h1, h2, hz, Or.inl hw⟩
  · exact (c.mem_nodes g x).mpr ⟨k, b, i, z, hk, h1, h2, hz, Or.inr (Or.inr hx)⟩

theorem pairwise_blockInstrs {first last : Nat} (ht : Tiles last first g.blocks) :
    (c.blockInstrs g).Pairwise fun s t => s.pos < t.pos := by
  rw [blockInstrs, List.pairwise_flatMap]
  constructor
  · intro k _
    cases g.block? k with
    | none => exact List.Pairwise.nil
    | some b =>
      rw [Option.elim_some, List.pairwise_map, List.pairwise_iff_getElem]
      intro i j hi hj hij
      simp only [List.getElem_zipIdx]
      omega
  · refine List.pairwise_lt_range.imp_of_mem fun {k l} hk hl hkl s hs t ht' => ?_
    obtain ⟨b, hb, -, hsb, -⟩ := (c.mem_blockInstrs_iff g s).mp (List.mem_flatMap.mpr ⟨k, hk, hs⟩)
    obtain ⟨d, hd, htd, -⟩ := (c.mem_blockInstrs_iff g t).mp (List.mem_flatMap.mpr ⟨l, hl, ht'⟩)
    obtain rfl := BlockInstr.block_of_mem hs
    obtain rfl := BlockInstr.block_of_mem ht'
    have := ht.ordered hkl ((FlowGraph.blocks_getElem? g _).trans hb) ((FlowGraph.blocks_getElem? g _).trans hd)
    omega

theorem pairwise_bundles {first last : Nat} (ht : Tiles last first g.blocks) :
    (c.interference g).bundles.toList.Pairwise fun d e => d.instr < e.instr := by
  simp only [interference]
  refine (pairwise_blockInstrs ht).filterMap _ fun s t hst d hd e he => ?_
  obtain ⟨x, -, rfl⟩ := Option.map_eq_some_iff.mp hd
  obtain ⟨y, -, rfl⟩ := Option.map_eq_some_iff.mp he
  exact hst

section Tiled

variable {first last : Nat} (ht : Tiles last first g.blocks)
include ht

theorem exists_position_iff (Q : Nat → Instr → Prop) :
    (∃ k b i z, g.block? k = some b ∧ b.first ≤ i ∧ i ≤ b.last ∧ Q i z) ↔ ∃ i z, first ≤ i ∧ i ≤ last ∧ Q i z := by
  constructor
  · rintro ⟨k, b, i, z, hk, h1, h2, hq⟩
    obtain ⟨hf, hl⟩ := (FlowGraph.exists_block_iff ht).mp ⟨k, b, hk, h1, h2⟩
    exact ⟨i, z, hf, hl, hq⟩
  · rintro ⟨i, z, hf, hl, hq⟩
    obtain ⟨k, b, hk, h1, h2⟩ := (FlowGraph.exists_block_iff ht).mpr ⟨hf, hl⟩
    exact ⟨k, b, i, z, hk, h1, h2, hq⟩

theorem exists_bundle_iff (i : Nat) (x : OperandId) (P : LiveSet → Prop) :
    (∃ d ∈ (c.interference g).bundles, d.instr = i ∧ d.defined = x ∧ P d.interferes) ↔
      first ≤ i ∧ i ≤ last ∧ ∃ z, c.instrs[i]? = some z ∧ z.writes? c.operands = some x ∧ P (z.liveOut.erase x) := by
  constructor
  · rintro ⟨d, hd, rfl, rfl, hp⟩
    obtain ⟨s, hs, hw, -, hinstr, hinter, -⟩ := (c.mem_bundles g d).mp hd
    obtain ⟨b, hb, h1, h2, hz, -⟩ := (c.mem_blockInstrs_iff g s).mp hs
    obtain ⟨hf, hl⟩ := (FlowGraph.exists_block_iff ht).mp ⟨s.block, b, hb, h1, h2⟩
    rw [hinstr]
    exact ⟨hf, hl, s.instr, hz, hw, hinter ▸ hp⟩
  · rintro ⟨hf, hl, z, hz, hw, hp⟩
    obtain ⟨k, b, hb, h1, h2⟩ := (FlowGraph.exists_block_iff ht).mpr ⟨hf, hl⟩
    let s : BlockInstr := ⟨k, i, z, if i < b.last then c.instrs[i + 1]? else none⟩
    have hs : s ∈ c.blockInstrs g := (c.mem_blockInstrs_iff g s).mpr ⟨b, hb, h1, h2, hz, rfl⟩
    exact ⟨⟨x, k, i, z.liveOut.erase x, s.feedsBranch x⟩,
      (c.mem_bundles g _).mpr ⟨s, hs, hw, rfl, rfl, rfl, rfl⟩, rfl, rfl, hp⟩

end Tiled

end Code

/-- What the parts of an interference graph say of the instructions from position `first` to position `last`, which
stand in the blocks of `flow`. -/
structure Interference.Depicts (g : Interference) (c : Code) (flow : FlowGraph) (first last : Nat) : Prop where
  proper : g.Proper
  ends : ∀ x y, g.interferes x y = true → x ∈ g.nodes ∧ y ∈ g.nodes
  nodup : g.nodes.Nodup
  /-- The nodes are the values that are read, written or live after an instruction. -/
  nodes : ∀ x, x ∈ g.nodes ↔ c.operands.isValue x = true ∧ ∃ i z, first ≤ i ∧ i ≤ last ∧ c.instrs[i]? = some z ∧
    (x ∈ z.sources ∨ z.dest? = some x ∨ x ∈ z.liveOut)
  /-- No two bundles stand for one position, and they stand in the order of positions. -/
  ordered : g.bundles.toList.Pairwise fun d e => d.instr < e.instr
  defined : ∀ i x, (∃ d ∈ g.bundles, d.instr = i ∧ d.defined = x) ↔
    first ≤ i ∧ i ≤ last ∧ ∃ z, c.instrs[i]? = some z ∧ z.writes? c.operands = some x
  placed : ∀ d ∈ g.bundles, (∃ b, flow.block? d.block = some b ∧ b.first ≤ d.instr ∧ d.instr ≤ b.last) ∧
    ∃ z, c.instrs[d.instr]? = some z ∧ d.interferes = z.liveOut.erase d.defined
  bundlesOf : ∀ x, g.bundlesOf x = g.bundles.toList.filter (·.defined = x)
  /-- Neighbours are written one while the other is live after, or arrive together at a header. -/
  interferes : ∀ x y, g.interferes x y = true ↔
    (∃ d ∈ g.bundles, (d.defined = x ∧ y ∈ d.interferes) ∨ (d.defined = y ∧ x ∈ d.interferes)) ∨
    (x ≠ y ∧ ∃ i z, first ≤ i ∧ i ≤ last ∧ c.instrs[i]? = some z ∧ z.op = .header ∧ x ∈ z.liveOut ∧ y ∈ z.liveOut)

section Depicts

variable {c : Code} {g : FlowGraph} {first last : Nat} (ht : Tiles last first g.blocks)
include ht

theorem Code.mem_nodes_iff (hlive : ∀ i z, first ≤ i → i ≤ last → c.instrs[i]? = some z →
      ∀ x ∈ z.liveOut, c.operands.isValue x = true) (x : OperandId) :
    x ∈ (c.interference g).nodes ↔ c.operands.isValue x = true ∧ ∃ i z, first ≤ i ∧ i ≤ last ∧
      c.instrs[i]? = some z ∧ (x ∈ z.sources ∨ z.dest? = some x ∨ x ∈ z.liveOut) := by
  rw [mem_nodes, exists_position_iff ht fun i z => c.instrs[i]? = some z ∧ _]
  simp only [Instr.writes?_eq_some, Instr.mem_reads]
  constructor
  · rintro ⟨i, z, hf, hl, hz, ⟨hdest, hval⟩ | ⟨hsource, hval⟩ | hout⟩
    · exact ⟨hval, i, z, hf, hl, hz, Or.inr (Or.inl hdest)⟩
    · exact ⟨hval, i, z, hf, hl, hz, Or.inl hsource⟩
    · exact ⟨hlive i z hf hl hz x hout, i, z, hf, hl, hz, Or.inr (Or.inr hout)⟩
  · rintro ⟨hval, i, z, hf, hl, hz, hsource | hdest | hout⟩
    · exact ⟨i, z, hf, hl, hz, Or.inr (Or.inl ⟨hsource, hval⟩)⟩
    · exact ⟨i, z, hf, hl, hz, Or.inl ⟨hdest, hval⟩⟩
    · exact ⟨i, z, hf, hl, hz, Or.inr (Or.inr hout)⟩

theorem Code.exists_interferes_iff (x y : OperandId) :
    (∃ d ∈ (c.interference g).bundles, d.defined = x ∧ y ∈ d.interferes) ↔
      x ≠ y ∧ ∃ i z, first ≤ i ∧ i ≤ last ∧ c.instrs[i]? = some z ∧ z.writes? c.operands = some x ∧ y ∈ z.liveOut := by
  constructor
  · rintro ⟨d, hd, hx, hy⟩
    obtain ⟨hf, hl, z, hz, hw, hy⟩ := (exists_bundle_iff ht d.instr x (y ∈ ·)).mp ⟨d, hd, rfl, hx, hy⟩
    obtain ⟨hne, hy⟩ := (LiveSet.mem_erase_iff _ _ _).mp hy
    exact ⟨hne.symm, d.instr, z, hf, hl, hz, hw, hy⟩
  · rintro ⟨hne, i, z, hf, hl, hz, hw, hy⟩
    have hmem : y ∈ z.liveOut.erase x := (LiveSet.mem_erase_iff _ _ _).mpr ⟨hne.symm, hy⟩
    obtain ⟨d, hd, -, hx, hy⟩ := (exists_bundle_iff ht i x (y ∈ ·)).mpr ⟨hf, hl, z, hz, hw, hmem⟩
    exact ⟨d, hd, hx, hy⟩

theorem Code.interferes_iff_bundles (x y : OperandId) : (c.interference g).interferes x y = true ↔
    (∃ d ∈ (c.interference g).bundles, (d.defined = x ∧ y ∈ d.interferes) ∨ (d.defined = y ∧ x ∈ d.interferes)) ∨
    (x ≠ y ∧ ∃ i z, first ≤ i ∧ i ≤ last ∧ c.instrs[i]? = some z ∧ z.op = .header ∧ x ∈ z.liveOut ∧ y ∈ z.liveOut) := by
  simp only [and_or_left, exists_or, exists_interferes_iff ht]
  rw [interferes_iff, exists_position_iff ht fun i z => c.instrs[i]? = some z ∧ _]
  constructor
  · rintro ⟨i, z, hf, hl, hz, hne, ⟨hop, hx, hy⟩ | ⟨hw, hy⟩ | ⟨hw, hx⟩⟩
    · exact Or.inr ⟨hne, i, z, hf, hl, hz, hop, hx, hy⟩
    · exact Or.inl (Or.inl ⟨hne, i, z, hf, hl, hz, hw, hy⟩)
    · exact Or.inl (Or.inr ⟨hne.symm, i, z, hf, hl, hz, hw, hx⟩)
  · rintro ((⟨hne, i, z, hf, hl, hz, hw, hy⟩ | ⟨hne, i, z, hf, hl, hz, hw, hx⟩) | ⟨hne, i, z, hf, hl, hz, hop, hx, hy⟩)
    · exact ⟨i, z, hf, hl, hz, hne, Or.inr (Or.inl ⟨hw, hy⟩)⟩
    · exact ⟨i, z, hf, hl, hz, hne.symm, Or.inr (Or.inr ⟨hw, hx⟩)⟩
    · exact ⟨i, z, hf, hl, hz, hne, Or.inl ⟨hop, hx, hy⟩⟩

theorem Code.depicts_interference (hlive : ∀ i z, first ≤ i → i ≤ last → c.instrs[i]? = some z →
      ∀ x ∈ z.liveOut, c.operands.isValue x = true) : (c.interference g).Depicts c g first last where
  proper := c.proper_interference g
  ends x y h := ⟨mem_nodes_of_interferes h, mem_nodes_of_interferes ((c.proper_interference g).symm x y h)⟩
  nodup := Interference.nodup_firstSeen _
  nodes := mem_nodes_iff ht hlive
  ordered := pairwise_bundles ht
  defined i x := by simpa using exists_bundle_iff ht i x fun _ => True
  placed d hd := by
    obtain ⟨s, hs, -, hblock, hinstr, hinter, -⟩ := (c.mem_bundles g d).mp hd
    obtain ⟨b, hb, h1, h2, hz, -⟩ := (c.mem_blockInstrs_iff g s).mp hs
    rw [hblock, hinstr]
    exact ⟨⟨b, hb, h1, h2⟩, s.instr, hz, hinter⟩
  bundlesOf := c.bundlesOf_interference g
  interferes := interferes_iff_bundles ht

end Depicts

theorem Analyzed.tiles {c : Code} {r : Routine} {an : Analysis} (h : Analyzed c r an) (hr : r.Built c) :
    Tiles r.last r.first an.flow.blocks := by
  refine hr.tiles.congr (List.ext_getElem? fun k => ?_)
  rw [List.getElem?_map, List.getElem?_map, FlowGraph.blocks_getElem?, FlowGraph.blocks_getElem?]
  cases hk : r.flow.block? k with
  | none =>
    cases hd : an.flow.block? k with
    | none => rfl
    | some d =>
      obtain ⟨b, hb, -⟩ := h.block_of hd
      rw [hk] at hb
      cases hb
  | some b =>
    obtain ⟨d, hd, hf, hl⟩ := h.block k b hk
    rw [hd, Option.map_some, Option.map_some, hf, hl]

/-- The parts of the interference graph of a function agree with its instructions and with one another. For every
function of a table, liveness ends well; the neighbours are symmetric, nothing is next to itself, and both ends of an
edge are nodes; the nodes are the values that occur, each once; there is one bundle for each instruction that writes a
value, in order and in its block; the bundles of an operand are those that define it, in order; and edges come from
the bundles and from what is live after a header, and from nothing else. -/
theorem interference_graph_depicts_function (symbols : SymbolTable) (c : Code) (hc : c.Numbered) (rs : List Routine)
    (hrs : c.routines symbols = .ok rs) (r : Routine) (hr : r ∈ rs) :
    ∃ an, c.analyze r.flow = .ok an ∧
      (an.code.interference an.flow).Depicts an.code an.flow r.first r.last := by
  have hbuilt := Code.routines_built hc hrs r hr
  obtain ⟨an, han, h⟩ := Code.analyze_eq_ok hbuilt
  refine ⟨an, han, Code.depicts_interference (h.tiles hbuilt) fun i z hf hl hz x hx => ?_⟩
  rw [h.alike.operands]
  exact ((h.liveOut_iff i z hf hl hz x).mp hx).isValue

/-- A function that writes `u` in two places:

    f:
      u = v
      if !v goto L0
      u = w
    L0:
      return u -/
def seesaw : Code where
  instrs := #[
    { id := 0, op := .header, result := some 0 },
    { id := 1, op := .assign, result := some 1, left := some 2 },
    { id := 2, op := .branch, left := some 2, right := some 4 },
    { id := 3, op := .assign, result := some 1, left := some 3 },
    { id := 4, op := .label, left := some 4 },
    { id := 5, op := .ret, left := some 1 }]
  operands.operands := #[
    { kind := .symbol 0, isValue := false },
    { kind := .symbol 1, isValue := true },
    { kind := .symbol 2, isValue := true },
    { kind := .symbol 3, isValue := true },
    { kind := .label ⟨0⟩, isValue := false }]

def seesawSymbols : SymbolTable where
  symbols := #[
    { name := "f", kind := .function, ty := .function [] .int },
    { name := "u", kind := .localVar, ty := .int },
    { name := "v", kind := .localVar, ty := .int },
    { name := "w", kind := .localVar, ty := .int }]

def seesawRoutine : Routine where
  symbol := 0
  first := 0
  last := 5
  flow := (FlowGraph.build seesaw "f" 0 5).toOption.getD {}

/-- The bundles of `u` are those of its two definitions, the second of which lists nothing. The other variables are
never written, and are neighbours because they arrive together. -/
theorem seesaw_graph : seesaw.Numbered ∧ seesaw.routines seesawSymbols = .ok [seesawRoutine] ∧
    ∃ an, seesaw.analyze seesawRoutine.flow = .ok an ∧
      (an.code.interference an.flow).Depicts an.code an.flow 0 5 ∧
      ((an.code.interference an.flow).bundlesOf 1).map (fun d => (d.instr, d.interferes.toList)) = [(1, [2, 3]), (3, [])] ∧
      (an.code.interference an.flow).bundlesOf 2 = [] ∧ (an.code.interference an.flow).interferes 2 3 = true := by
  have hc : seesaw.Numbered := by decide +kernel
  have hrs : seesaw.routines seesawSymbols = .ok [seesawRoutine] := rfl
  obtain ⟨an, han, h⟩ := interference_graph_depicts_function seesawSymbols seesaw hc _ hrs seesawRoutine (by simp)
  refine ⟨hc, hrs, an, han, h, ?_⟩
  obtain rfl : (seesaw.analyze seesawRoutine.flow).toOption.getD ⟨0, {}, {}⟩ = an := by rw [han]; rfl
  rw [h.bundlesOf, h.bundlesOf]
  decide +kernel

end MiddleEnd
