import MiddleEnd.Proofs.Flow.Routines

/-! The flow graph of a function is exactly its control flow. The graph can be built whenever every branch
has a target that the function places, and a step along it is a way that control goes, but for a jump
right after a return, which stays in the block of the return. -/

namespace MiddleEnd

/-- Every branch of the part has a target, and a label of the part places it. -/
def Code.TargetsPlaced (c : Code) (first last : Nat) : Prop :=
  ∀ i x, first ≤ i → i ≤ last → c.instrs[i]? = some x → (x.op = .jump ∨ x.op = .branch) →
    ∃ label j, x.target? = some label ∧ c.labelAt? first last label = some j

/-- Position `j` of the part holds a jump and the one before it a return, so control never goes from the one
to the other. -/
def Code.DeadJump (c : Code) (first last i j : Nat) : Prop :=
  (first ≤ i ∧ j ≤ last ∧ j = i + 1) ∧ (∃ x, c.instrs[i]? = some x ∧ x.op = .ret) ∧
    ∃ y, c.instrs[j]? = some y ∧ y.op = .jump

theorem Code.DeadJump.not_next {c : Code} {first last i j : Nat} (h : c.DeadJump first last i j) :
    ¬ c.Next first last i j := by
  obtain ⟨-, ⟨x, hx, hret⟩, -⟩ := h
  rintro ⟨-, y, hy, hto⟩
  obtain rfl : x = y := by simpa [hx] using hy
  rcases hto with ⟨-, hnt⟩ | ⟨label, hlabel, -⟩
  · simp [Instr.isTransfer, hret] at hnt
  · simp [Instr.target?, hret] at hlabel

/-- A block of the graph starts at the position. -/
def FlowGraph.Starts (g : FlowGraph) (pos : Nat) : Prop := ∃ k b, g.block? k = some b ∧ b.first = pos

/-- The graph is the control flow of the part from `first` to `last`. -/
structure FlowGraph.Mirrors (g : FlowGraph) (c : Code) (first last : Nat) : Prop where
  tiles : Tiles last first g.blocks
  head : g.head = 0
  head_pred : g.graph.pred g.head = []
  head_succ : ∀ k, g.head ∉ g.succ k
  label_starts : ∀ i x, first ≤ i → i ≤ last → c.instrs[i]? = some x → x.op = .label → g.Starts i
  target_starts : ∀ i x, first ≤ i → i ≤ last → c.instrs[i]? = some x → (x.op = .jump ∨ x.op = .branch) →
    ∃ label j, x.target? = some label ∧ c.labelAt? first last label = some j ∧ g.Starts j
  succ_lt : ∀ k l, l ∈ g.succ k → l < g.size
  succ_length : ∀ k, (g.succ k).length ≤ 2
  succ_nodup : ∀ k, (g.succ k).Nodup
  fallthrough_first : ∀ k, k + 1 ∈ g.succ k → (g.succ k).head? = some (k + 1)
  follows_iff : ∀ i j, g.Follows i j ↔ c.Next first last i j ∨ c.DeadJump first last i j
  dead_jump : ∀ i j, c.DeadJump first last i j →
    ¬ c.Next first last i j ∧ ∃ k b, g.block? k = some b ∧ b.first ≤ i ∧ j ≤ b.last

namespace FlowGraph

theorem targetsPlaced_of_eq_ok {c : Code} (hc : c.Numbered) {name : String} {first last : Nat}
    (hl : last < c.instrs.size) {branches : List (Nat × OperandId)} {targets : List (Nat × Nat)}
    (hb : branchTargets (c.slice first last) = .ok branches)
    (ht : resolveTargets name (placedLabels (c.slice first last)) branches = .ok targets) :
    c.TargetsPlaced first last := by
  intro i x hfi hil hx hop
  have hmem : x ∈ c.slice first last := (Code.mem_slice c first last x).mpr ⟨i, hfi, hil, hx⟩
  obtain ⟨label, hlabel⟩ := (exists_branchTargets_iff _).mp ⟨branches, hb⟩ x hmem hop
  obtain ⟨j, hj⟩ := (exists_resolveTargets_iff _ _ _).mp ⟨targets, ht⟩ (i, label)
    ((mem_branchTargets hb i label).mpr ⟨x, hmem, hc i x hx, hlabel⟩)
  exact ⟨label, j, hlabel, (placedLabels_eq hc hl label).symm.trans hj⟩

theorem exists_build_iff {c : Code} (hc : c.Numbered) (name : String) {first last : Nat} (hfl : first ≤ last)
    (hl : last < c.instrs.size) : (∃ g, build c name first last = .ok g) ↔ c.TargetsPlaced first last := by
  constructor
  · rintro ⟨g, h⟩
    unfold build at h
    obtain ⟨branches, hb, h⟩ := Except.bind_eq_ok.mp h
    obtain ⟨targets, ht, -⟩ := Except.bind_eq_ok.mp h
    exact targetsPlaced_of_eq_ok hc hl hb ht
  · intro h
    obtain ⟨branches, hb⟩ : ∃ bs, branchTargets (c.slice first last) = .ok bs := by
      refine (exists_branchTargets_iff _).mpr fun x hx hop => ?_
      obtain ⟨i, hfi, hil, hx⟩ := (Code.mem_slice c first last x).mp hx
      obtain ⟨label, -, hlabel, -⟩ := h i x hfi hil hx hop
      exact ⟨label, hlabel⟩
    obtain ⟨targets, ht⟩ : ∃ ts, resolveTargets name (placedLabels (c.slice first last)) branches = .ok ts := by
      refine (exists_resolveTargets_iff _ _ _).mpr fun b hm => ?_
      obtain ⟨x, hx, -, hlabel⟩ := (mem_branchTargets hb b.1 b.2).mp hm
      obtain ⟨i, hfi, hil, hx⟩ := (Code.mem_slice c first last x).mp hx
      obtain ⟨label, j, hlabel', hj⟩ := h i x hfi hil hx (Instr.op_of_target? hlabel)
      obtain rfl : b.2 = label := by simpa [hlabel] using hlabel'
      exact ⟨j, (placedLabels_eq hc hl b.2).trans hj⟩
    have htiles := (resolves_of_eq_ok hc hl hb ht).tiles hc hfl
    -- the blocks end within the table, so their last instructions are found
    obtain ⟨edges, he⟩ := exists_mapM_eq_ok
      (f := fun b : Block × Nat => edgesOf c (leaders c first last targets)
        (targets.foldl (fun m t => m.insert t.1 t.2) ∅) b.1 b.2)
      (l := (blocksFrom last (leaders c first last targets)).zipIdx) (by
        rintro ⟨b, k⟩ hm
        have hb : (blocksFrom last (leaders c first last targets))[k]? = some b := List.mem_zipIdx_iff_getElem?.mp hm
        have hbounds := htiles.bounds hb
        have hx : c.instrs[b.last]? = some c.instrs[b.last] := Array.getElem?_eq_getElem (by omega)
        exact ⟨_, by rw [edgesOf, hx]⟩)
    exact ⟨_, Except.bind_eq_ok.mpr ⟨branches, hb, Except.bind_eq_ok.mpr ⟨targets, ht,
      Except.bind_eq_ok.mpr ⟨edges, he, rfl⟩⟩⟩⟩

theorem head?_successors {op : Opcode} {fallthrough target : Option Nat} {next : Nat}
    (hfall : ∀ l, fallthrough = some l → l = next) (h : next ∈ successors op fallthrough target) :
    (successors op fallthrough target).head? = some next := by
  revert h
  unfold successors
  split
  case h_1 => simp
  case h_2 =>
    intro h
    cases fallthrough with
    | none => simpa using h
    | some l => simp [hfall l rfl]
  case h_3 => simp
  case h_4 => simp

theorem length_successors_le (op : Opcode) (fallthrough target : Option Nat) :
    (successors op fallthrough target).length ≤ 2 := by
  unfold successors
  split <;> cases fallthrough <;> cases target <;> simp

namespace Parts

variable {c : Code} {first last : Nat} {targets : List (Nat × Nat)} {g : FlowGraph}

theorem starts_of_leader (hp : Parts c first last targets g) {i : Nat} (hi : i ∈ leaders c first last targets) :
    g.Starts i := by
  obtain ⟨k, hk⟩ := List.mem_iff_getElem?.mp hi
  obtain ⟨b, hb, hf⟩ := hp.block_of_start hk
  exact ⟨k, b, hb, hf⟩

theorem succ_eq_nil_or (hp : Parts c first last targets g) (hc : c.Numbered) (hfl : first ≤ last)
    (hl : last < c.instrs.size) (k : Nat) : g.succ k = [] ∨ ∃ pos x,
      g.succ k = (exits (leaders c first last targets) targets k pos x).foldl Digraph.pushNew [] := by
  cases hk : g.block? k with
  | none =>
    refine Or.inl (List.eq_nil_iff_forall_not_mem.mpr fun l hm => ?_)
    obtain ⟨b, hb⟩ := exists_block_of_mem_succ hm
    rw [hk] at hb
    cases hb
  | some b =>
    have hbounds := (hp.tiles hc hfl).bounds ((blocks_getElem? g k).trans hk)
    have hx : c.instrs[b.last]? = some c.instrs[b.last] := Array.getElem?_eq_getElem (by omega)
    exact Or.inr ⟨b.last, _, hp.succ_eq k b _ hk hx⟩

/-- A return that does not end its block is followed by a jump, and nothing else that control never goes past
is inside a block. -/
theorem next_or_dead_of_inside (hp : Parts c first last targets g) (hc : c.Numbered) (hfl : first ≤ last)
    (hl : last < c.instrs.size) {k i : Nat} {b : Block} (hk : g.block? k = some b) (hbi : b.first ≤ i)
    (hib : i < b.last) : c.Next first last i (i + 1) ∨ c.DeadJump first last i (i + 1) := by
  have hbounds := (hp.tiles hc hfl).bounds ((blocks_getElem? g k).trans hk)
  obtain ⟨x, hx⟩ : ∃ x, c.instrs[i]? = some x := ⟨_, Array.getElem?_eq_getElem (by omega)⟩
  have hid := hc i x hx
  have hmem : x ∈ c.slice first last := (Code.mem_slice c first last x).mpr ⟨i, by omega, by omega, hx⟩
  have hinside : leader? c last x ≠ some (i + 1) := by
    intro hlead
    have hm := (mem_leaders c first last targets (i + 1)).mpr (Or.inr (Or.inl ⟨x, hmem, hlead⟩))
    have := hp.first_eq_of_leader hc hfl hk (by omega) (by omega) hm
    omega
  by_cases hnt : x.isTransfer = false
  · exact Or.inl ⟨by omega, x, hx, Or.inl ⟨rfl, hnt⟩⟩
  have hend : x.op = .jump ∨ x.op = .ret := by simpa [Instr.isTransfer, or_iff_not_imp_left] using hnt
  rcases hend with hjump | hret
  · refine absurd ?_ hinside
    simp [leader?, hjump, hid, show i < last by omega]
  · refine Or.inr ⟨by omega, ⟨x, hx, hret⟩, ?_⟩
    by_contra hno
    have hany : c.instrs[i + 1]?.any (·.op = .jump) = false := by
      rw [Bool.eq_false_iff]
      intro hany
      simp only [Option.any_eq_true, decide_eq_true_eq] at hany
      exact hno hany
    refine hinside ?_
    simp [leader?, hret, hid, hany, show i < last by omega]

theorem next_or_dead_of_follows (hp : Parts c first last targets g) (hc : c.Numbered) (hfl : first ≤ last)
    (hl : last < c.instrs.size) {i j : Nat} (h : g.Follows i j) :
    c.Next first last i j ∨ c.DeadJump first last i j := by
  rcases h with ⟨k, b, hk, hbi, hib, rfl⟩ | ⟨k, l, b, d, hk, rfl, hkl, hd, rfl⟩
  · exact hp.next_or_dead_of_inside hc hfl hl hk hbi hib
  · have ht := hp.tiles hc hfl
    have hb := ht.bounds ((blocks_getElem? g k).trans hk)
    have hd' := ht.bounds ((blocks_getElem? g l).trans hd)
    have hx : c.instrs[b.last]? = some c.instrs[b.last] := Array.getElem?_eq_getElem (by omega)
    obtain ⟨e, he, hto⟩ := (hp.mem_succ_iff hc hfl hk hx l).mp hkl
    obtain rfl : d = e := by simpa [hd] using he
    exact Or.inl ⟨by omega, _, hx, hto⟩

theorem inside_of_dead (hp : Parts c first last targets g) (hc : c.Numbered) (hfl : first ≤ last) {i j : Nat}
    (h : c.DeadJump first last i j) : ∃ k b, g.block? k = some b ∧ b.first ≤ i ∧ j ≤ b.last := by
  obtain ⟨⟨hfi, hjl, rfl⟩, ⟨x, hx, hret⟩, y, hy, hjump⟩ := h
  have ht := hp.tiles hc hfl
  obtain ⟨k, b, hk', hbi, hib⟩ := ht.cover (i := i + 1) (by omega) hjl
  have hk : g.block? k = some b := (blocks_getElem? g k).symm.trans hk'
  refine ⟨k, b, hk, ?_, hib⟩
  -- otherwise the jump is the first of its block, and nothing makes a block start there
  by_contra hlt
  have hbf : b.first = i + 1 := by omega
  rcases (mem_leaders c first last targets (i + 1)).mp (List.mem_of_getElem? (hbf ▸ hp.start_of_block hk)) with
    he | ⟨z, hz, hlead⟩ | ⟨src, hsrc⟩
  · omega
  · obtain ⟨pos, -, -, hz⟩ := (Code.mem_slice c first last z).mp hz
    have hid := hc pos z hz
    rcases leader?_eq_some hlead with ⟨hop, he⟩ | ⟨-, he, -⟩
    · obtain rfl : pos = i + 1 := by omega
      rw [hy] at hz
      cases hz
      rw [hjump] at hop
      cases hop
    · obtain rfl : pos = i := by omega
      rw [hx] at hz
      cases hz
      have hany : c.instrs[x.id + 1]?.any (·.op = .jump) = true := by
        rw [hid, hy]
        simpa using hjump
      simp [leader?, hret, hany] at hlead
  · obtain ⟨-, w, label, -, -, hplace⟩ := (hp.mem_targets src (i + 1)).mp hsrc
    obtain ⟨-, -, z, hz, hop, -⟩ := Code.labelAt?_spec hplace
    rw [hy] at hz
    cases hz
    rw [hjump] at hop
    cases hop

theorem succ_lt_size (hp : Parts c first last targets g) (hc : c.Numbered) (hfl : first ≤ last)
    (hl : last < c.instrs.size) {k l : Nat} (h : l ∈ g.succ k) : l < g.size := by
  obtain ⟨b, hb⟩ := exists_block_of_mem_succ h
  have hbounds := (hp.tiles hc hfl).bounds ((blocks_getElem? g k).trans hb)
  have hx : c.instrs[b.last]? = some c.instrs[b.last] := Array.getElem?_eq_getElem (by omega)
  obtain ⟨d, hd, -⟩ := (hp.mem_succ_iff hc hfl hb hx l).mp h
  exact Digraph.lt_size_of_get? hd

theorem length_succ_le (hp : Parts c first last targets g) (hc : c.Numbered) (hfl : first ≤ last)
    (hl : last < c.instrs.size) (k : Nat) : (g.succ k).length ≤ 2 := by
  rcases hp.succ_eq_nil_or hc hfl hl k with hk | ⟨pos, x, hk⟩
  · simp [hk]
  · rw [hk]
    refine Nat.le_trans (Digraph.length_foldl_pushNew_le _ []) ?_
    rw [List.length_nil, Nat.zero_add]
    exact length_successors_le _ _ _

theorem nodup_succ (hp : Parts c first last targets g) (hc : c.Numbered) (hfl : first ≤ last)
    (hl : last < c.instrs.size) (k : Nat) : (g.succ k).Nodup := by
  rcases hp.succ_eq_nil_or hc hfl hl k with hk | ⟨pos, x, hk⟩
  · simp [hk]
  · rw [hk]
    exact Digraph.nodup_foldl_pushNew _ List.nodup_nil

theorem head?_succ (hp : Parts c first last targets g) (hc : c.Numbered) (hfl : first ≤ last)
    (hl : last < c.instrs.size) {k : Nat} (h : k + 1 ∈ g.succ k) : (g.succ k).head? = some (k + 1) := by
  rcases hp.succ_eq_nil_or hc hfl hl k with hk | ⟨pos, x, hk⟩
  · simp [hk] at h
  · rw [hk, Digraph.mem_foldl_pushNew, or_iff_right (by simp)] at h
    rw [hk, Digraph.head?_foldl_pushNew, List.head?_nil, Option.none_or]
    refine head?_successors (fun l hl => ?_) h
    rw [Option.ite_none_right_eq_some] at hl
    simpa using hl.2.symm

theorem follows_iff (hp : Parts c first last targets g) (hc : c.Numbered) (hfl : first ≤ last)
    (hl : last < c.instrs.size) (i j : Nat) :
    g.Follows i j ↔ c.Next first last i j ∨ c.DeadJump first last i j := by
  constructor
  · exact hp.next_or_dead_of_follows hc hfl hl
  · rintro (h | h)
    · exact hp.follows_of_next hc hfl h
    · obtain ⟨k, b, hk, hbi, hjb⟩ := hp.inside_of_dead hc hfl h
      have hij := h.1.2.2
      exact Or.inl ⟨k, b, hk, hbi, by omega, hij⟩

theorem mirrors (hp : Parts c first last targets g) (hc : c.Numbered) (hfl : first ≤ last)
    (hl : last < c.instrs.size) (hplaced : c.TargetsPlaced first last)
    (hhead : ∀ x, c.instrs[first]? = some x → x.op ≠ .label) : g.Mirrors c first last := by
  have hzero : ∀ k, 0 ∉ g.succ k := by
    intro k hm
    obtain ⟨b, hb⟩ := exists_block_of_mem_succ hm
    exact hp.succ_ne_zero hc hfl hl hhead hb hm rfl
  have hpred := hp.pred_eq 0 hzero
  rw [← hp.head_eq_zero hc hfl] at hpred hzero
  refine ⟨hp.tiles hc hfl, hp.head_eq_zero hc hfl, hpred, hzero, ?_, ?_, fun k l => hp.succ_lt_size hc hfl hl,
    hp.length_succ_le hc hfl hl, hp.nodup_succ hc hfl hl, fun k => hp.head?_succ hc hfl hl, hp.follows_iff hc hfl hl,
    fun i j h => ⟨h.not_next, hp.inside_of_dead hc hfl h⟩⟩
  · intro i x hfi hil hx hop
    refine hp.starts_of_leader ((mem_leaders c first last targets i).mpr (Or.inr (Or.inl ⟨x, ?_, ?_⟩)))
    · exact (Code.mem_slice c first last x).mpr ⟨i, hfi, hil, hx⟩
    · simp [leader?, hop, hc i x hx]
  · intro i x hfi hil hx hop
    obtain ⟨label, j, hlabel, hj⟩ := hplaced i x hfi hil hx hop
    refine ⟨label, j, hlabel, hj, hp.starts_of_leader ?_⟩
    exact (mem_leaders c first last targets j).mpr
      (Or.inr (Or.inr ⟨i, (hp.mem_targets i j).mpr ⟨⟨hfi, hil⟩, x, label, hx, hlabel, hj⟩⟩))

end Parts

end FlowGraph

/-- The flow graph of every function is exactly its control flow. The blocks tile the function, each block
knows its successors once, the next block before the target, and one position follows another along the
graph just when control can go from the one to the other, or when they are a return and the jump after it. -/
theorem flow_graph_is_control_flow (symbols : SymbolTable) (c : Code) (hc : c.Numbered) (rs : List Routine)
    (hrs : c.routines symbols = .ok rs) (r : Routine) (hr : r ∈ rs) : r.flow.Mirrors c r.first r.last := by
  obtain ⟨⟨x, hx, hop⟩, hfl, hl, -, name, hflow⟩ := Code.mem_routines hrs hr
  obtain ⟨targets, hparts⟩ := FlowGraph.exists_parts hc hl hflow
  refine hparts.mirrors hc hfl hl ((FlowGraph.exists_build_iff hc name hfl hl).mp ⟨_, hflow⟩) ?_
  intro y hy hlabel
  obtain rfl : x = y := by simpa [hx] using hy
  rw [hop] at hlabel
  cases hlabel

/-- Two functions. The first has a jump behind a return, a label that is placed twice and a loop; the second
still claims that `u` is live after its header:

    f:
      if !u goto L1
      return u
      goto L0
    L1:
    L0:
      u = u - v
      if !u goto L0
    L1:
      return v
    g:
      return -/
def detour : Code where
  instrs := #[
    { id := 0, op := .header, result := some 0 },
    { id := 1, op := .branch, left := some 1, right := some 4 },
    { id := 2, op := .ret, left := some 1 },
    { id := 3, op := .jump, left := some 3 },
    { id := 4, op := .label, left := some 4 },
    { id := 5, op := .label, left := some 3 },
    { id := 6, op := .binary (.arith .sub), result := some 1, left := some 1, right := some 2 },
    { id := 7, op := .branch, left := some 1, right := some 3 },
    { id := 8, op := .label, left := some 4 },
    { id := 9, op := .ret, left := some 2 },
    { id := 10, op := .header, result := some 5, liveOut := {1} },
    { id := 11, op := .ret }]
  operands.operands := #[
    { kind := .symbol 0, isValue := false },
    { kind := .symbol 1, isValue := true },
    { kind := .symbol 2, isValue := true },
    { kind := .label ⟨0⟩, isValue := false },
    { kind := .label ⟨1⟩, isValue := false },
    { kind := .symbol 3, isValue := false }]

def detourSymbols : SymbolTable where
  symbols := #[
    { name := "f", kind := .function, ty := .function [] .int },
    { name := "u", kind := .localVar, ty := .int },
    { name := "v", kind := .localVar, ty := .int },
    { name := "g", kind := .function, ty := .function [] .void }]

def detourRoutines : List Routine :=
  [{ symbol := 0, first := 0, last := 9, flow := (FlowGraph.build detour "f" 0 9).toOption.getD {} },
    { symbol := 3, first := 10, last := 11, flow := (FlowGraph.build detour "g" 10 11).toOption.getD {} }]

theorem detour_numbered : detour.Numbered := by
  intro i x hx
  have hi : i < 12 := (Array.getElem?_eq_some_iff.mp hx).1
  have hall : ∀ i < 12, (detour.instrs[i]?).all (·.id = i) := by decide +kernel
  simpa [hx] using hall i hi

/-- The later place of the label counts, the jump behind the return stays with it, and the loop goes on before
it goes back. -/
theorem detour_control_flow : detour.Numbered ∧ detour.routines detourSymbols = .ok detourRoutines ∧
    ∃ r ∈ detourRoutines, r.flow.Mirrors detour r.first r.last ∧ detour.DeadJump r.first r.last 2 3 ∧
      (List.range 5).map r.flow.succ = [[1, 4], [3], [3], [4, 3], []] := by
  have hrs : detour.routines detourSymbols = .ok detourRoutines := rfl
  refine ⟨detour_numbered, hrs, _, List.mem_cons_self, ?_, ?_, ?_⟩
  · exact flow_graph_is_control_flow detourSymbols detour detour_numbered _ hrs _ List.mem_cons_self
  · exact ⟨by decide, ⟨_, rfl, rfl⟩, _, rfl, rfl⟩
  · decide +kernel

end MiddleEnd
