import MiddleEnd.Proofs.Flow.Routines
import MiddleEnd.Proofs.Liveness.Annotate
import MiddleEnd.Proofs.Liveness.Solve

/-! Liveness of a function that was just built. The analysis ends well, and an instruction's live-out set
holds exactly the values that some path from it reads before anything writes them. -/

namespace MiddleEnd

/-- Some path of one step or more from position `i` reads `x` before anything writes it. -/
inductive Wanted (c : Code) (g : FlowGraph) (x : OperandId) : Nat → Prop
  | read {i j : Nat} {z : Instr} (h : g.Follows i j) (hz : c.instrs[j]? = some z) (hx : x ∈ z.reads c.operands) :
      Wanted c g x i
  | pass {i j : Nat} {z : Instr} (h : g.Follows i j) (hz : c.instrs[j]? = some z)
      (hx : z.writes? c.operands ≠ some x) (hj : Wanted c g x j) : Wanted c g x i

/-- `x` is read at position `i`, or not written there and wanted after it. -/
def WantedAt (c : Code) (g : FlowGraph) (x : OperandId) (i : Nat) : Prop :=
  ∃ z, c.instrs[i]? = some z ∧ (x ∈ z.reads c.operands ∨ (z.writes? c.operands ≠ some x ∧ Wanted c g x i))

theorem WantedAt.wanted {c : Code} {g : FlowGraph} {x : OperandId} {i j : Nat} (hj : WantedAt c g x j)
    (h : g.Follows i j) : Wanted c g x i := by
  obtain ⟨z, hz, hx | ⟨hx, hw⟩⟩ := hj
  · exact .read h hz hx
  · exact .pass h hz hx hw

theorem wanted_iff {c : Code} {g : FlowGraph} {x : OperandId} {i : Nat} :
    Wanted c g x i ↔ ∃ j, g.Follows i j ∧ WantedAt c g x j := by
  constructor
  · intro h
    cases h with
    | read hij hz hx => exact ⟨_, hij, _, hz, Or.inl hx⟩
    | pass hij hz hx hj => exact ⟨_, hij, _, hz, Or.inr ⟨hx, hj⟩⟩
  · rintro ⟨j, hij, hj⟩
    exact hj.wanted hij

/-- What liveness makes of the function `r` of the table `c`. -/
structure Analyzed (c : Code) (r : Routine) (an : Analysis) : Prop where
  alike : c.Alike an.code
  outside : ∀ i, i < r.first ∨ r.last < i → an.code.instrs[i]? = c.instrs[i]?
  size : an.flow.size = r.flow.size
  head : an.flow.head = r.flow.head
  succ : ∀ k, an.flow.succ k = r.flow.succ k
  block : ∀ k b, r.flow.block? k = some b → ∃ d, an.flow.block? k = some d ∧ d.first = b.first ∧ d.last = b.last
  liveOut_iff : ∀ i z, r.first ≤ i → i ≤ r.last → an.code.instrs[i]? = some z →
    ∀ x, x ∈ z.liveOut ↔ Wanted c r.flow x i

namespace Code

theorem block?_withLocalSets (c : Code) (g : FlowGraph) (k : Nat) : (c.withLocalSets g).block? k =
    (g.block? k).map fun b =>
      { b with uses := (localSets c.operands (c.slice b.first b.last)).1
               defs := (localSets c.operands (c.slice b.first b.last)).2 } :=
  Digraph.get?_map g.graph _ k

theorem succ_withLocalSets (c : Code) (g : FlowGraph) (k : Nat) : (c.withLocalSets g).succ k = g.succ k :=
  Digraph.succ_map g.graph _ k

theorem size_withLocalSets (c : Code) (g : FlowGraph) : (c.withLocalSets g).size = g.size :=
  Digraph.size_map g.graph _

theorem below_withLocalSets {c : Code} {r : Routine} (hr : r.Built c) :
    FlowGraph.Below (c.withLocalSets r.flow) (c.withLocalSets r.flow) := by
  intro k x hx
  unfold FlowGraph.entry at hx
  cases hk : r.flow.block? k with
  | none => simp [block?_withLocalSets, hk] at hx
  | some b =>
    have hb := hr.fresh b (List.mem_of_getElem? ((FlowGraph.blocks_getElem? r.flow k).trans hk))
    rw [hb] at hk
    simp [block?_withLocalSets, hk] at hx

/-- What the scan of a block claims after a position is wanted there, if what it starts from is wanted
after the block. -/
theorem wanted_of_mem_liveAfter {c : Code} {r : Routine} (hr : r.Built c) {k : Nat} {b : Block}
    (hk : r.flow.block? k = some b) {out : LiveSet} (hout : ∀ y ∈ out, Wanted c r.flow y b.last) {x : OperandId}
    {i : Nat} (hbi : b.first ≤ i) (hib : i ≤ b.last) (hx : x ∈ c.liveAfter b.last out i) : Wanted c r.flow x i := by
  have hb := hr.block_bounds hk
  have hlast := hr.last_lt
  obtain ⟨n, hn⟩ : ∃ n, b.last - i = n := ⟨_, rfl⟩
  induction n generalizing i with
  | zero =>
    obtain rfl : i = b.last := by omega
    rw [liveAfter_last] at hx
    exact hout x hx
  | succ n ih =>
    obtain ⟨z, hz⟩ : ∃ z, c.instrs[i + 1]? = some z := ⟨_, Array.getElem?_eq_getElem (by omega)⟩
    have hstep : r.flow.Follows i (i + 1) := Or.inl ⟨k, b, hk, hbi, by omega, rfl⟩
    rw [liveAfter_of_lt out (by omega) hz, Instr.mem_before] at hx
    rcases hx with hx | ⟨hx, hw⟩
    · exact .read hstep hz hx
    · exact .pass hstep hz hw (ih (by omega) (by omega) hx (by omega))

theorem live_scan {c : Code} {r : Routine} (hr : r.Built c) {k : Nat} {b : Block}
    (hk : r.flow.block? k = some b) (out : LiveSet) : ∃ z, c.instrs[b.first]? = some z ∧
      (Scan.run c.operands b.first (c.slice b.first b.last) out).live =
        z.before c.operands (c.liveAfter b.last out b.first) := by
  obtain ⟨h1, h2, h3⟩ := hr.block_bounds hk
  have hlast := hr.last_lt
  obtain ⟨z, hz⟩ : ∃ z, c.instrs[b.first]? = some z := ⟨_, Array.getElem?_eq_getElem (by omega)⟩
  exact ⟨z, hz, by rw [slice_cons c h2 hz, Scan.live_cons, liveAfter]⟩

theorem wantedAt_of_needs {c : Code} {r : Routine} (hr : r.Built c) {x : OperandId} {k : Nat}
    (h : (c.withLocalSets r.flow).Needs x k) {b : Block} (hk : r.flow.block? k = some b) :
    WantedAt c r.flow x b.first := by
  -- it is enough to find it in a scan that starts from wanted values
  have key : ∀ k b out, r.flow.block? k = some b → (∀ y ∈ out, Wanted c r.flow y b.last) →
      x ∈ (Scan.run c.operands b.first (c.slice b.first b.last) out).live → WantedAt c r.flow x b.first := by
    intro k b out hk hout hx
    obtain ⟨z, hz, he⟩ := live_scan hr hk out
    rw [he, Instr.mem_before] at hx
    obtain ⟨-, h2, -⟩ := hr.block_bounds hk
    rcases hx with hx | ⟨hx, hw⟩
    · exact ⟨z, hz, Or.inl hx⟩
    · exact ⟨z, hz, Or.inr ⟨hw, wanted_of_mem_liveAfter hr hk hout (Nat.le_refl _) h2 hx⟩⟩
  induction h generalizing b with
  | use hk' hx =>
    rw [block?_withLocalSets, hk] at hk'
    cases hk'
    exact key _ b ∅ hk (by simp) ((Scan.mem_live_run _ _ _ _ _).mpr (Or.inl hx))
  | @through k l d hk' hx hl hn ih =>
    rw [block?_withLocalSets, hk] at hk'
    cases hk'
    rw [succ_withLocalSets] at hl
    obtain ⟨e, he⟩ := FlowGraph.exists_block (size_withLocalSets c r.flow ▸ hn.lt_size)
    have hw : Wanted c r.flow x b.last := (ih he).wanted (Or.inr ⟨k, l, b, e, hk, rfl, hl, he, rfl⟩)
    refine key _ b ((∅ : LiveSet).insert x) hk ?_ ((Scan.mem_live_run _ _ _ _ _).mpr (Or.inr ⟨by simp, hx⟩))
    intro y hy
    obtain rfl : x = y := by simpa using hy
    exact hw

theorem scan_eq_liveIn {c : Code} {g h : FlowGraph} (hs : FlowGraph.Solved (c.withLocalSets g) h) {k : Nat}
    {b : Block} (hk : h.block? k = some b) :
    (Scan.run c.operands b.first (c.slice b.first b.last) b.liveOut).live = b.liveIn := by
  obtain ⟨d, hd, hf, hl, hu, hdef⟩ := FlowGraph.block?_of_bare hs.bare_eq hk
  obtain ⟨e, he, rfl⟩ := Option.map_eq_some_iff.mp ((block?_withLocalSets c g k).symm.trans hd)
  dsimp only at hf hl hu hdef
  ext x
  rw [Scan.mem_live_run, hs.liveIn_iff hk, hs.liveOut_iff k b hk, ← hf, ← hl, hu, hdef]
  constructor
  · rintro (hx | ⟨⟨l, hl, hx⟩, hnd⟩)
    · exact .use hd (hu ▸ hx)
    · exact .through hd (hdef ▸ hnd) hl hx
  · intro hx
    cases hx with
    | use hk' hx =>
      rw [hd] at hk'
      cases hk'
      exact Or.inl (hu ▸ hx)
    | through hk' hx hl hn =>
      rw [hd] at hk'
      cases hk'
      exact Or.inr ⟨⟨_, hl, hn⟩, hdef ▸ hx⟩

theorem exists_scanned {c : Code} {g h : FlowGraph} {first last : Nat}
    (hs : FlowGraph.Solved (c.withLocalSets g) h) (ht : Tiles last first h.blocks) (hlast : last < c.instrs.size)
    (n : Nat) (hn : n ≤ h.size) :
    ∃ d h', (List.range n).foldlM annotate (c, h) = .ok (d, h') ∧ Scanned c h (List.range n) d h' := by
  induction n with
  | zero => exact ⟨c, h, rfl, Scanned.nil c h⟩
  | succ n ih =>
    obtain ⟨d, h', hfold, hscan⟩ := ih (by omega)
    obtain ⟨b, hb⟩ := FlowGraph.exists_block (g := h) (k := n) (by omega)
    obtain ⟨d', h'', hstep, hscan'⟩ := hscan.snoc ht hlast (by simp) hb (scan_eq_liveIn hs hb)
    refine ⟨d', h'', ?_, List.range_succ ▸ hscan'⟩
    rw [List.range_succ, List.foldlM_append, hfold]
    exact Except.bind_eq_ok.mpr ⟨_, rfl, Except.bind_eq_ok.mpr ⟨_, hstep, rfl⟩⟩

theorem solved_block {c : Code} {g h : FlowGraph} (hs : FlowGraph.Solved (c.withLocalSets g) h) {k : Nat} {b : Block}
    (hk : g.block? k = some b) : ∃ d, h.block? k = some d ∧ d.first = b.first ∧ d.last = b.last := by
  have hw : (c.withLocalSets g).block? k = some _ := (block?_withLocalSets c g k).trans (by rw [hk]; rfl)
  obtain ⟨d, hd, hf, hl, -⟩ := FlowGraph.block?_of_bare hs.bare_eq.symm hw
  exact ⟨d, hd, hf, hl⟩

theorem solved_blocks {c : Code} {g h : FlowGraph} (hs : FlowGraph.Solved (c.withLocalSets g) h) :
    h.blocks.map (fun b => (b.first, b.last)) = g.blocks.map fun b => (b.first, b.last) := by
  apply List.ext_getElem?
  intro k
  rw [List.getElem?_map, List.getElem?_map, FlowGraph.blocks_getElem?, FlowGraph.blocks_getElem?]
  cases hk : g.block? k with
  | none =>
    have hsize : h.size = g.size := (FlowGraph.size_of_bare hs.bare_eq).trans (size_withLocalSets c g)
    have hge : ¬ k < h.size := by
      rw [hsize]
      intro hlt
      obtain ⟨b, hb⟩ := FlowGraph.exists_block hlt
      rw [hk] at hb
      cases hb
    cases hk' : h.block? k with
    | none => rfl
    | some d => exact absurd (FlowGraph.lt_size hk') hge
  | some b =>
    obtain ⟨d, hd, hf, hl⟩ := solved_block hs hk
    rw [hd, Option.map_some, Option.map_some, hf, hl]

section Solution

variable {c d : Code} {r : Routine} {h h' : FlowGraph} (hs : FlowGraph.Solved (c.withLocalSets r.flow) h)
  (hscan : Scanned c h (List.range h.size) d h') (hr : r.Built c)
include hs hscan

theorem liveOut_eq {k i : Nat} {b e : Block} {z : Instr} (hk : r.flow.block? k = some b) (he : h.block? k = some e)
    (hbi : b.first ≤ i) (hib : i ≤ b.last) (hz : d.instrs[i]? = some z) :
    z.liveOut = c.liveAfter b.last e.liveOut i := by
  obtain ⟨e', he', hf, hl⟩ := solved_block hs hk
  rw [he] at he'
  cases he'
  rw [← hl]
  exact hscan.inside k (List.mem_range.mpr (FlowGraph.lt_size he)) e he i (by omega) (by omega) z hz

include hr

theorem mem_liveOut_of_follows {i j : Nat} {y z : Instr} {x : OperandId} (hstep : r.flow.Follows i j)
    (hy : d.instrs[i]? = some y) (hz : d.instrs[j]? = some z)
    (hx : x ∈ z.reads c.operands ∨ (x ∈ z.liveOut ∧ z.writes? c.operands ≠ some x)) : x ∈ y.liveOut := by
  obtain ⟨z', hz', hzz⟩ := hscan.alike.of_right hz
  have hbefore : ∀ live, x ∈ z'.before c.operands live ↔
      x ∈ z.reads c.operands ∨ (x ∈ live ∧ z.writes? c.operands ≠ some x) := by
    intro live
    rw [hzz]
    exact Instr.mem_before c.operands z' live x
  rcases hstep with ⟨k, b, hk, h1, h2, rfl⟩ | ⟨k, l, b, e, hk, rfl, hl, hl', rfl⟩
  · obtain ⟨b', hb', -⟩ := solved_block hs hk
    rw [liveOut_eq hs hscan hk hb' h1 (by omega) hy, liveAfter_of_lt _ h2 hz',
      ← liveOut_eq hs hscan hk hb' (by omega) (by omega) hz, hbefore]
    exact hx
  · obtain ⟨b', hb', -⟩ := solved_block hs hk
    obtain ⟨e', he', hef, hel⟩ := solved_block hs hl'
    have hbb := (hr.block_bounds hk).2.1
    have hee := (hr.block_bounds hl').2.1
    rw [liveOut_eq hs hscan hk hb' hbb (Nat.le_refl _) hy, liveAfter_last, hs.liveOut_iff k b' hb']
    refine ⟨l, succ_withLocalSets c r.flow k ▸ hl, ?_⟩
    obtain ⟨z'', hz'', hlive⟩ := live_scan hr hl' e'.liveOut
    obtain rfl : z'' = z' := by simpa [hz'] using hz''.symm
    rw [← hs.liveIn_iff he', ← scan_eq_liveIn hs he', hef, hel, hlive, hbefore,
      ← liveOut_eq hs hscan hl' he' (Nat.le_refl _) hee hz]
    exact hx

theorem mem_liveOut_iff {i : Nat} {z : Instr} (hfi : r.first ≤ i) (hil : i ≤ r.last) (hz : d.instrs[i]? = some z)
    (x : OperandId) : x ∈ z.liveOut ↔ Wanted c r.flow x i := by
  constructor
  · intro hx
    obtain ⟨k, b, hk, hbi, hib⟩ := hr.exists_block hfi hil
    obtain ⟨e, he, -⟩ := solved_block hs hk
    rw [liveOut_eq hs hscan hk he hbi hib hz] at hx
    refine wanted_of_mem_liveAfter hr hk ?_ hbi hib hx
    intro y hy
    obtain ⟨l, hl, hn⟩ := (hs.liveOut_iff k e he y).mp hy
    obtain ⟨f, hf⟩ := FlowGraph.exists_block (size_withLocalSets c r.flow ▸ hn.lt_size)
    rw [succ_withLocalSets] at hl
    exact (wantedAt_of_needs hr hn hf).wanted (Or.inr ⟨k, l, b, f, hk, rfl, hl, hf, rfl⟩)
  · intro hx
    have hnext : ∀ {i j y}, r.flow.Follows i j → c.instrs[j]? = some y →
        ∃ live, d.instrs[j]? = some { y with liveOut := live } :=
      fun _ hy => hscan.alike.instrs _ _ hy
    induction hx generalizing z with
    | read hstep hy hx =>
      obtain ⟨live, hd⟩ := hnext hstep hy
      exact mem_liveOut_of_follows hs hscan hr hstep hz hd (Or.inl hx)
    | pass hstep hy hw _ ih =>
      obtain ⟨live, hd⟩ := hnext hstep hy
      obtain ⟨-, h1, h2⟩ := hr.follows_bounds hstep
      exact mem_liveOut_of_follows hs hscan hr hstep hz hd (Or.inr ⟨ih h1 h2 hd, hw⟩)

end Solution

/-- Liveness ends well where the blocks tile the function and claim nothing to be live that is not needed: it
solves the flow graph and scans all blocks. -/
theorem exists_analysis_of_below {c : Code} {r : Routine} (ht : Tiles r.last r.first r.flow.blocks)
    (hlast : r.last < c.instrs.size) (hbelow : FlowGraph.Below (c.withLocalSets r.flow) (c.withLocalSets r.flow)) :
    ∃ an h, c.analyze r.flow = .ok an ∧ FlowGraph.Solved (c.withLocalSets r.flow) h ∧
      Scanned c h (List.range h.size) an.code an.flow := by
  obtain ⟨n, h, hsolve, -, hs⟩ := FlowGraph.solve_eq hbelow
  obtain ⟨d, h', hfold, hscan⟩ := exists_scanned hs (ht.congr (solved_blocks hs)) hlast h.size (Nat.le_refl _)
  have hholds : r.flow.blocks.all c.holds = true := by
    rw [List.all_eq_true]
    intro b hb
    obtain ⟨k, hk⟩ := List.mem_iff_getElem?.mp hb
    obtain ⟨h1, h2, h3⟩ := ht.bounds hk
    simp only [holds, Bool.and_eq_true, decide_eq_true_eq]
    omega
  refine ⟨⟨n, d, h'⟩, h, ?_, hs, hscan⟩
  unfold analyze
  rw [if_neg (by simp [hholds]), hsolve]
  exact Except.bind_eq_ok.mpr ⟨(d, h'), hfold, rfl⟩

theorem exists_analysis {c : Code} {r : Routine} (hr : r.Built c) :
    ∃ an h, c.analyze r.flow = .ok an ∧ FlowGraph.Solved (c.withLocalSets r.flow) h ∧
      Scanned c h (List.range h.size) an.code an.flow :=
  exists_analysis_of_below hr.tiles hr.last_lt (below_withLocalSets hr)

theorem analyze_eq_ok {c : Code} {r : Routine} (hr : r.Built c) :
    ∃ an, c.analyze r.flow = .ok an ∧ Analyzed c r an := by
  obtain ⟨an, h, han, hs, hscan⟩ := exists_analysis hr
  have ht : Tiles r.last r.first h.blocks := hr.tiles.congr (solved_blocks hs)
  have hsize : h.size = r.flow.size := (FlowGraph.size_of_bare hs.bare_eq).trans (size_withLocalSets c r.flow)
  have hsucc : ∀ k, h.succ k = r.flow.succ k :=
    fun k => (FlowGraph.succ_of_bare hs.bare_eq k).trans (succ_withLocalSets c r.flow k)
  refine ⟨an, han, hscan.alike, ?_, hscan.size.trans hsize, ?_, fun k => (hscan.succ k).trans (hsucc k), ?_,
    fun i z hfi hil hz => mem_liveOut_iff hs hscan hr hfi hil hz⟩
  · intro i hi
    refine hscan.outside i fun k _ b hb => ?_
    have := ht.bounds ((FlowGraph.blocks_getElem? h k).trans hb)
    omega
  · have hb : h.bare.head = (c.withLocalSets r.flow).bare.head := by rw [hs.bare_eq]
    exact hscan.head.trans hb
  · intro k b hk
    obtain ⟨e, he, hf, hl⟩ := solved_block hs hk
    obtain ⟨e', he', hee⟩ := hscan.block he
    simp only [Block.unnoted, Block.mk.injEq] at hee
    exact ⟨e', he', hee.1.trans hf, hee.2.1.trans hl⟩

theorem analyze_block_sets {c : Code} {r : Routine} (hr : r.Built c) {an : Analysis} (han : c.analyze r.flow = .ok an)
    {k : Nat} {d : Block} (hd : an.flow.block? k = some d) : ∃ b, r.flow.block? k = some b ∧ d.first = b.first ∧
      d.last = b.last ∧ ∀ x, (x ∈ d.liveOut ↔ Wanted c r.flow x b.last) ∧
        (x ∈ d.liveIn ↔ WantedAt c r.flow x b.first) := by
  obtain ⟨an', h, han', hs, hscan⟩ := exists_analysis hr
  obtain rfl : an' = an := Except.ok.inj (han'.symm.trans han)
  have hsize : an'.flow.size = r.flow.size :=
    hscan.size.trans ((FlowGraph.size_of_bare hs.bare_eq).trans (size_withLocalSets c r.flow))
  obtain ⟨b, hk⟩ := FlowGraph.exists_block (g := r.flow) (k := k) (hsize ▸ FlowGraph.lt_size hd)
  obtain ⟨e, he, hf, hl⟩ := solved_block hs hk
  obtain ⟨d', hd', hsame⟩ := hscan.block he
  obtain rfl : d' = d := Option.some.inj (hd'.symm.trans hd)
  simp only [Block.unnoted, Block.mk.injEq] at hsame
  obtain ⟨hf', hl', -, -, hin, hout, -⟩ := hsame
  obtain ⟨h1, h2, h3⟩ := hr.block_bounds hk
  have hlast := hr.last_lt
  refine ⟨b, hk, hf'.trans hf, hl'.trans hl, fun x => ⟨?_, ?_⟩⟩
  · obtain ⟨z, hz⟩ : ∃ z, an'.code.instrs[b.last]? = some z :=
      ⟨_, Array.getElem?_eq_getElem (by rw [hscan.alike.size]; omega)⟩
    rw [hout, ← mem_liveOut_iff hs hscan hr (by omega) h3 hz, liveOut_eq hs hscan hk he h2 (Nat.le_refl _) hz,
      liveAfter_last]
  · obtain ⟨z, hz, hlive⟩ := live_scan hr hk e.liveOut
    obtain ⟨live, hz'⟩ := hscan.alike.instrs _ z hz
    have hwanted := mem_liveOut_iff hs hscan hr h1 (by omega) hz' x
    rw [liveOut_eq hs hscan hk he (Nat.le_refl _) h2 hz'] at hwanted
    rw [hin, ← scan_eq_liveIn hs he, hf, hl, hlive, Instr.mem_before, hwanted]
    constructor
    · exact fun hx => ⟨z, hz, hx.imp id And.symm⟩
    · rintro ⟨w, hw, hx⟩
      obtain rfl : z = w := Option.some.inj (hz.symm.trans hw)
      exact hx.imp id And.symm

end Code

end MiddleEnd
