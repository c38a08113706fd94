import MiddleEnd.Convention.Aapcs64
import MiddleEnd.Convention.SysV
import MiddleEnd.Proofs.Allocation.Bank
import MiddleEnd.Proofs.Bank.History
import MiddleEnd.Proofs.Flow.ControlFlow

/-! Allocation amid other work. The phases can be run on the functions of a table in any order and more than
once, and operands can be added and placed in between. Whatever was done, the dataflow sets of a function claim
nothing that its blocks do not need, and no operand is in two places; so liveness settles, the scans arrive where they
should, and everything that allocation looks up is there and can be read. -/

namespace MiddleEnd

/-! ### Tables that are worked on -/

/-- `b` is `a` with more operands at the end, and with other notes on those that were there. -/
def Arena.Extends (a b : Arena) : Prop := ∀ y o, a.get? y = some o → ∃ p, b.get? y = some p ∧ p.bare = o.bare

namespace Arena.Extends

variable {a b d : Arena}

theorem refl (a : Arena) : a.Extends a := fun _ o ho => ⟨o, ho, rfl⟩

theorem trans (h : a.Extends b) (k : b.Extends d) : a.Extends d := by
  intro y o ho
  obtain ⟨p, hp, hpo⟩ := h y o ho
  obtain ⟨q, hq, hqp⟩ := k y p hp
  exact ⟨q, hq, hqp.trans hpo⟩

theorem of_like (h : a.Like b) : a.Extends b := by
  intro y o ho
  have hy := h y
  rw [ho, Option.map_some, Option.map_eq_some_iff] at hy
  exact hy

theorem of_get? (h : ∀ y o, a.get? y = some o → b.get? y = some o) : a.Extends b := fun y o ho => ⟨o, h y o ho, rfl⟩

theorem isValue (h : a.Extends b) {y : OperandId} (hy : y < a.size) : b.isValue y = a.isValue y := by
  obtain ⟨o, ho⟩ := exists_of_lt_size hy
  obtain ⟨p, hp, hpo⟩ := h y o ho
  rw [Arena.isValue, Arena.isValue, ho, hp]
  exact (Operand.mk.inj hpo).2.1

theorem size_le (h : a.Extends b) : a.size ≤ b.size := by
  by_contra hlt
  obtain ⟨o, ho⟩ := exists_of_lt_size (a := a) (y := b.size) (by omega)
  obtain ⟨p, hp, -⟩ := h _ o ho
  exact absurd (lt_size_of_get? hp) (Nat.lt_irrefl _)

end Arena.Extends

theorem Arena.Extends.of_serve {a b : Arena} {e : Bank.Request} (h : e.serveArena a = .ok b) : a.Extends b := by
  cases e with
  | symbol id s =>
    cases h
    obtain ⟨y, -, h⟩ | ⟨-, -, hget, -⟩ := a.symbol_cases id s
    · rw [h]
      exact .refl a
    · refine .of_get? fun y o ho => ?_
      rw [hget, if_neg (Nat.ne_of_lt (lt_size_of_get? ho)), ho]
  | temp | label | int =>
    cases h
    exact .of_get? fun _ _ => get?_push_of_get? _
  | assign => exact .of_like (locates_assign h).like
  | spill x =>
    cases h
    exact .of_like (locates_spill a x).like
  | restrict x regs =>
    cases h
    exact .of_like (amends_modify (P := fun _ => True) (Operand.notes_restrict regs) (Or.inl trivial)).like

/-- `d` is `c` after the arena was extended and live-out sets were noted. -/
structure Code.Widens (c d : Code) : Prop where
  operands : c.operands.Extends d.operands
  instrs : ∀ i : Nat, d.instrs[i]?.map Instr.bare = c.instrs[i]?.map Instr.bare

theorem Instr.reads_eq_of_mentions {a b : Arena} {z : Instr} (h : ∀ x ∈ z.mentions, b.isValue x = a.isValue x) :
    z.reads b = z.reads a :=
  List.filter_congr fun x hx => h x (mem_mentions_of_source hx)

theorem Instr.writes?_eq_of_mentions {a b : Arena} {z : Instr} (h : ∀ x ∈ z.mentions, b.isValue x = a.isValue x) :
    z.writes? b = z.writes? a := by
  rw [writes?, writes?]
  cases hd : z.dest? with
  | none => rfl
  | some x => rw [Option.filter_some, Option.filter_some, h x (mem_mentions_of_dest hd)]

theorem localSets_eq_of_map {a b : Arena} {is js : List Instr}
    (h : js.map (fun z => (z.reads b, z.writes? b)) = is.map fun z => (z.reads a, z.writes? a)) :
    localSets b js = localSets a is := by
  have key : ∀ (a : Arena) (is : List Instr), localSets a is = (is.map fun z => (z.reads a, z.writes? a)).foldl
      (fun sets z => (sets.1.insertMany (z.1.filter (· ∉ sets.2)), sets.2.insertMany z.2.toList)) (∅, ∅) := by
    intro a is
    rw [List.foldl_map]
    rfl
  rw [key, key, h]

namespace Code.Widens

variable {c d : Code}

theorem of_like (h : c.Like d) : c.Widens d := ⟨.of_like h.operands, h.instrs⟩

theorem instr (h : c.Widens d) {i : Nat} {z : Instr} (hz : d.instrs[i]? = some z) :
    ∃ live, c.instrs[i]? = some { z with liveOut := live } :=
  Code.Like.instr (c := d) (d := { c with operands := d.operands }) ⟨.refl _, fun i => (h.instrs i).symm⟩ hz

theorem size (h : c.Widens d) : d.instrs.size = c.instrs.size :=
  Code.Like.size (c := { c with operands := d.operands }) ⟨.refl _, h.instrs⟩

theorem numbered (h : c.Widens d) (hc : c.Numbered) : d.Numbered := by
  intro i z hz
  obtain ⟨live, hz⟩ := h.instr hz
  exact (hc i _ hz :)

theorem closed (h : c.Widens d) (hc : c.Closed) : d.Closed := by
  intro i z hz x hx
  obtain ⟨live, hz⟩ := h.instr hz
  exact Nat.lt_of_lt_of_le (hc i _ hz x hx) h.operands.size_le

theorem localSets_slice (h : c.Widens d) (hc : c.Closed) (first last : Nat) :
    localSets d.operands (d.slice first last) = localSets c.operands (c.slice first last) := by
  refine localSets_eq_of_map (List.ext_getElem? fun k => ?_)
  rw [List.getElem?_map, List.getElem?_map, slice_getElem?, slice_getElem?]
  split
  case isFalse => rfl
  case isTrue =>
    cases hz : d.instrs[first + k]? with
    | none =>
      have hsize : c.instrs.size ≤ first + k := by
        rw [← h.size]
        simpa using hz
      rw [Array.getElem?_eq_none hsize]
      rfl
    | some z =>
      obtain ⟨live, hz⟩ := h.instr hz
      have hvalue : ∀ x ∈ z.mentions, d.operands.isValue x = c.operands.isValue x :=
        fun x hx => h.operands.isValue (hc _ _ hz x hx)
      rw [hz, Option.map_some, Option.map_some, Instr.reads_eq_of_mentions hvalue,
        Instr.writes?_eq_of_mentions hvalue]
      rfl

theorem withLocalSets_eq (h : c.Widens d) (hc : c.Closed) (g : FlowGraph) : d.withLocalSets g = c.withLocalSets g := by
  simp only [withLocalSets, h.localSets_slice hc]

end Code.Widens

/-! ### Flow graphs that are worked on -/

/-- A block without what liveness claims of it. -/
def Block.skeleton (b : Block) : Block := { b with liveIn := ∅, liveOut := ∅, nextUse := ∅ }

/-- Two flow graphs differ at most in what liveness claims. -/
structure FlowGraph.Agree (g h : FlowGraph) : Prop where
  succ : ∀ k, h.succ k = g.succ k
  block : ∀ k, (h.block? k).map Block.skeleton = (g.block? k).map Block.skeleton

namespace FlowGraph

variable {f g h : FlowGraph}

theorem Agree.symm (hgh : g.Agree h) : h.Agree g := ⟨fun k => (hgh.succ k).symm, fun k => (hgh.block k).symm⟩

theorem Agree.trans (hfg : f.Agree g) (hgh : g.Agree h) : f.Agree h :=
  ⟨fun k => (hgh.succ k).trans (hfg.succ k), fun k => (hgh.block k).trans (hfg.block k)⟩

theorem agree_of_bare (hb : h.bare = g.bare) : g.Agree h := by
  refine ⟨succ_of_bare hb, fun k => ?_⟩
  have key : ∀ g : FlowGraph, (g.block? k).map Block.skeleton = (g.bare.block? k).map Block.skeleton := by
    intro g
    rw [block?_bare, Option.map_map]
    rfl
  rw [key h, hb, ← key g]

theorem Agree.block_of (hgh : g.Agree h) {k : Nat} {b : Block} (hb : g.block? k = some b) :
    ∃ d, h.block? k = some d ∧ d.first = b.first ∧ d.last = b.last ∧ d.uses = b.uses ∧ d.defs = b.defs := by
  have hk := hgh.block k
  rw [hb, Option.map_some, Option.map_eq_some_iff] at hk
  obtain ⟨d, hd, hdb⟩ := hk
  simp only [Block.skeleton, Block.mk.injEq] at hdb
  exact ⟨d, hd, hdb.1, hdb.2.1, hdb.2.2.1, hdb.2.2.2.1⟩

theorem Agree.needs (hgh : g.Agree h) {x : OperandId} {k : Nat} (hn : g.Needs x k) : h.Needs x k := by
  induction hn with
  | use hk hx =>
    obtain ⟨d, hd, -, -, hu, -⟩ := hgh.block_of hk
    exact .use hd (hu ▸ hx)
  | through hk hx hl _ ih =>
    obtain ⟨d, hd, -, -, -, hdef⟩ := hgh.block_of hk
    exact .through hd (hdef ▸ hx) (hgh.succ _ ▸ hl) ih

theorem Agree.tiles (hgh : g.Agree h) {first last : Nat} (ht : Tiles last first g.blocks) :
    Tiles last first h.blocks := by
  refine ht.congr (List.ext_getElem? fun k => ?_)
  rw [List.getElem?_map, List.getElem?_map, blocks_getElem?, blocks_getElem?]
  have key : ∀ o : Option Block, o.map (fun b => (b.first, b.last)) =
      (o.map Block.skeleton).map fun b => (b.first, b.last) := by
    intro o
    rw [Option.map_map]
    rfl
  rw [key, hgh.block, ← key]

theorem Agree.lt_size (hgh : g.Agree h) {k : Nat} (hk : k < g.size) : k < h.size := by
  obtain ⟨b, hb⟩ := exists_block hk
  obtain ⟨d, hd, -⟩ := hgh.block_of hb
  exact FlowGraph.lt_size hd

theorem agree_withLocalSets (c : Code) (hgh : g.Agree h) : (c.withLocalSets g).Agree (c.withLocalSets h) := by
  refine ⟨fun k => ?_, fun k => ?_⟩
  · rw [Code.succ_withLocalSets, Code.succ_withLocalSets, hgh.succ]
  · have key : ∀ o : Option Block, (o.map fun b => { b with
          uses := (localSets c.operands (c.slice b.first b.last)).1
          defs := (localSets c.operands (c.slice b.first b.last)).2 }).map Block.skeleton =
        (o.map Block.skeleton).map fun b => { b with
          uses := (localSets c.operands (c.slice b.first b.last)).1
          defs := (localSets c.operands (c.slice b.first b.last)).2 } := by
      intro o
      rw [Option.map_map, Option.map_map]
      rfl
    rw [Code.block?_withLocalSets, Code.block?_withLocalSets, key, hgh.block, ← key]

theorem withLocalSets_withLocalSets (c : Code) (g : FlowGraph) :
    c.withLocalSets (c.withLocalSets g) = c.withLocalSets g := by
  simp only [Code.withLocalSets, Digraph.map, Array.map_map, FlowGraph.mk.injEq, Digraph.mk.injEq, and_true]
  rfl

theorem entry_withLocalSets (c : Code) (g : FlowGraph) (k : Nat) : (c.withLocalSets g).entry k = g.entry k := by
  rw [entry, entry, Code.block?_withLocalSets]
  cases g.block? k <;> rfl

end FlowGraph

theorem Scanned.agree {c d : Code} {g h : FlowGraph} {ks : List Nat} (hs : Scanned c g ks d h) : g.Agree h := by
  refine ⟨hs.succ, fun k => ?_⟩
  have key : ∀ o : Option Block, o.map Block.skeleton = (o.map Block.unnoted).map Block.skeleton := by
    intro o
    rw [Option.map_map]
    rfl
  rw [key, hs.blocks, ← key]

theorem Scanned.entry {c d : Code} {g h : FlowGraph} {ks : List Nat} (hs : Scanned c g ks d h) (k : Nat) :
    h.entry k = g.entry k := by
  have key : ∀ o : Option Block, o.elim ∅ (·.liveIn) = (o.map Block.unnoted).elim ∅ (·.liveIn) := by
    intro o
    cases o <;> rfl
  rw [FlowGraph.entry, FlowGraph.entry, key, hs.blocks, ← key]

/-! ### Functions that are ready for allocation -/

/-- The function tiles its part of the table, and nothing is claimed to be live in it that is not needed, be it by
the uses and definitions that are noted or by those that the table says. -/
structure Routine.Ready (c : Code) (r : Routine) : Prop where
  first_le : r.first ≤ r.last
  last_lt : r.last < c.instrs.size
  tiles : Tiles r.last r.first r.flow.blocks
  edges : ∀ k l, l ∈ r.flow.succ k → l < r.flow.size
  needs : ∀ x k, r.flow.Needs x k → (c.withLocalSets r.flow).Needs x k
  below : FlowGraph.Below r.flow r.flow

/-- A function that was just built is ready, with whatever arena: there is nothing noted in it. -/
theorem Code.routines_ready {symbols : SymbolTable} {c : Code} (hc : c.Numbered) {rs : List Routine}
    (h : c.routines symbols = .ok rs) (a : Arena) : ∀ r ∈ rs, r.Ready { c with operands := a } := by
  intro r hr
  have hbuilt := routines_built hc h r hr
  obtain ⟨-, hfl, hl, -, name, hflow⟩ := mem_routines h hr
  obtain ⟨targets, hparts⟩ := FlowGraph.exists_parts hc hl hflow
  have hfresh : ∀ {k b}, r.flow.block? k = some b → b.uses = ∅ ∧ b.liveIn = ∅ := by
    intro k b hk
    rw [hbuilt.fresh b (List.mem_of_getElem? ((FlowGraph.blocks_getElem? r.flow k).trans hk))]
    exact ⟨rfl, rfl⟩
  have hneeds : ∀ x k, ¬ r.flow.Needs x k := by
    intro x k hn
    induction hn with
    | use hk hx =>
      rw [(hfresh hk).1] at hx
      simp at hx
    | through _ _ _ _ ih => exact ih
  refine ⟨hfl, hl, hbuilt.tiles, fun k l => hparts.succ_lt_size hc hfl hl, fun x k hn => absurd hn (hneeds x k), ?_⟩
  intro k x hx
  cases hk : r.flow.block? k with
  | none => simp [FlowGraph.entry, hk] at hx
  | some b =>
    rw [FlowGraph.entry_eq hk, (hfresh hk).2] at hx
    simp at hx

namespace Routine.Ready

variable {c d : Code} {r : Routine}

theorem of_widens (hr : r.Ready c) (hc : c.Closed) (h : c.Widens d) : r.Ready d :=
  ⟨hr.first_le, h.size ▸ hr.last_lt, hr.tiles, hr.edges, h.withLocalSets_eq hc r.flow ▸ hr.needs, hr.below⟩

theorem withNotes (hr : r.Ready c) (g : Interference) (spilled : List OperandId) :
    Ready c { r with interference := g, spilled } :=
  ⟨hr.first_le, hr.last_lt, hr.tiles, hr.edges, hr.needs, hr.below⟩

theorem of_agree (hr : r.Ready c) {f : FlowGraph} (hf : r.flow.Agree f)
    (hbelow : ∀ k x, x ∈ f.entry k → r.flow.Needs x k) : Ready c { r with flow := f } where
  first_le := hr.first_le
  last_lt := hr.last_lt
  tiles := hf.tiles hr.tiles
  edges k l hl := hf.lt_size (hr.edges k l (hf.succ k ▸ hl))
  needs x k hn := (FlowGraph.agree_withLocalSets c hf).needs (hr.needs x k (hf.symm.needs hn))
  below k x hx := hf.needs (hbelow k x hx)

theorem withLocalSets (hr : r.Ready c) : Ready c { r with flow := c.withLocalSets r.flow } where
  first_le := hr.first_le
  last_lt := hr.last_lt
  tiles := hr.tiles.congr (List.ext_getElem? fun k => by
    rw [List.getElem?_map, List.getElem?_map, FlowGraph.blocks_getElem?, FlowGraph.blocks_getElem?,
      Code.block?_withLocalSets, Option.map_map]
    rfl)
  edges k l hl := by
    rw [Code.size_withLocalSets]
    exact hr.edges k l (Code.succ_withLocalSets c r.flow k ▸ hl)
  needs x k hn := by
    rw [FlowGraph.withLocalSets_withLocalSets]
    exact hn
  below k x hx := by
    rw [FlowGraph.entry_withLocalSets] at hx
    exact hr.needs x k (hr.below k x hx)

theorem solve (hr : r.Ready c) {n : Nat} {f : FlowGraph} (h : r.flow.solve = some (n, f)) :
    Ready c { r with flow := f } := by
  obtain ⟨m, f', hsolve, -, hsolved⟩ := FlowGraph.solve_eq hr.below
  obtain ⟨rfl, rfl⟩ : m = n ∧ f' = f := by simpa using hsolve.symm.trans h
  exact hr.of_agree (FlowGraph.agree_of_bare hsolved.bare_eq) fun k x hx => (hsolved.entry_iff k x).mp hx

theorem analyze (hr : r.Ready c) : ∃ an h, c.analyze r.flow = .ok an ∧
    FlowGraph.Solved (c.withLocalSets r.flow) h ∧ Scanned c h (List.range h.size) an.code an.flow ∧
    Ready c { r with flow := an.flow } := by
  obtain ⟨an, h, han, hs, hscan⟩ := Code.exists_analysis_of_below hr.tiles hr.last_lt hr.withLocalSets.below
  refine ⟨an, h, han, hs, hscan, hr.withLocalSets.of_agree ?_ fun k x hx => ?_⟩
  · exact (FlowGraph.agree_of_bare hs.bare_eq).trans hscan.agree
  · rw [hscan.entry] at hx
    exact (hs.entry_iff k x).mp hx

end Routine.Ready

/-! ### What allocation looks up -/

theorem isValue_of_mem_uses {a : Arena} {is : List Instr} {x : OperandId} (hx : x ∈ (localSets a is).1) :
    a.isValue x = true := by
  induction is with
  | nil => simp [localSets] at hx
  | cons z is ih =>
    rw [mem_uses_cons] at hx
    rcases hx with hx | ⟨hx, -⟩
    · exact (Instr.mem_reads.mp hx).2
    · exact ih hx

theorem Code.isValue_of_needs {c : Code} {g : FlowGraph} {x : OperandId} {k : Nat}
    (h : (c.withLocalSets g).Needs x k) : c.operands.isValue x = true := by
  induction h with
  | use hk hx =>
    rw [block?_withLocalSets, Option.map_eq_some_iff] at hk
    obtain ⟨b, -, rfl⟩ := hk
    exact isValue_of_mem_uses hx
  | through _ _ _ _ ih => exact ih

theorem Routine.Ready.isValue_of_mem_liveOut {c d : Code} {r : Routine} (hr : r.Ready c) {h f : FlowGraph}
    (hs : FlowGraph.Solved (c.withLocalSets r.flow) h) (hscan : Scanned c h (List.range h.size) d f)
    {i : Nat} {z : Instr}
    (hf : r.first ≤ i) (hl : i ≤ r.last) (hz : d.instrs[i]? = some z) {x : OperandId} (hx : x ∈ z.liveOut) :
    c.operands.isValue x = true := by
  obtain ⟨k, b, hk, hbi, hib⟩ := hr.tiles.cover hf hl
  rw [FlowGraph.blocks_getElem?] at hk
  obtain ⟨e, he, -⟩ := Code.solved_block hs hk
  rw [Code.liveOut_eq hs hscan hk he hbi hib hz, Code.liveAfter, Scan.mem_live_run, hs.liveOut_iff k e he] at hx
  rcases hx with hx | ⟨⟨l, -, hx⟩, -⟩
  · exact isValue_of_mem_uses hx
  · exact Code.isValue_of_needs hx

theorem Routine.Ready.isValue_of_occurs {c d : Code} {r : Routine} (hr : r.Ready c) {h f : FlowGraph}
    (hs : FlowGraph.Solved (c.withLocalSets r.flow) h) (hscan : Scanned c h (List.range h.size) d f) {k i : Nat}
    {b : Block} {z : Instr} (hk : f.block? k = some b) (hbi : b.first ≤ i) (hib : i ≤ b.last)
    (hz : d.instrs[i]? = some z) {x : OperandId}
    (hx : z.writes? d.operands = some x ∨ x ∈ z.reads d.operands ∨ x ∈ z.liveOut) :
    c.operands.isValue x = true := by
  have hagree : (c.withLocalSets r.flow).Agree f := (FlowGraph.agree_of_bare hs.bare_eq).trans hscan.agree
  have hb : r.first ≤ b.first ∧ b.first ≤ b.last ∧ b.last ≤ r.last :=
    (hagree.tiles hr.withLocalSets.tiles).bounds ((FlowGraph.blocks_getElem? f k).trans hk)
  rw [hscan.alike.operands] at hx
  rcases hx with hx | hx | hx
  · exact (Instr.writes?_eq_some.mp hx).2
  · exact (Instr.mem_reads.mp hx).2
  · exact hr.isValue_of_mem_liveOut hs hscan (by omega) (by omega) hz hx

theorem Routine.Ready.isValue_of_mem_order {c d : Code} {r : Routine} (hr : r.Ready c) {h f : FlowGraph}
    (hs : FlowGraph.Solved (c.withLocalSets r.flow) h) (hscan : Scanned c h (List.range h.size) d f) {x : OperandId}
    (hx : x ∈ (d.interference f).order) : c.operands.isValue x = true := by
  obtain ⟨k, b, i, z, hk, hbi, hib, hz, hx⟩ := (Code.mem_order d f x).mp hx
  exact hr.isValue_of_occurs hs hscan hk hbi hib hz hx

theorem Interference.like_of_color {g : Interference} {registers : List Register} {a : Arena} {t : Coloring}
    (h : g.color registers a = .ok t) : a.Like t.operands := by
  rw [color_eq, Except.ok.injEq] at h
  exact h ▸ (amends_turns (P := fun _ => True) (s := { operands := a }) fun _ _ => trivial).like

theorem Routine.place_like (conv : Convention) (r : Routine) (an : Analysis) :
    an.code.operands.Like (r.place conv an).code.operands := by
  have hpin : ∀ (a : Arena) (z : Instr), a.Amends (fun _ => True) (conv.pinAll a z) := by
    intro a z
    refine (Arena.amends_foldl fun b _ x _ => ?_).trans (Convention.amends_spillParam fun _ _ _ => trivial)
    exact Arena.amends_modify conv.notes_pinOperand (Or.inl trivial)
  have hpins : an.code.operands.Amends (fun _ => True)
      ((an.code.slice r.first r.last).foldl conv.pinAll an.code.operands) :=
    Arena.amends_foldl fun b _ z _ => hpin b z
  have hprepare : an.code.operands.Amends (fun _ => True) (r.prepare conv an) :=
    hpins.trans (Arena.amends_foldl fun b _ z _ => Convention.amends_restrictInstr fun _ _ => trivial)
  exact hprepare.like.trans (Interference.like_of_color (Interference.color_eq _ _ _))

theorem Routine.Ready.inRange {c : Code} {r : Routine} (hr : r.Ready c) (hc : c.Closed) {an : Analysis} {h : FlowGraph}
    (hs : FlowGraph.Solved (c.withLocalSets r.flow) h) (hscan : Scanned c h (List.range h.size) an.code an.flow)
    (hready : Ready c { r with flow := an.flow }) {conv : Convention} (hwide : c.Widens (r.place conv an).code)
    (hcount : (r.place conv an).code.operands.size = c.operands.size) : (r.place conv an).stored.InRange := by
  have hbank : (r.place conv an).stored.code.bank.size = c.operands.size := (Arena.size_bank _).trans hcount
  have hsize : ∀ {x}, c.operands.isValue x = true → x < (r.place conv an).stored.code.bank.size :=
    fun hx => hbank ▸ Arena.lt_size_of_isValue hx
  refine ⟨⟨hr.first_le, hwide.size ▸ hr.last_lt⟩,
    fun k b hk => hready.tiles.bounds ((FlowGraph.blocks_getElem? an.flow k).trans hk), hready.edges,
    fun z hz x hx => ?_, fun x hx => hsize (hr.isValue_of_mem_order hs hscan hx), fun x y hxy => ?_,
    fun y cell hcell => Arena.location_bank hcell⟩
  · obtain ⟨i, hf, hl, hz⟩ := (Code.mem_slice _ _ _ _).mp hz
    rcases hx with hx | hx
    · rw [hbank, ← hcount]
      exact hwide.closed hc i z hz x hx
    · exact hsize (hr.isValue_of_mem_liveOut hs hscan hf hl hz hx)
  · obtain ⟨k, b, i, z, hk, hbi, hib, hz, -, hclash⟩ := (an.code.interferes_iff an.flow x y).mp hxy
    refine hsize (hr.isValue_of_occurs hs hscan hk hbi hib hz ?_)
    rcases hclash with ⟨-, -, hy⟩ | ⟨-, hy⟩ | ⟨hy, -⟩
    · exact Or.inr (Or.inr hy)
    · exact Or.inr (Or.inr hy)
    · exact Or.inl hy

/-- Allocation of a ready function succeeds, finds everything it looks up, and leaves the function ready. -/
theorem Routine.Ready.allocate {c : Code} {r : Routine} (hr : r.Ready c) (hc : c.Closed) (conv : Convention) :
    ∃ al : Allocation, r.allocateStored conv c.stored = .ok al.stored ∧ c.Widens al.code ∧ al.routine.Ready al.code ∧
      al.stored.InRange ∧ al.code.operands.size = c.operands.size := by
  obtain ⟨an, h, han, hs, hscan, hready⟩ := hr.analyze
  have hlike : c.operands.Like (r.place conv an).code.operands := by
    rw [← hscan.alike.operands]
    exact r.place_like conv an
  have hwide : c.Widens (r.place conv an).code := ⟨.of_like hlike, hscan.alike.like.instrs⟩
  have hcount : (r.place conv an).code.operands.size = c.operands.size :=
    Nat.le_antisymm (Arena.Extends.of_like hlike.symm).size_le (Arena.Extends.of_like hlike).size_le
  have hrange := hr.inRange hc hs hscan hready hwide hcount
  exact ⟨r.place conv an, allocateStored_eq han hrange hcount hscan.alike.operands, hwide,
    (hready.of_widens hc hwide).withNotes _ _, hrange, hcount⟩

theorem Interference.like_of_colorBank {g : Interference} {registers : List Register} {a : Arena} {t : StoredColoring}
    (h : g.colorBank registers a.bank = .ok t) : ∃ b : Arena, b.bank = t.bank ∧ a.Like b := by
  refine foldlM_preserves (P := fun s : StoredColoring => ∃ b : Arena, b.bank = s.bank ∧ a.Like b) ?_ h ⟨a, rfl, .refl a⟩
  rintro ⟨_, choices⟩ x t - ⟨b, rfl, hlike⟩ hstep
  obtain ⟨resolved, -, hstep⟩ := Except.bind_eq_ok.mp hstep
  split at hstep
  case isTrue =>
    cases hstep
    exact ⟨b, rfl, hlike⟩
  case isFalse =>
    obtain ⟨held, -, hstep⟩ := Except.bind_eq_ok.mp hstep
    obtain ⟨cell, -, hstep⟩ := Except.bind_eq_ok.mp hstep
    split at hstep
    case h_1 reg _ =>
      obtain ⟨d, hd, hstep⟩ := Except.bind_eq_ok.mp hstep
      cases hstep
      obtain ⟨b', hb', rfl⟩ := Bank.Request.exists_of_serve (e := .assign x reg) hd
      exact ⟨b', rfl, hlike.trans (Arena.locates_assign hb').like⟩
    case h_2 =>
      obtain ⟨d, hd, hstep⟩ := Except.bind_eq_ok.mp hstep
      cases hstep
      obtain ⟨b', hb', rfl⟩ := Bank.Request.exists_of_serve (e := .spill x) hd
      cases hb'
      exact ⟨_, rfl, hlike.trans (Arena.locates_spill b x).like⟩

/-! ### Sessions -/

/-- A table at work and the functions that were cut from it. -/
structure Session where
  code : StoredCode
  routines : List Routine

/-- One piece of work: something is asked of the operands, the table is cut into functions, or a phase is run on one of
them; and it succeeds. -/
inductive Session.Step (s : Session) : Session → Prop
  | request (e : Bank.Request) {b : Bank} (h : e.serve s.code.bank = .ok b) :
      Step s { s with code := { s.code with bank := b } }
  | build (symbols : SymbolTable) {rs : List Routine} (h : s.code.outline.routines symbols = .ok rs) :
      Step s { s with routines := s.routines ++ rs }
  | analyze {k : Nat} {r : Routine} (hr : s.routines[k]? = some r) {an : Analysis}
      (h : s.code.outline.analyze r.flow = .ok an) :
      Step s ⟨{ s.code with instrs := an.code.instrs }, s.routines.set k { r with flow := an.flow }⟩
  | solve {k : Nat} {r : Routine} (hr : s.routines[k]? = some r) {n : Nat} {f : FlowGraph}
      (h : r.flow.solve = some (n, f)) : Step s { s with routines := s.routines.set k { r with flow := f } }
  | interference {k : Nat} {r : Routine} (hr : s.routines[k]? = some r) :
      Step s { s with routines := s.routines.set k { r with interference := s.code.outline.interference r.flow } }
  | color {k : Nat} {r : Routine} (hr : s.routines[k]? = some r) {registers : List Register} {t : StoredColoring}
      (h : r.interference.colorBank registers s.code.bank = .ok t) :
      Step s ⟨{ s.code with bank := t.bank }, s.routines.set k { r with spilled := t.spilled }⟩
  | allocate {k : Nat} {r : Routine} (hr : s.routines[k]? = some r) {conv : Convention} {al : StoredAllocation}
      (h : r.allocateStored conv s.code = .ok al) : Step s ⟨al.code, s.routines.set k al.routine⟩

/-- The session works on code `c`, as it is stored; the code is sound, and its functions are ready for allocation. -/
structure Session.Sound (c : Code) (s : Session) : Prop where
  stored : s.code = c.stored
  numbered : c.Numbered
  closed : c.Closed
  ready : ∀ r ∈ s.routines, r.Ready c

namespace Session

variable {c d : Code} {s t : Session}

theorem Sound.widens (hs : s.Sound c) (h : c.Widens d) : Sound d { s with code := d.stored } :=
  ⟨rfl, h.numbered hs.numbered, h.closed hs.closed, fun r hr => (hs.ready r hr).of_widens hs.closed h⟩

theorem Sound.set (hs : s.Sound c) {r : Routine} (hr : r.Ready c) (k : Nat) :
    Sound c { s with routines := s.routines.set k r } := by
  refine ⟨hs.stored, hs.numbered, hs.closed, fun q hq => ?_⟩
  rcases List.mem_or_eq_of_mem_set hq with hq | rfl
  · exact hs.ready q hq
  · exact hr

theorem Sound.step (hs : s.Sound c) (h : s.Step t) : ∃ d, t.Sound d := by
  obtain ⟨code, routines⟩ := s
  obtain rfl : code = c.stored := hs.stored
  have hready : ∀ {k : Nat} {r : Routine}, routines[k]? = some r → r.Ready c :=
    fun hr => hs.ready _ (List.mem_of_getElem? hr)
  cases h with
  | request e h =>
    obtain ⟨a, ha, rfl⟩ := Bank.Request.exists_of_serve h
    exact ⟨{ c with operands := a }, hs.widens ⟨.of_serve ha, fun _ => rfl⟩⟩
  | build symbols h =>
    refine ⟨c, rfl, hs.numbered, hs.closed, fun r hr => ?_⟩
    rcases List.mem_append.mp hr with hr | hr
    · exact hs.ready r hr
    · rw [Code.outline_stored] at h
      exact Code.routines_ready (c := c.unplaced) hs.numbered h c.operands r hr
  | @analyze k r hr an h =>
    obtain ⟨an', f, han, -, hscan, hflow⟩ := (hready hr).analyze
    rw [Code.outline_stored, Code.analyze_unplaced, han] at h
    cases h
    have hwide : c.Widens an'.code := .of_like hscan.alike.like
    have hcode : an'.code.stored = { c.stored with instrs := an'.code.instrs } := by
      rw [Code.stored, hscan.alike.operands]
      rfl
    exact ⟨an'.code, hcode ▸ (hs.widens hwide).set (hflow.of_widens hs.closed hwide) k⟩
  | @solve k r hr n f h => exact ⟨c, hs.set ((hready hr).solve h) k⟩
  | @interference k r hr => exact ⟨c, hs.set ((hready hr).withNotes _ _) k⟩
  | @color k r hr registers t h =>
    obtain ⟨a, ha, hlike⟩ := Interference.like_of_colorBank h
    have hwide : c.Widens { c with operands := a } := ⟨.of_like hlike, fun _ => rfl⟩
    refine ⟨{ c with operands := a }, ?_⟩
    rw [← ha]
    exact (hs.widens hwide).set (((hready hr).of_widens hs.closed hwide).withNotes _ _) k
  | @allocate k r hr conv al h =>
    obtain ⟨al', hal, hwide, hflow, -⟩ := (hready hr).allocate hs.closed conv
    obtain rfl : al'.stored = al := Except.ok.inj (hal.symm.trans h)
    exact ⟨al'.code, (hs.widens hwide).set hflow k⟩

theorem Sound.run (hs : s.Sound c) (h : Relation.ReflTransGen Step s t) : ∃ d, t.Sound d := by
  induction h with
  | refl => exact ⟨c, hs⟩
  | tail _ hstep ih =>
    obtain ⟨d, hd⟩ := ih
    exact hd.step hstep

end Session

/-- Allocation never fails. It can be run on any function that was cut from the table, in the middle of any work on
the table, its operands and its functions: whatever it looks up is there, no register is given to an operand in the
frame, and no operand is found in two places or left in two. -/
theorem allocation_never_fails (c : StoredCode) (hb : c.bank.Reachable) (hc : c.outline.Numbered)
    (hids : c.outline.Closed) (s : Session) (hs : Relation.ReflTransGen Session.Step ⟨c, []⟩ s) (r : Routine)
    (hr : r ∈ s.routines) (conv : Convention) :
    ∃ al, r.allocateStored conv s.code = .ok al ∧ al.InRange ∧ al.code.bank.size = s.code.bank.size := by
  obtain ⟨instrs, bank⟩ := c
  obtain ⟨a, rfl⟩ := hb.exists_arena
  have hclosed : Code.Closed ⟨instrs, a⟩ := fun i z hz x hx => by
    have hx := hids i z hz x hx
    rwa [StoredCode.outline, Arena.outline_bank, Arena.size_unplaced] at hx
  have hstart : Session.Sound ⟨instrs, a⟩ ⟨⟨instrs, a.bank⟩, []⟩ := ⟨rfl, hc, hclosed, by simp⟩
  obtain ⟨d, hsound⟩ := hstart.run hs
  obtain ⟨al, hal, -, -, hrange, hsize⟩ := (hsound.ready r hr).allocate hsound.closed conv
  rw [hsound.stored]
  refine ⟨al.stored, hal, hrange, ?_⟩
  exact (Arena.size_bank _).trans (hsize.trans (Arena.size_bank _).symm)

def millRequests : List Bank.Request :=
  [.symbol 0 { name := "f", kind := .function, ty := .function [] .int },
    .symbol 1 { name := "u", kind := .localVar, ty := .int },
    .symbol 2 { name := "v", kind := .localVar, ty := .int },
    .label ⟨0⟩,
    .symbol 3 { name := "g", kind := .function, ty := .function [.int] .int }]

/-- A loop with a call and a division. -/
def mill : StoredCode where
  instrs := #[
    { id := 0, op := .header, result := some 0 },
    { id := 1, op := .label, left := some 3 },
    { id := 2, op := .call, result := some 2, left := some 4, args := [1] },
    { id := 3, op := .binary (.arith .div), result := some 1, left := some 1, right := some 2 },
    { id := 4, op := .branch, left := some 1, right := some 3 },
    { id := 5, op := .ret, left := some 2 }]
  bank := .after millRequests

def millSymbols : SymbolTable where
  symbols := #[
    { name := "f", kind := .function, ty := .function [] .int },
    { name := "u", kind := .localVar, ty := .int },
    { name := "v", kind := .localVar, ty := .int },
    { name := "g", kind := .function, ty := .function [.int] .int }]

def millRoutine : Routine where
  symbol := 0
  first := 0
  last := 5
  flow := (FlowGraph.build mill.outline "f" 0 5).toOption.getD {}

/-- The function is allocated for one target, a value of it is put in the frame, and then it is allocated for
another target. -/
theorem mill_is_allocated_twice : mill.bank.Reachable ∧ mill.outline.Numbered ∧ mill.outline.Closed ∧
    mill.outline.routines millSymbols = .ok [millRoutine] ∧
    ∃ al, millRoutine.allocateStored Convention.SysV.convention mill = .ok al ∧ al.InRange ∧
      ∃ b, al.code.bank.spill 2 = .ok b ∧
        ∃ al', al.routine.allocateStored Convention.Aapcs64.convention { al.code with bank := b } = .ok al' ∧
          al'.InRange := by
  have hreachable : mill.bank.Reachable := ⟨millRequests, rfl⟩
  have hall : ∀ i < 6, (mill.outline.instrs[i]?).all
      (fun z => z.id = i ∧ ∀ x ∈ z.mentions, x < mill.outline.operands.size) := by
    decide +kernel
  have hinstr : ∀ {i : Nat} {z : Instr}, mill.outline.instrs[i]? = some z →
      z.id = i ∧ ∀ x ∈ z.mentions, x < mill.outline.operands.size := by
    intro i z hz
    simpa [hz] using hall i (Array.getElem?_eq_some_iff.mp hz).1
  have hnumbered : mill.outline.Numbered := fun i z hz => (hinstr hz).1
  have hclosed : mill.outline.Closed := fun i z hz => (hinstr hz).2
  have hrs : mill.outline.routines millSymbols = .ok [millRoutine] := by decide +kernel
  refine ⟨hreachable, hnumbered, hclosed, hrs, ?_⟩
  have hbuilt : Relation.ReflTransGen Session.Step ⟨mill, []⟩ ⟨mill, [millRoutine]⟩ := .single (.build millSymbols hrs)
  obtain ⟨al, hal, hrange, hsize⟩ := allocation_never_fails mill hreachable hnumbered hclosed _ hbuilt millRoutine
    List.mem_cons_self Convention.SysV.convention
  have hallocated : Relation.ReflTransGen Session.Step ⟨mill, []⟩ ⟨al.code, [al.routine]⟩ :=
    hbuilt.tail (.allocate (k := 0) rfl hal)
  obtain ⟨cell, hcell⟩ := Bank.exists_of_lt_size (b := al.code.bank) (y := 2) (by rw [hsize]; decide)
  have hspill : al.code.bank.spill 2 = .ok { al.code.bank with cells := al.code.bank.cells.setIfInBounds 2 cell.spill } := by
    rw [Bank.spill, Bank.update, Bank.fetch_of_get? hcell]
    rfl
  have hspilled := hallocated.tail (.request (.spill 2) hspill)
  obtain ⟨al', hal', hrange', -⟩ := allocation_never_fails mill hreachable hnumbered hclosed _ hspilled al.routine
    List.mem_cons_self Convention.Aapcs64.convention
  exact ⟨al, hal, hrange, _, hspill, al', hal', hrange'⟩

end MiddleEnd
