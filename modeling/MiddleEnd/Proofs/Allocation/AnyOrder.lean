import MiddleEnd.Proofs.Allocation.Footprint
import MiddleEnd.Proofs.Liveness.NextUse
import Mathlib.Data.Set.Functor

/-! Allocation with sets that have no order. Every step that goes over the elements of a set is done again here with
the elements in any order, a new one each time; a program then has a set of outcomes. It is always the one outcome of
the program that goes in ascending order: each step either sorts what it lists, or does things that commute, or asks
of the elements only which they are. -/

namespace MiddleEnd

namespace AnyOrder

variable {α β : Type}

/-! ### Choosing an order -/

/-- The elements of a list in any order. -/
def shuffle (l : List α) : SetM (List α) := ({l' | l'.Perm l} : Set (List α))

/-- The elements of a set in any order. -/
def enumerate (s : LiveSet) : SetM (List OperandId) := shuffle s.toList

-- both orders of a set of two
example : [1, 2] ∈ (enumerate {1, 2}).run ∧ [2, 1] ∈ (enumerate {1, 2}).run := by
  change List.Perm _ _ ∧ List.Perm _ _
  decide

theorem shuffle_bind {l : List α} {f : List α → SetM β} {b : β} (h : ∀ l', l'.Perm l → f l' = pure b) :
    shuffle l >>= f = pure b := by
  have hiff : ∀ x, x ∈ (⋃ l' ∈ {l' : List α | l'.Perm l}, (f l').run) ↔ x ∈ ({b} : Set β) := by
    intro x
    simp only [Set.mem_iUnion, exists_prop]
    constructor
    · rintro ⟨l', hl', hx⟩
      rw [h l' hl'] at hx
      exact hx
    · intro hx
      refine ⟨l, List.Perm.refl l, ?_⟩
      rw [h l (List.Perm.refl l)]
      exact hx
  exact Set.ext hiff

theorem enumerate_bind {s : LiveSet} {f : List OperandId → SetM β} {b : β}
    (h : ∀ l, l.Perm s.toList → f l = pure b) : enumerate s >>= f = pure b := shuffle_bind h

theorem foldl_perm {σ : Type} {f : σ → α → σ} (hf : ∀ s x y, f (f s x) y = f (f s y) x) {l l' : List α}
    (h : l'.Perm l) (s : σ) : l'.foldl f s = l.foldl f s := h.foldl_eq' (fun x _ y _ s => hf s x y) s

theorem mem_of_perm_toList {s : LiveSet} {l : List OperandId} (h : l.Perm s.toList) {x : OperandId} :
    x ∈ l ↔ x ∈ s := by rw [h.mem_iff, Std.ExtTreeSet.mem_toList]

/-! ### Liveness -/

def outOf (g : FlowGraph) (id : Nat) : SetM LiveSet :=
  (g.succ id).foldlM (fun live s => do
    return live.insertMany (← enumerate ((g.block? s).elim ∅ (·.liveIn)))) ∅

theorem outOf_eq (g : FlowGraph) (id : Nat) : outOf g id = pure (g.outOf id) := by
  have hstep : (fun (live : LiveSet) (s : Nat) => do
      return live.insertMany (← enumerate ((g.block? s).elim ∅ (·.liveIn)))) =
        fun live s => (pure (live ∪ (g.block? s).elim ∅ (·.liveIn)) : SetM LiveSet) := by
    funext live s
    refine enumerate_bind fun l hl => congrArg pure ?_
    ext x
    rw [LiveSet.mem_insertMany_iff, Std.ExtTreeSet.mem_union_iff, mem_of_perm_toList hl]
  rw [outOf, hstep, List.foldlM_pure, FlowGraph.outOf]

def flowBlock (id : Nat) (g : FlowGraph) : SetM FlowGraph := do
  let out ← outOf g id
  let kept ← enumerate out
  let used ← enumerate ((g.block? id).elim ∅ (·.uses))
  return g.modify id fun b =>
    { b with liveIn := ((∅ : LiveSet).insertMany (kept.filter (· ∉ b.defs))).insertMany used, liveOut := out }

theorem flowBlock_eq (id : Nat) (g : FlowGraph) : flowBlock id g = pure (g.flowBlock id) := by
  rw [flowBlock, outOf_eq, pure_bind]
  refine enumerate_bind fun kept hkept => enumerate_bind fun used hused => congrArg pure ?_
  refine congrArg (fun d => { g with graph := d }) (Digraph.modify_congr fun b hb => ?_)
  have hb : g.block? id = some b := hb
  rw [hb, Option.elim_some] at hused
  congr 1
  ext x
  simp only [LiveSet.mem_insertMany_iff, List.mem_filter, decide_eq_true_eq, mem_of_perm_toList hkept,
    mem_of_perm_toList hused, Std.ExtTreeSet.mem_union_iff, Std.ExtTreeSet.mem_diff_iff, Std.ExtTreeSet.not_mem_empty,
    false_or]
  exact or_comm

def pass (g : FlowGraph) : SetM FlowGraph := g.graph.ids.foldrM flowBlock g

theorem pass_eq (g : FlowGraph) : pass g = pure g.pass := by
  rw [pass, show flowBlock = fun id g => pure (g.flowBlock id) from funext₂ flowBlock_eq, List.foldrM_pure,
    FlowGraph.pass]

def settle : Nat → Nat → FlowGraph → SetM (Option (Nat × FlowGraph))
  | 0, _, _ => return none
  | fuel + 1, passes, g => do
    let next ← pass g
    if next.liveSets = g.liveSets then return some (passes + 1, next) else settle fuel (passes + 1) next

theorem settle_eq (fuel passes : Nat) (g : FlowGraph) : settle fuel passes g = pure (FlowGraph.settle fuel passes g) := by
  induction fuel generalizing passes g with
  | zero => rfl
  | succ fuel ih =>
    rw [settle, pass_eq, pure_bind, FlowGraph.settle, ih]
    split <;> rfl

def solve (g : FlowGraph) : SetM (Option (Nat × FlowGraph)) := settle (Nat.pow 2 g.size + 2) 0 g

theorem solve_eq (g : FlowGraph) : solve g = pure g.solve := settle_eq _ _ g

def scan (a : Arena) (first : Nat) (is : List Instr) (liveOut : LiveSet) : SetM Scan := do
  let live ← enumerate liveOut
  let start : Scan := { live := liveOut, nextUse := .ofList (live.map fun x => (x, UseInfo.mk true none)) }
  return (is.zipIdx first).foldr (fun i s => s.step a i.1 i.2) start

theorem scan_eq (a : Arena) (first : Nat) (is : List Instr) (liveOut : LiveSet) :
    scan a first is liveOut = pure (Scan.run a first is liveOut) := by
  refine enumerate_bind fun live hlive => congrArg pure ?_
  have hstart : (Std.ExtTreeMap.ofList (live.map fun x => (x, UseInfo.mk true none)) : NextUse) =
      .ofList (liveOut.toList.map fun x => (x, UseInfo.mk true none)) := by
    refine Std.ExtTreeMap.ext_getElem? fun x => ?_
    rw [Std.ExtTreeMap.ofList_eq_insertMany_empty, Std.ExtTreeMap.ofList_eq_insertMany_empty,
      NextUse.getElem?_insertMany_map, NextUse.getElem?_insertMany_map]
    simp only [hlive.mem_iff]
  rw [hstart]
  rfl

/-! ### Faults -/

/-- A step that no order has a part in. -/
def sure (x : Except Fault α) : ExceptT Fault SetM α := ExceptT.mk (pure x)

theorem sure_ok (a : α) : sure (.ok a) = pure a := rfl

theorem sure_error (e : Fault) : sure (.error e : Except Fault α) = throw e := rfl

theorem sure_bind {x : Except Fault α} {f : α → ExceptT Fault SetM β} {h : α → Except Fault β}
    (hf : ∀ a, f a = sure (h a)) : sure x >>= f = sure (x >>= h) := by
  cases x with
  | error e => exact congrArg ExceptT.mk (pure_bind (.error e) (ExceptT.bindCont f))
  | ok a =>
    rw [sure_ok, pure_bind]
    exact hf a

theorem foldlM_sure {σ : Type} (f : σ → α → Except Fault σ) (l : List α) (s : σ) :
    l.foldlM (fun s x => sure (f s x)) s = sure (l.foldlM f s) := by
  induction l generalizing s with
  | nil => rfl
  | cons x l ih =>
    rw [List.foldlM_cons, List.foldlM_cons]
    exact sure_bind ih

def annotate (s : Code × FlowGraph) (id : Nat) : ExceptT Fault SetM (Code × FlowGraph) :=
  match s.2.block? id with
  | none => return s
  | some b => do
    let scan ← scan s.1.operands b.first (s.1.slice b.first b.last) b.liveOut
    if scan.live = b.liveIn then
      return (s.1.setLiveOuts b.first scan.liveOuts, s.2.modify id fun b => { b with nextUse := scan.nextUse })
    else throw .liveInMismatch

theorem annotate_eq (s : Code × FlowGraph) (id : Nat) : annotate s id = sure (Code.annotate s id) := by
  unfold annotate Code.annotate
  cases s.2.block? id with
  | none => rfl
  | some b =>
    dsimp only
    rw [scan_eq, liftM_pure, pure_bind]
    split
    · rw [sure_ok]
    · rw [sure_error]

def analyze (c : Code) (g : FlowGraph) : ExceptT Fault SetM Analysis :=
  if !g.blocks.all c.holds then throw .outOfTable
  else do
    match ← solve (c.withLocalSets g) with
    | none => throw .unsettled
    | some (passes, g) =>
      let (code, flow) ← g.graph.ids.foldlM annotate (c, g)
      return { passes, code, flow }

theorem analyze_eq (c : Code) (g : FlowGraph) : analyze c g = sure (c.analyze g) := by
  unfold analyze Code.analyze
  split
  · rw [sure_error]
  · rw [solve_eq, liftM_pure, pure_bind]
    cases (c.withLocalSets g).solve with
    | none => rw [sure_error]
    | some r =>
      obtain ⟨passes, h⟩ := r
      dsimp only
      rw [show annotate = fun s id => sure (Code.annotate s id) from funext₂ annotate_eq, foldlM_sure]
      exact sure_bind fun _ => rfl

/-! ### Interference -/

/-- The values that occur, those live after in ascending order. -/
def touched (a : Arena) (s : BlockInstr) : SetM (List OperandId) := do
  let live ← enumerate s.instr.liveOut
  return (s.instr.writes? a).toList ++ s.instr.reads a ++ live.mergeSort

theorem mergeSort_eq {s : LiveSet} {l : List OperandId} (h : l.Perm s.toList) : l.mergeSort = s.toList := by
  have hsorted : l.mergeSort.Pairwise (· ≤ ·) := by
    refine (List.pairwise_mergeSort ?_ ?_ l).imp of_decide_eq_true
    · intro x y z hxy hyz
      simp only [decide_eq_true_eq] at *
      exact Nat.le_trans hxy hyz
    · intro x y
      simp only [Bool.or_eq_true, decide_eq_true_eq]
      exact Nat.le_total x y
  have hlisted : s.toList.Pairwise (· ≤ ·) :=
    Std.ExtTreeSet.ordered_toList.imp fun hlt => Nat.le_of_lt (Nat.compare_eq_lt.mp hlt)
  exact ((List.mergeSort_perm l _).trans h).eq_of_pairwise (fun x y _ _ => Nat.le_antisymm) hsorted hlisted

theorem touched_eq (a : Arena) (s : BlockInstr) : touched a s = pure (s.touched a) := by
  refine enumerate_bind fun live hlive => congrArg pure ?_
  rw [mergeSort_eq hlive, BlockInstr.touched]

def bundle? (a : Arena) (s : BlockInstr) : SetM (Option Bundle) :=
  match s.instr.writes? a with
  | none => return none
  | some defined => do
    let live ← enumerate s.instr.liveOut
    return some
      { defined, block := s.block, instr := s.pos
        interferes := (∅ : LiveSet).insertMany (live.filter (· ≠ defined))
        feedsBranch := s.feedsBranch defined }

theorem bundle?_eq (a : Arena) (s : BlockInstr) : bundle? a s = pure (s.bundle? a) := by
  unfold bundle? BlockInstr.bundle?
  cases s.instr.writes? a with
  | none => rfl
  | some defined =>
    refine enumerate_bind fun live hlive => congrArg (pure ∘ some) ?_
    congr 1
    ext x
    simp only [LiveSet.mem_insertMany_iff, List.mem_filter, decide_eq_true_eq, mem_of_perm_toList hlive,
      Std.ExtTreeSet.not_mem_empty, false_or, LiveSet.mem_erase_iff]
    exact and_comm

/-- All pairs of elements of a list. -/
def pairs : List α → List (α × α)
  | [] => []
  | x :: rest => rest.map (x, ·) ++ pairs rest

/-- Makes the operands of each pair neighbours of each other. -/
def linkEach (adj : Adjacency) (ps : List (OperandId × OperandId)) : Adjacency :=
  ps.foldl (fun adj p => adj.link p.1 p.2) adj

theorem linkEach_cons (adj : Adjacency) (p : OperandId × OperandId) (ps : List (OperandId × OperandId)) :
    linkEach adj (p :: ps) = linkEach (adj.link p.1 p.2) ps := rfl

theorem linkEach_append (adj : Adjacency) (ps qs : List (OperandId × OperandId)) :
    linkEach adj (ps ++ qs) = linkEach (linkEach adj ps) qs := List.foldl_append

theorem getElem?_addEdge (adj : Adjacency) (a b x : OperandId) :
    (adj.addEdge a b)[x]? = if a = x then some ((adj.neighbors a).insert b) else adj[x]? := by
  rw [Adjacency.addEdge, Std.ExtTreeMap.getElem?_insert]
  simp only [Nat.compare_eq_eq]

theorem addEdge_comm (adj : Adjacency) (a b c d : OperandId) :
    (adj.addEdge a b).addEdge c d = (adj.addEdge c d).addEdge a b := by
  refine Std.ExtTreeMap.ext_getElem? fun x => ?_
  simp only [getElem?_addEdge]
  by_cases hac : a = c
  · -- the same operand gets two neighbours
    subst hac
    have hswap : ((adj.addEdge a b).neighbors a).insert d = ((adj.addEdge a d).neighbors a).insert b := by
      ext y
      simp only [LiveSet.mem_insert_iff, Adjacency.mem_addEdge]
      grind
    rw [hswap]
    split <;> rfl
  · have hkeep : ∀ {p q r : OperandId}, p ≠ q → (adj.addEdge p r).neighbors q = adj.neighbors q := by
      intro p q r hpq
      rw [Adjacency.addEdge, Adjacency.neighbors_insert, if_neg (Ne.symm hpq)]
    rw [hkeep hac, hkeep (Ne.symm hac)]
    split_ifs with hc ha
    · exact absurd (ha.trans hc.symm) hac
    all_goals rfl

theorem link_comm (adj : Adjacency) (a b c d : OperandId) : (adj.link a b).link c d = (adj.link c d).link a b := by
  unfold Adjacency.link
  rw [addEdge_comm (adj.addEdge a b) b a c d, addEdge_comm adj a b c d,
    addEdge_comm _ b a d c, addEdge_comm (adj.addEdge c d) a b d c]

theorem link_symm (adj : Adjacency) (a b : OperandId) : adj.link a b = adj.link b a := addEdge_comm adj a b b a

theorem linkEach_perm {ps qs : List (OperandId × OperandId)} (h : ps.Perm qs) (adj : Adjacency) :
    linkEach adj ps = linkEach adj qs := foldl_perm (fun adj p q => link_comm adj p.1 p.2 q.1 q.2) h adj

theorem linkAll_eq (adj : Adjacency) (x : OperandId) (l : List OperandId) :
    adj.linkAll x l = linkEach adj (l.map (x, ·)) := by
  rw [linkEach, List.foldl_map]
  rfl

theorem linkPairs_eq (adj : Adjacency) (l : List OperandId) : adj.linkPairs l = linkEach adj (pairs l) := by
  induction l generalizing adj with
  | nil => rfl
  | cons x l ih => rw [Adjacency.linkPairs, ih, linkAll_eq, pairs, linkEach_append]

theorem linkEach_pairs_perm {l l' : List OperandId} (h : l.Perm l') (adj : Adjacency) :
    linkEach adj (pairs l) = linkEach adj (pairs l') := by
  induction h generalizing adj with
  | nil => rfl
  | cons x hl ih =>
    rw [pairs, pairs, linkEach_append, linkEach_append, linkEach_perm (hl.map (x, ·)), ih]
  | swap x y l =>
    simp only [pairs, List.map_cons, List.cons_append, linkEach_cons, ← List.append_assoc]
    rw [link_symm adj y x]
    exact linkEach_perm (List.perm_append_comm.append_right _) _
  | trans _ _ ih₁ ih₂ => exact (ih₁ adj).trans (ih₂ adj)

def linkEntry (adj : Adjacency) (i : Instr) : SetM Adjacency :=
  if i.op = .header then do
    let live ← enumerate i.liveOut
    return linkEach adj (← shuffle (pairs live))
  else return adj

theorem linkEntry_eq (adj : Adjacency) (i : Instr) :
    linkEntry adj i = pure (if i.op = .header then adj.linkPairs i.liveOut.toList else adj) := by
  unfold linkEntry
  split
  · refine enumerate_bind fun live hlive => shuffle_bind fun ps hps => congrArg pure ?_
    rw [linkEach_perm hps, linkEach_pairs_perm hlive, linkPairs_eq]
  · rfl

def link (a : Arena) (adj : Adjacency) (s : BlockInstr) : SetM Adjacency := do
  let adj ← linkEntry adj s.instr
  match s.instr.writes? a with
  | none => return adj
  | some defined => return adj.linkAll defined (← enumerate (s.instr.liveOut.erase defined))

theorem link_eq (a : Arena) (adj : Adjacency) (s : BlockInstr) : link a adj s = pure (s.link a adj) := by
  rw [link, linkEntry_eq, pure_bind, BlockInstr.link]
  cases s.instr.writes? a with
  | none => rfl
  | some defined =>
    refine enumerate_bind fun others hothers => congrArg pure ?_
    rw [Option.elim_some, linkAll_eq, linkAll_eq, linkEach_perm (hothers.map (defined, ·))]

/-- The interference graph of the function with flow graph `g`. -/
def interference (c : Code) (g : FlowGraph) : SetM Interference := do
  let a := c.operands
  let instrs := c.blockInstrs g
  let bundles := (← instrs.mapM (bundle? a)).filterMap id
  let adjacency ← instrs.foldlM (link a) ∅
  let nodes := Interference.firstSeen (← instrs.mapM (touched a)).flatten
  return { bundles := bundles.toArray, definitions := Interference.indexBundles bundles, adjacency, nodes }

theorem interference_eq (c : Code) (g : FlowGraph) : interference c g = pure (c.interference g) := by
  rw [interference, show bundle? c.operands = fun s => pure (s.bundle? c.operands) from funext (bundle?_eq _),
    show link c.operands = fun adj s => pure (s.link c.operands adj) from funext₂ (link_eq _),
    show touched c.operands = fun s => pure (s.touched c.operands) from funext (touched_eq _)]
  simp only [List.mapM_pure, List.foldlM_pure, pure_bind, List.filterMap_map, ← List.flatMap_def]
  rfl

/-! ### Restriction and colouring -/

def restrictInstr (conv : Convention) (a : Arena) (i : Instr) : SetM Arena := do
  let live ← enumerate i.liveOut
  return a.restrictAll (conv.clobbers i.op) ((i.divisor? a).toList ++ live.filter (fun x => i.dest? ≠ some x))

theorem restrict_comm (a : Arena) (regs : List Register) (x y : OperandId) :
    (a.restrict x regs).restrict y regs = (a.restrict y regs).restrict x regs := by
  refine Arena.ext_get? rfl fun z => ?_
  simp only [Arena.restrict, Arena.get?_modify]
  split <;> split <;> rfl

theorem restrictAll_perm {l l' : List OperandId} (h : l.Perm l') (a : Arena) (regs : List Register) :
    a.restrictAll regs l = a.restrictAll regs l' := foldl_perm (fun a x y => restrict_comm a regs x y) h a

theorem exposed_perm {i : Instr} {l : List OperandId} (h : l.Perm i.liveOut.toList) :
    (l.filter (fun x => i.dest? ≠ some x)).Perm i.exposed.toList := by
  refine (List.perm_ext_iff_of_nodup ?_ i.exposed.nodup_toList).mpr fun x => ?_
  · exact (h.nodup_iff.mpr i.liveOut.nodup_toList).filter _
  · rw [List.mem_filter, decide_eq_true_eq, mem_of_perm_toList h, Std.ExtTreeSet.mem_toList, Instr.exposed]
    cases i.dest? with
    | none => simp
    | some d =>
      rw [Option.elim_some, LiveSet.mem_erase_iff, and_comm, ne_eq, Option.some.injEq, eq_comm]

theorem restrictInstr_eq (conv : Convention) (a : Arena) (i : Instr) :
    restrictInstr conv a i = pure (conv.restrictInstr a i) := by
  refine enumerate_bind fun live hlive => congrArg pure ?_
  exact restrictAll_perm ((exposed_perm hlive).append_left _) a _

def free? (g : Interference) (a : Arena) (registers : List Register) (x : OperandId) : SetM (Option Register) := do
  return firstFree? (a.held (← enumerate (g.neighbors x))) (a.restricted x) registers

theorem free?_eq (g : Interference) (a : Arena) (registers : List Register) (x : OperandId) :
    free? g a registers x = pure (g.free? a registers x) := by
  refine enumerate_bind fun l hl => congrArg pure ?_
  have hheld : (a.held l).Perm (a.held (g.neighbors x).toList) := hl.filterMap _
  rw [Interference.free?, firstFree?_eq_find?, firstFree?_eq_find?]
  simp only [hheld.mem_iff]

def colorOne (g : Interference) (registers : List Register) (s : Coloring) (x : OperandId) :
    ExceptT Fault SetM Coloring :=
  if s.operands.isResolved x then return s
  else do
    match ← free? g s.operands registers x with
    | some reg =>
      let operands ← sure (s.operands.assign x reg)
      return { operands, choices := s.choices ++ [(x, .register reg)] }
    | none => return { operands := s.operands.spill x, choices := s.choices ++ [(x, .frame)] }

theorem colorOne_eq (g : Interference) (registers : List Register) (s : Coloring) (x : OperandId) :
    colorOne g registers s x = sure (g.colorOne registers s x) := by
  unfold colorOne Interference.colorOne
  split
  · rw [sure_ok]
  · rw [free?_eq, liftM_pure, pure_bind]
    cases g.free? s.operands registers x with
    | none => rw [sure_ok]
    | some reg => exact sure_bind fun _ => rfl

def color (g : Interference) (registers : List Register) (a : Arena) : ExceptT Fault SetM Coloring :=
  g.order.foldlM (colorOne g registers) { operands := a }

theorem color_eq (g : Interference) (registers : List Register) (a : Arena) :
    color g registers a = sure (g.color registers a) := by
  rw [color, show colorOne g registers = fun s x => sure (g.colorOne registers s x) from
    funext₂ (colorOne_eq g registers), foldlM_sure, Interference.color]

/-! ### Allocation -/

/-- Allocates the function `r`. -/
def allocate (conv : Convention) (r : Routine) (c : Code) : ExceptT Fault SetM Allocation := do
  let analysis ← analyze c r.flow
  let graph ← interference analysis.code analysis.flow
  let is := analysis.code.slice r.first r.last
  let pinned ← sure (is.foldlM conv.pinInstr analysis.code.operands)
  let restricted ← (is.foldlM (restrictInstr conv) pinned : SetM Arena)
  let coloring ← color graph conv.registers restricted
  return {
    code := { analysis.code with operands := coloring.operands }
    routine := { r with flow := analysis.flow, interference := graph, spilled := coloring.spilled }
    passes := analysis.passes
    choices := coloring.choices }

theorem allocate_eq (conv : Convention) (r : Routine) (c : Code) : allocate conv r c = sure (r.allocate conv c) := by
  rw [allocate, analyze_eq]
  refine sure_bind fun analysis => ?_
  rw [interference_eq, liftM_pure, pure_bind]
  refine sure_bind fun pinned => ?_
  rw [show restrictInstr conv = fun a i => pure (conv.restrictInstr a i) from funext₂ (restrictInstr_eq conv),
    List.foldlM_pure, liftM_pure, pure_bind, color_eq]
  exact sure_bind fun coloring => rfl

/-- Results do not depend on the order in which sets are gone over. Whatever order the live sets, the neighbours and
the pairs of values live on entry are taken in, each time anew, the interference graph is the same, with its nodes
and bundles in the same order, and so is what allocation makes of a function: every location, every list of
restricted registers, every spilled value in its turn, or else the fault. -/
theorem results_do_not_depend_on_order (c : Code) (g : FlowGraph) (conv : Convention) (r : Routine) :
    (interference c g).run = {c.interference g} ∧ (allocate conv r c).run.run = {r.allocate conv c} := by
  rw [interference_eq, allocate_eq]
  exact ⟨rfl, rfl⟩

end AnyOrder

end MiddleEnd
