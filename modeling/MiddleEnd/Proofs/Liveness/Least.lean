import MiddleEnd.Proofs.Liveness.Solve
import Mathlib.Data.Set.Lattice
import Mathlib.Order.Bounds.Basic

/-! The dataflow equations and their least solution. Solving is in place, so that a pass mixes old sets with
new ones, but what it settles on is the least solution all the same: what some path needs. -/

namespace MiddleEnd

def LiveSet.toSet (s : LiveSet) : Set OperandId := {x | x ∈ s}

theorem LiveSet.mem_toSet {s : LiveSet} {x : OperandId} : x ∈ s.toSet ↔ x ∈ s := Iff.rfl

namespace FlowGraph

/-- What is live on entry to every block and on exit from it. -/
abbrev Flow := Nat → Set OperandId × Set OperandId

/-- The dataflow equations. On exit from a block is live what is live on entry to a successor, and on entry
what the block uses or does not define of what is live on exit. -/
def Solves (g : FlowGraph) (s : Flow) : Prop :=
  ∀ k b, g.block? k = some b →
    (s k).2 = ⋃ l ∈ g.succ k, (s l).1 ∧ (s k).1 = b.uses.toSet ∪ ((s k).2 \ b.defs.toSet)

/-- What the paths from a block on need, and the paths from its successors on. -/
def needed (g : FlowGraph) : Flow := fun k => ({x | g.Needs x k}, {x | ∃ l ∈ g.succ k, g.Needs x l})

theorem needs_iff {g : FlowGraph} {k : Nat} {b : Block} (hk : g.block? k = some b) (x : OperandId) :
    g.Needs x k ↔ x ∈ b.uses ∨ (x ∉ b.defs ∧ ∃ l ∈ g.succ k, g.Needs x l) := by
  constructor
  · intro h
    cases h with
    | use hk' hx =>
      cases hk.symm.trans hk'
      exact Or.inl hx
    | through hk' hx hl h =>
      cases hk.symm.trans hk'
      exact Or.inr ⟨hx, _, hl, h⟩
  · rintro (hx | ⟨hx, l, hl, h⟩)
    · exact .use hk hx
    · exact .through hk hx hl h

theorem needed_solves (g : FlowGraph) : g.Solves g.needed := by
  intro k b hk
  constructor
  · ext x
    simp [needed]
  · ext x
    simp only [needed, Set.mem_ofPred_eq, Set.mem_union, Set.mem_sdiff, LiveSet.mem_toSet, needs_iff hk, and_comm]

theorem Solves.mem_of_needs {g : FlowGraph} {s : Flow} (hs : g.Solves s) {x : OperandId} {k : Nat}
    (h : g.Needs x k) : x ∈ (s k).1 := by
  induction h with
  | use hk hx =>
    rw [(hs _ _ hk).2]
    exact Or.inl hx
  | through hk hx hl _ ih =>
    rw [(hs _ _ hk).2, (hs _ _ hk).1]
    exact Or.inr ⟨Set.mem_biUnion hl ih, hx⟩

theorem needed_isLeast (g : FlowGraph) : IsLeast {s | g.Solves s} g.needed := by
  refine ⟨g.needed_solves, fun s hs k => ⟨fun x hx => hs.mem_of_needs hx, ?_⟩⟩
  rintro x ⟨l, hl, hx⟩
  obtain ⟨b, hb⟩ := exists_block (Digraph.lt_size_of_mem_succ hl)
  rw [(hs k b hb).1]
  exact Set.mem_biUnion hl (hs.mem_of_needs hx)

/-- Solving computes the least solution. The dataflow equations of every flow graph have one, whatever its edges
and its uses and definitions are. Passes from live sets that claim no more on entry to a block, and anything
on exit, come to an end within two more than there are blocks, with this solution in every block and all else
as it was. -/
theorem solve_computes_least_solution (g : FlowGraph) :
    ∃ s : Flow, IsLeast {t | g.Solves t} s ∧
      ((∀ k b, g.block? k = some b → b.liveIn.toSet ⊆ (s k).1) →
        ∃ n g', g.solve = some (n, g') ∧ n ≤ g.size + 2 ∧ g'.bare = g.bare ∧
          ∀ k b, g'.block? k = some b → b.liveIn.toSet = (s k).1 ∧ b.liveOut.toSet = (s k).2) := by
  refine ⟨g.needed, g.needed_isLeast, fun hlow => ?_⟩
  have hbelow : Below g g := by
    intro k x hx
    cases hk : g.block? k with
    | none => simp [entry, hk] at hx
    | some b => exact hlow k b hk (entry_eq hk ▸ hx)
  obtain ⟨n, g', hsolve, hn, hsolved⟩ := solve_eq hbelow
  refine ⟨n, g', hsolve, hn, hsolved.bare_eq, fun k b hk => ⟨?_, ?_⟩⟩
  · ext x
    exact hsolved.liveIn_iff hk x
  · ext x
    exact hsolved.liveOut_iff k b hk x

/-- Three blocks, the last two of which are a loop. The live sets that they come with are stale: of the second
block too little is known on entry, and of the third one something wrong on exit. -/
def carousel : FlowGraph where
  graph.nodes := #[
    { id := 0, val := { first := 0, last := 0, defs := {0} }, succ := [1] },
    { id := 1, val := { first := 1, last := 1, uses := {1}, liveIn := {0} }, succ := [2], pred := [0, 2] },
    { id := 2, val := { first := 2, last := 2, uses := {0}, defs := {1}, liveOut := {7} }, succ := [1], pred := [1] }]

/-- The first block needs what the loop reads before it writes it, and nothing is left of the wrong claim. -/
theorem carousel_least_solution : ∃ s : Flow, IsLeast {t | carousel.Solves t} s ∧
    (∀ k b, carousel.block? k = some b → b.liveIn.toSet ⊆ (s k).1) ∧
    ∃ n g', carousel.solve = some (n, g') ∧ n ≤ 5 ∧ s 0 = ({1}, {0, 1}) ∧ s 2 = ({0}, {0, 1}) := by
  obtain ⟨s, hs, hsolve⟩ := solve_computes_least_solution carousel
  have hone : ∀ y : OperandId, ({y} : LiveSet).toSet = {y} := fun y => by ext x; simp [LiveSet.toSet, @eq_comm _ x]
  have htwo : ({0, 1} : LiveSet).toSet = {0, 1} := by ext x; simp [LiveSet.toSet, @eq_comm _ x]
  have hlow : ∀ k b, carousel.block? k = some b → b.liveIn.toSet ⊆ (s k).1 := by
    intro k b hk x hx
    match k, hk with
    | 0, hk => cases hk; exact absurd hx Std.ExtTreeSet.not_mem_empty
    | 1, hk =>
      -- the second block goes on to the third, which reads the operand
      cases hk
      obtain rfl : x = 0 := (hone 0).subset hx
      rw [(hs.1 1 _ rfl).2, (hs.1 1 _ rfl).1]
      refine Or.inr ⟨Set.mem_biUnion (List.mem_singleton.mpr rfl) ?_, Std.ExtTreeSet.not_mem_empty⟩
      rw [(hs.1 2 _ rfl).2]
      exact Or.inl hx
    | 2, hk => cases hk; exact absurd hx Std.ExtTreeSet.not_mem_empty
  obtain ⟨n, g', hg, hn, -, hsets⟩ := hsolve hlow
  have hrun : carousel.solve.any (fun r => decide ((r.2.block? 0).any (fun b =>
      decide (b.liveIn = {1} ∧ b.liveOut = {0, 1})) = true ∧
      (r.2.block? 2).any (fun b => decide (b.liveIn = {0} ∧ b.liveOut = {0, 1})) = true)) = true := by
    decide +kernel
  rw [hg, Option.any_some] at hrun
  obtain ⟨hfirst, hthird⟩ := of_decide_eq_true hrun
  obtain ⟨b, hb, hfirst⟩ := (Option.any_eq_true _ _).mp hfirst
  obtain ⟨d, hd, hthird⟩ := (Option.any_eq_true _ _).mp hthird
  obtain ⟨hbin, hbout⟩ := of_decide_eq_true hfirst
  obtain ⟨hdin, hdout⟩ := of_decide_eq_true hthird
  obtain ⟨hzero, hzero'⟩ := hsets 0 b hb
  obtain ⟨htwo₁, htwo₂⟩ := hsets 2 d hd
  rw [hbin, hone] at hzero
  rw [hbout, htwo] at hzero'
  rw [hdin, hone] at htwo₁
  rw [hdout, htwo] at htwo₂
  exact ⟨s, hs, hlow, n, g', hg, hn, Prod.ext hzero.symm hzero'.symm, Prod.ext htwo₁.symm htwo₂.symm⟩

end FlowGraph

end MiddleEnd
