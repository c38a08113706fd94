import MiddleEnd.Proofs.Liveness.Least
import MiddleEnd.Proofs.Liveness.Settling

/-! What solving ends with, wherever it starts. While a pass is on, a block that had its turn may get out of step
with a successor that has its turn later; but a pass that changes nothing has seen every block in step with all of
its successors. So the live sets at the end solve the dataflow equations, even where they are not the least ones
that do. -/

namespace MiddleEnd.FlowGraph

/-- The passes from `g` end with the `n`-th one, the first that changes nothing, and leave `g'`. -/
inductive EndsIn : FlowGraph → Nat → FlowGraph → Prop
  | last {g : FlowGraph} (h : g.pass.liveSets = g.liveSets) : EndsIn g 1 g.pass
  | more {g g' : FlowGraph} {n : Nat} (h : g.pass.liveSets ≠ g.liveSets) (hrest : EndsIn g.pass n g') :
      EndsIn g (n + 1) g'

namespace EndsIn

variable {g g' h : FlowGraph} {m n : Nat}

theorem unique (hg : g.EndsIn n g') (hh : g.EndsIn m h) : n = m ∧ g' = h := by
  induction hg generalizing m with
  | last hs =>
    cases hh with
    | last => exact ⟨rfl, rfl⟩
    | more hne => exact absurd hs hne
  | more hne _ ih =>
    cases hh with
    | last hs => exact absurd hs hne
    | more _ hrest =>
      obtain ⟨rfl, rfl⟩ := ih hrest
      exact ⟨rfl, rfl⟩

theorem settles (hg : g.EndsIn n g') : g.Settles := by
  induction hg with
  | last hs => exact ⟨0, hs⟩
  | more _ _ ih =>
    obtain ⟨k, hk⟩ := ih
    exact ⟨k + 1, hk⟩

theorem bare_eq (hg : g.EndsIn n g') : g'.bare = g.bare := by
  induction hg with
  | last => exact bare_pass _
  | more _ _ ih => exact ih.trans (bare_pass _)

theorem pass_eq (hg : g.EndsIn n g') : g'.pass = g' := by
  induction hg with
  | last hs =>
    have hpass := eq_of_bare_of_liveSets (bare_pass _) hs
    rw [hpass, hpass]
  | more _ _ ih => exact ih

end EndsIn

theorem endsIn_of_settle {fuel p m : Nat} {g g' : FlowGraph} (h : settle fuel p g = some (m, g')) :
    ∃ n, m = p + n ∧ g.EndsIn n g' := by
  induction fuel generalizing p g with
  | zero => cases h
  | succ fuel ih =>
    rw [settle] at h
    split at h
    case isTrue hs =>
      obtain ⟨rfl, rfl⟩ : p + 1 = m ∧ g.pass = g' := by simpa using h
      exact ⟨1, rfl, .last hs⟩
    case isFalse hne =>
      obtain ⟨n, rfl, hrest⟩ := ih h
      exact ⟨n + 1, by omega, .more hne hrest⟩

theorem solve_eq_some_iff {g g' : FlowGraph} {n : Nat} : g.solve = some (n, g') ↔ g.EndsIn n g' := by
  constructor
  · intro h
    obtain ⟨m, rfl, hends⟩ := endsIn_of_settle h
    rwa [Nat.zero_add]
  · intro h
    obtain ⟨⟨m, f⟩, hsolve⟩ := Option.isSome_iff_exists.mp ((solve_isSome_iff g).mpr h.settles)
    obtain ⟨k, rfl, hends⟩ := endsIn_of_settle hsolve
    obtain ⟨rfl, rfl⟩ := h.unique hends
    rw [hsolve, Nat.zero_add]

theorem block_of_fixed {g : FlowGraph} (hg : g.pass = g) {k : Nat} {b : Block} (hk : g.block? k = some b) :
    (∀ x, x ∈ b.liveOut ↔ ∃ l ∈ g.succ k, x ∈ g.entry l) ∧ b.liveIn = b.uses ∪ (b.liveOut \ b.defs) := by
  obtain ⟨out, hblock, hout⟩ := block?_pass hk
  rw [hg] at hblock hout
  have hb := Option.some.inj (hk.symm.trans hblock)
  obtain ⟨hin, rfl⟩ : b.liveIn = b.uses ∪ (out \ b.defs) ∧ b.liveOut = out :=
    ⟨congrArg Block.liveIn hb, congrArg Block.liveOut hb⟩
  simp only [ite_self] at hout
  exact ⟨hout, hin⟩

/-- What the blocks claim to be live on entry and on exit. -/
def flow (g : FlowGraph) : Flow := fun k => ((g.entry k).toSet, ((g.block? k).elim ∅ (·.liveOut)).toSet)

theorem solves_of_fixed {g : FlowGraph} (hg : g.pass = g) : g.Solves g.flow := by
  intro k b hk
  obtain ⟨hout, hin⟩ := block_of_fixed hg hk
  have hentry : (g.flow k).1 = b.liveIn.toSet := by rw [flow, entry_eq hk]
  have hexit : (g.flow k).2 = b.liveOut.toSet := by rw [flow, hk, Option.elim_some]
  rw [hentry, hexit]
  constructor
  · ext x
    simp only [LiveSet.mem_toSet, hout, flow, Set.mem_iUnion, exists_prop]
  · ext x
    rw [LiveSet.mem_toSet, hin, Std.ExtTreeSet.mem_union_iff, Std.ExtTreeSet.mem_diff_iff]
    rfl

/-- What solving returns is a stable solution. Solving returns exactly when the passes come to an end, however many
they are, and then, whatever the live sets were at the start, the live sets of all blocks together solve the dataflow
equations, everything else in the graph is as before, and solving once more takes one pass and changes nothing. -/
theorem solve_returns_stable_solution (g g' : FlowGraph) (n : Nat) :
    (g.solve = some (n, g') ↔ g.EndsIn n g') ∧
      (g.solve = some (n, g') → g'.Solves g'.flow ∧ g'.bare = g.bare ∧ g'.solve = some (1, g')) := by
  refine ⟨solve_eq_some_iff, fun h => ?_⟩
  have hends := solve_eq_some_iff.mp h
  have hfixed := hends.pass_eq
  refine ⟨solves_of_fixed hfixed, hends.bare_eq, solve_eq_some_iff.mpr ?_⟩
  have hlast : g'.EndsIn 1 g'.pass := .last (by rw [hfixed])
  rwa [hfixed] at hlast

/-- Three blocks, the last two of which are a loop. One of these claims a value that no block uses, and the other one
is wrong about what is live on exit. -/
def eddy : FlowGraph where
  graph := (Digraph.ofVals [{ first := 0, last := 0, defs := {0} }, { first := 1, last := 1, uses := {1}, liveIn := {5} },
    { first := 2, last := 2, uses := {0}, defs := {1}, liveOut := {7} }]).linkAll [(0, 1), (1, 2), (2, 1)]

/-- The idle claim goes round in the loop for good, and the equations hold with it. -/
theorem eddy_is_stable : ∃ g', eddy.solve = some (3, g') ∧ g'.Solves g'.flow ∧ g'.bare = eddy.bare ∧
    g'.solve = some (1, g') ∧ 5 ∈ g'.entry 2 ∧ ∀ b ∈ eddy.blocks, 5 ∉ b.uses := by
  have hrun : eddy.solve.any (fun r => r.1 = 3 ∧ 5 ∈ r.2.entry 2) = true := by decide +kernel
  obtain ⟨⟨n, g'⟩, hsolve, hr⟩ := (Option.any_eq_true _ _).mp hrun
  obtain ⟨rfl, hmem⟩ := of_decide_eq_true hr
  obtain ⟨-, hstable⟩ := solve_returns_stable_solution eddy g' 3
  obtain ⟨hsolves, hbare, hagain⟩ := hstable hsolve
  exact ⟨g', hsolve, hsolves, hbare, hagain, hmem, by decide +kernel⟩

end MiddleEnd.FlowGraph
