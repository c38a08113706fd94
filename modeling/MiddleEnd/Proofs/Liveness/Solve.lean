import MiddleEnd.Proofs.Liveness.Passes
import Mathlib.Logic.Function.Iterate

/-! Passes from sets that claim too little settle on the least solution: after as many passes as there
are blocks the sets on entry are right, after one more the sets on exit are, and the next pass shows it. -/

namespace MiddleEnd.FlowGraph

/-- The live sets of `g` are what the paths of `ref` need. -/
structure Solved (ref g : FlowGraph) : Prop where
  bare_eq : g.bare = ref.bare
  entry_iff : ∀ k x, x ∈ g.entry k ↔ ref.Needs x k
  liveOut_iff : ∀ k b, g.block? k = some b → ∀ x, x ∈ b.liveOut ↔ ∃ l ∈ ref.succ k, ref.Needs x l

theorem mem_outOf_of_entry {ref g : FlowGraph} (hb : g.bare = ref.bare)
    (h : ∀ k x, x ∈ g.entry k ↔ ref.Needs x k) (k : Nat) (x : OperandId) :
    x ∈ g.outOf k ↔ ∃ l ∈ ref.succ k, ref.Needs x l := by
  rw [mem_outOf, succ_of_bare hb]
  simp only [h]

theorem solved_pass {ref g : FlowGraph} (hb : g.bare = ref.bare) (hlow : Below ref g)
    (hhigh : Above ref ref.size g) : Solved ref g.pass := by
  have hright : ∀ ks : List Nat, ∀ k x, x ∈ (ks.foldr (fun k g => g.flowBlock k) g).entry k ↔ ref.Needs x k :=
    fun ks k x => ⟨hlow.foldr hb ks k x, fun h => (hhigh.foldr hb ks).1 k x h.within_size⟩
  refine ⟨(bare_pass g).trans hb, hright _, ?_⟩
  have hout : ∀ ks : List Nat, ∀ k ∈ ks, ∀ b, (ks.foldr (fun k g => g.flowBlock k) g).block? k = some b →
      ∀ x, x ∈ b.liveOut ↔ ∃ l ∈ ref.succ k, ref.Needs x l := by
    intro ks
    induction ks with
    | nil => simp
    | cons j ks ih =>
      intro k hk b hblock x
      rw [List.foldr_cons, block?_flowBlock] at hblock
      split at hblock
      case isTrue he =>
        subst he
        obtain ⟨d, -, rfl⟩ := Option.map_eq_some_iff.mp hblock
        exact mem_outOf_of_entry ((bare_foldr ks g).trans hb) (hright ks) j x
      case isFalse hne =>
        exact ih k ((List.mem_cons.mp hk).resolve_left (Ne.symm hne)) b hblock x
  intro k b hblock
  refine hout g.graph.ids k ?_ b hblock
  rw [Digraph.mem_ids]
  have := lt_size hblock
  rw [size_of_bare (bare_pass g)] at this
  exact this

theorem Solved.liveIn_iff {ref g : FlowGraph} (h : Solved ref g) {k : Nat} {b : Block} (hk : g.block? k = some b)
    (x : OperandId) : x ∈ b.liveIn ↔ ref.Needs x k := by
  rw [← entry_eq hk, h.entry_iff]

theorem Solved.unique {ref g h : FlowGraph} (hg : Solved ref g) (hh : Solved ref h) : g = h := by
  refine eq_of_mem_iff (hg.bare_eq.trans hh.bare_eq.symm) (fun k x => ?_) fun k b d hb hd x => ?_
  · rw [hg.entry_iff, hh.entry_iff]
  · rw [hg.liveOut_iff k b hb, hh.liveOut_iff k d hd]

theorem Solved.pass {ref g : FlowGraph} (h : Solved ref g) : g.pass = g := by
  refine (solved_pass h.bare_eq ?_ ?_).unique h
  · exact fun k x hx => (h.entry_iff k x).mp hx
  · exact fun k x hx => (h.entry_iff k x).mpr hx.needs

theorem iterate_pass {ref g : FlowGraph} (hb : g.bare = ref.bare) (h : Below ref g) (n : Nat) :
    (FlowGraph.pass^[n] g).bare = ref.bare ∧ Below ref (FlowGraph.pass^[n] g) ∧
      Above ref n (FlowGraph.pass^[n] g) := by
  induction n with
  | zero => exact ⟨hb, h, fun _ _ hx => hx.elim⟩
  | succ n ih =>
    obtain ⟨hb', hlow, hhigh⟩ := ih
    rw [Function.iterate_succ_apply']
    exact ⟨(bare_pass _).trans hb', hlow.pass hb', hhigh.pass hb'⟩

theorem settle_eq {m p : Nat} (fuel : Nat) {g : FlowGraph} (hm : (FlowGraph.pass^[m] g).pass = FlowGraph.pass^[m] g)
    (hf : m < fuel) : ∃ n, n ≤ m + 1 ∧ settle fuel p g = some (p + n, FlowGraph.pass^[m] g) := by
  induction m generalizing fuel p g with
  | zero =>
    obtain ⟨fuel, rfl⟩ : ∃ f, fuel = f + 1 := ⟨fuel - 1, by omega⟩
    refine ⟨1, by omega, ?_⟩
    simp only [Function.iterate_zero, id_eq] at hm ⊢
    rw [settle, if_pos (by rw [hm]), hm]
  | succ m ih =>
    obtain ⟨fuel, rfl⟩ : ∃ f, fuel = f + 1 := ⟨fuel - 1, by omega⟩
    by_cases hs : g.pass.liveSets = g.liveSets
    · have hg : g.pass = g := eq_of_bare_of_liveSets (bare_pass g) hs
      refine ⟨1, by omega, ?_⟩
      rw [settle, if_pos hs, hg, Function.iterate_fixed hg]
    · rw [Function.iterate_succ_apply] at hm ⊢
      obtain ⟨n, hn, he⟩ := ih (p := p + 1) fuel hm (by omega)
      refine ⟨n + 1, by omega, ?_⟩
      rw [settle, if_neg hs, he, show p + 1 + n = p + (n + 1) by omega]

/-- From sets below the least solution, solving ends with the least solution. -/
theorem solve_eq {g : FlowGraph} (h : Below g g) :
    ∃ n g', g.solve = some (n, g') ∧ n ≤ g.size + 2 ∧ Solved g g' := by
  obtain ⟨hb, hlow, hhigh⟩ := iterate_pass rfl h g.size
  have hsolved : Solved g (FlowGraph.pass^[g.size + 1] g) := by
    rw [Function.iterate_succ_apply']
    exact solved_pass hb hlow hhigh
  have hpow : g.size < 2 ^ g.size := Nat.lt_two_pow_self
  obtain ⟨n, hn, he⟩ := settle_eq (p := 0) (Nat.pow 2 g.size + 2) hsolved.pass
    (show g.size + 1 < 2 ^ g.size + 2 by omega)
  exact ⟨n, _, by rw [solve, he, Nat.zero_add], hn, hsolved⟩

end MiddleEnd.FlowGraph
