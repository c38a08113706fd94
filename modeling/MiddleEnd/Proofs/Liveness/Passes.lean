import MiddleEnd.Liveness
import MiddleEnd.Proofs.Code
import MiddleEnd.Proofs.Digraph
import Mathlib.Data.Finset.Card

/-! What one pass over a flow graph does. It changes the live sets of the blocks and nothing else, never
claims a value that no path needs, and goes one block further along every path that needs one. -/

namespace MiddleEnd

/-- A block without its live sets. -/
def Block.bare (b : Block) : Block := { b with liveIn := ∅, liveOut := ∅ }

namespace FlowGraph

/-- A flow graph without its live sets: all of it that a pass keeps. -/
def bare (g : FlowGraph) : FlowGraph := { g with graph := g.graph.map Block.bare }

/-- What is live on entry to a block. -/
def entry (g : FlowGraph) (k : Nat) : LiveSet := (g.block? k).elim ∅ (·.liveIn)

theorem entry_eq {g : FlowGraph} {k : Nat} {b : Block} (h : g.block? k = some b) : g.entry k = b.liveIn := by
  simp [entry, h]

theorem block?_bare (g : FlowGraph) (k : Nat) : g.bare.block? k = (g.block? k).map Block.bare :=
  Digraph.get?_map g.graph Block.bare k

theorem succ_bare (g : FlowGraph) (k : Nat) : g.bare.succ k = g.succ k :=
  Digraph.succ_map g.graph Block.bare k

theorem size_bare (g : FlowGraph) : g.bare.size = g.size := Digraph.size_map g.graph Block.bare

theorem lt_size {g : FlowGraph} {k : Nat} {b : Block} (h : g.block? k = some b) : k < g.size :=
  Digraph.lt_size_of_get? h

theorem exists_block {g : FlowGraph} {k : Nat} (h : k < g.size) : ∃ b, g.block? k = some b :=
  Option.isSome_iff_exists.mp ((Digraph.get?_isSome_iff g.graph k).mpr h)

theorem mem_outOf (g : FlowGraph) (k : Nat) (x : OperandId) :
    x ∈ g.outOf k ↔ ∃ l ∈ g.succ k, x ∈ g.entry l := by
  unfold outOf
  have key : ∀ (ls : List Nat) (s : LiveSet),
      x ∈ ls.foldl (fun live s => live ∪ (g.block? s).elim ∅ (·.liveIn)) s ↔
        x ∈ s ∨ ∃ l ∈ ls, x ∈ g.entry l := by
    intro ls
    induction ls with
    | nil => simp
    | cons l ls ih =>
      intro s
      rw [List.foldl_cons, ih, Std.ExtTreeSet.mem_union_iff]
      simp only [List.mem_cons, exists_eq_or_imp, or_assoc]
      rfl
  rw [key]
  simp

section FlowBlock

variable (g : FlowGraph) (k : Nat)

theorem block?_flowBlock (j : Nat) : (g.flowBlock k).block? j =
    if k = j then (g.block? j).map fun b =>
      { b with liveIn := b.uses ∪ (g.outOf k \ b.defs), liveOut := g.outOf k }
    else g.block? j :=
  Digraph.get?_modify g.graph k _ j

theorem bare_flowBlock : (g.flowBlock k).bare = g.bare := by
  simp only [bare, flowBlock, modify, Digraph.map, Digraph.modify, FlowGraph.mk.injEq, Digraph.mk.injEq,
    and_true]
  apply Array.ext_getElem?
  intro j
  simp only [Array.getElem?_map, Array.getElem?_modify]
  split <;> cases g.graph.nodes[j]? <;> rfl

theorem mem_entry_flowBlock (j : Nat) (x : OperandId) : x ∈ (g.flowBlock k).entry j ↔
    if k = j then ∃ b, g.block? j = some b ∧ (x ∈ b.uses ∨ (x ∈ g.outOf j ∧ x ∉ b.defs)) else x ∈ g.entry j := by
  unfold entry
  rw [block?_flowBlock]
  by_cases hk : k = j
  · subst hk
    cases g.block? k <;> simp
  · simp [hk]

end FlowBlock

theorem bare_foldr (ks : List Nat) (g : FlowGraph) : (ks.foldr (fun k g => g.flowBlock k) g).bare = g.bare := by
  induction ks with
  | nil => rfl
  | cons k ks ih => rw [List.foldr_cons, bare_flowBlock, ih]

theorem bare_pass (g : FlowGraph) : g.pass.bare = g.bare := bare_foldr _ g

theorem eq_of_bare_of_liveSets {g h : FlowGraph} (hb : g.bare = h.bare) (hl : g.liveSets = h.liveSets) : g = h := by
  obtain ⟨⟨gn⟩, gh⟩ := g
  obtain ⟨⟨hn⟩, hh⟩ := h
  simp only [bare, Digraph.map, FlowGraph.mk.injEq, Digraph.mk.injEq] at hb ⊢
  refine ⟨Array.ext_getElem? fun j => ?_, hb.2⟩
  have h1 := congrArg (fun ns => ns[j]?) hb.1
  have h2 := congrArg (fun ls => ls[j]?) hl
  simp only [liveSets, blocks, Digraph.vals, List.getElem?_map, Array.getElem?_map, Array.getElem?_toList] at h1 h2
  cases hg : gn[j]? with
  | none => cases hn' : hn[j]? <;> simp_all
  | some n =>
    cases hn' : hn[j]? with
    | none => simp_all
    | some m =>
      obtain ⟨ni, nv, ns, np⟩ := n
      obtain ⟨mi, mv, ms, mp⟩ := m
      obtain ⟨nf, nl, nu, nd, nin, nout, nn⟩ := nv
      obtain ⟨mf, ml, mu, md, min, mout, mm⟩ := mv
      simp_all [Block.bare]

/-- Some path from block `k` on reads `x` before anything writes it. -/
inductive Needs (g : FlowGraph) (x : OperandId) : Nat → Prop
  | use {k : Nat} {b : Block} (hk : g.block? k = some b) (hx : x ∈ b.uses) : Needs g x k
  | through {k l : Nat} {b : Block} (hk : g.block? k = some b) (hx : x ∉ b.defs) (hl : l ∈ g.succ k)
      (h : Needs g x l) : Needs g x k

/-- Such a path of `n` blocks at most. -/
def NeedsWithin (g : FlowGraph) (x : OperandId) : Nat → Nat → Prop
  | 0, _ => False
  | n + 1, k => ∃ b, g.block? k = some b ∧
      (x ∈ b.uses ∨ (x ∉ b.defs ∧ ∃ l ∈ g.succ k, NeedsWithin g x n l))

theorem NeedsWithin.needs {g : FlowGraph} {x : OperandId} {n k : Nat} (h : g.NeedsWithin x n k) : g.Needs x k := by
  induction n generalizing k with
  | zero => cases h
  | succ n ih =>
    obtain ⟨b, hb, hx | ⟨hx, l, hl, h⟩⟩ := h
    · exact .use hb hx
    · exact .through hb hx hl (ih h)

theorem NeedsWithin.succ {g : FlowGraph} {x : OperandId} {n k : Nat} (h : g.NeedsWithin x n k) :
    g.NeedsWithin x (n + 1) k := by
  induction n generalizing k with
  | zero => cases h
  | succ n ih =>
    obtain ⟨b, hb, hx | ⟨hx, l, hl, h⟩⟩ := h
    · exact ⟨b, hb, Or.inl hx⟩
    · exact ⟨b, hb, Or.inr ⟨hx, l, hl, ih h⟩⟩

theorem NeedsWithin.mono {g : FlowGraph} {x : OperandId} {m n k : Nat} (hmn : m ≤ n) (h : g.NeedsWithin x m k) :
    g.NeedsWithin x n k := by
  induction hmn with
  | refl => exact h
  | step _ ih => exact ih.succ

theorem Needs.within {g : FlowGraph} {x : OperandId} {k : Nat} (h : g.Needs x k) : ∃ n, g.NeedsWithin x n k := by
  induction h with
  | use hk hx => exact ⟨1, _, hk, Or.inl hx⟩
  | through hk hx hl _ ih =>
    obtain ⟨n, hn⟩ := ih
    exact ⟨n + 1, _, hk, Or.inr ⟨hx, _, hl, hn⟩⟩

theorem Needs.lt_size {g : FlowGraph} {x : OperandId} {k : Nat} (h : g.Needs x k) : k < g.size := by
  cases h with
  | use hk => exact FlowGraph.lt_size hk
  | through hk => exact FlowGraph.lt_size hk

theorem needsWithin_stable {g : FlowGraph} {x : OperandId} {n : Nat}
    (hn : ∀ k, g.NeedsWithin x (n + 1) k → g.NeedsWithin x n k) (m k : Nat) (h : g.NeedsWithin x m k) :
    g.NeedsWithin x n k := by
  induction m generalizing k with
  | zero => cases h
  | succ m ih =>
    obtain ⟨b, hb, hx | ⟨hx, l, hl, h⟩⟩ := h
    · exact hn k ⟨b, hb, Or.inl hx⟩
    · exact hn k ⟨b, hb, Or.inr ⟨hx, l, hl, ih l h⟩⟩

/-- A path of as many blocks as there are is long enough: each longer one that is needed reaches a
block that no shorter one reaches. -/
theorem Needs.within_size {g : FlowGraph} {x : OperandId} {k : Nat} (h : g.Needs x k) :
    g.NeedsWithin x g.size k := by
  classical
  let reached (n : Nat) : Finset Nat := (Finset.range g.size).filter (g.NeedsWithin x n)
  have hmem : ∀ n k, k ∈ reached n ↔ g.NeedsWithin x n k := by
    intro n k
    simp only [reached, Finset.mem_filter, Finset.mem_range, and_iff_right_iff_imp]
    exact fun hk => hk.needs.lt_size
  have hcard : ∀ n, (∃ m < n, ∀ k, g.NeedsWithin x (m + 1) k → g.NeedsWithin x m k) ∨ n ≤ (reached n).card := by
    intro n
    induction n with
    | zero => exact Or.inr (Nat.zero_le _)
    | succ n ih =>
      rcases ih with ⟨m, hm, hs⟩ | hn
      · exact Or.inl ⟨m, by omega, hs⟩
      · by_cases hs : ∀ k, g.NeedsWithin x (n + 1) k → g.NeedsWithin x n k
        · exact Or.inl ⟨n, by omega, hs⟩
        · push Not at hs
          obtain ⟨j, hj, hnj⟩ := hs
          have hss : reached n ⊂ reached (n + 1) := by
            refine Finset.ssubset_iff_of_subset ?_ |>.mpr ⟨j, (hmem _ _).mpr hj, fun h => hnj ((hmem _ _).mp h)⟩
            intro i hi
            exact (hmem _ _).mpr ((hmem _ _).mp hi).succ
          have := Finset.card_lt_card hss
          exact Or.inr (by omega)
  obtain ⟨n, hn⟩ := h.within
  rcases hcard (g.size + 1) with ⟨m, hm, hs⟩ | hbig
  · exact (needsWithin_stable hs n k hn).mono (by omega)
  · have : (reached (g.size + 1)).card ≤ g.size := by
      simpa using Finset.card_le_card (Finset.filter_subset (g.NeedsWithin x (g.size + 1)) (Finset.range g.size))
    omega

theorem block?_of_bare {g h : FlowGraph} (hb : g.bare = h.bare) {k : Nat} {b : Block} (hk : g.block? k = some b) :
    ∃ d, h.block? k = some d ∧ d.first = b.first ∧ d.last = b.last ∧ d.uses = b.uses ∧ d.defs = b.defs := by
  have := block?_bare g k
  rw [hb, block?_bare, hk, Option.map_some, Option.map_eq_some_iff] at this
  obtain ⟨d, hd, he⟩ := this
  simp only [Block.bare, Block.mk.injEq] at he
  exact ⟨d, hd, he.1, he.2.1, he.2.2.1, he.2.2.2.1⟩

theorem succ_of_bare {g h : FlowGraph} (hb : g.bare = h.bare) (k : Nat) : g.succ k = h.succ k := by
  rw [← succ_bare, hb, succ_bare]

theorem size_of_bare {g h : FlowGraph} (hb : g.bare = h.bare) : g.size = h.size := by
  rw [← size_bare, hb, size_bare]

theorem eq_of_mem_iff {g h : FlowGraph} (hb : g.bare = h.bare) (hin : ∀ k x, x ∈ g.entry k ↔ x ∈ h.entry k)
    (hout : ∀ k b d, g.block? k = some b → h.block? k = some d → ∀ x, x ∈ b.liveOut ↔ x ∈ d.liveOut) : g = h := by
  refine eq_of_bare_of_liveSets hb (List.ext_getElem? fun k => ?_)
  simp only [liveSets, blocks, List.getElem?_map, Digraph.vals_getElem?]
  change (g.block? k).map _ = (h.block? k).map _
  cases hk : g.block? k with
  | none =>
    cases hk' : h.block? k with
    | none => rfl
    | some d =>
      obtain ⟨b, hb, -⟩ := block?_of_bare hb.symm hk'
      rw [hk] at hb
      cases hb
  | some b =>
    obtain ⟨d, hd, -⟩ := block?_of_bare hb hk
    have hliveIn : b.liveIn = d.liveIn := by
      ext x
      rw [← entry_eq hk, hin, entry_eq hd]
    have hliveOut : b.liveOut = d.liveOut := by
      ext x
      exact hout k b d hk hd x
    rw [hd, Option.map_some, Option.map_some, hliveIn, hliveOut]

/-- Nothing is live in `g` that no path of `ref` needs. -/
def Below (ref g : FlowGraph) : Prop := ∀ k x, x ∈ g.entry k → ref.Needs x k

/-- Everything that a path of `n` blocks of `ref` needs is live in `g`. -/
def Above (ref : FlowGraph) (n : Nat) (g : FlowGraph) : Prop := ∀ k x, ref.NeedsWithin x n k → x ∈ g.entry k

theorem Below.flowBlock {ref g : FlowGraph} (hb : g.bare = ref.bare) (h : Below ref g) (k : Nat) :
    Below ref (g.flowBlock k) := by
  intro j x hx
  rw [mem_entry_flowBlock] at hx
  split at hx
  case isTrue =>
    obtain ⟨b, hk, hx⟩ := hx
    obtain ⟨d, hd, -, -, hu, hdef⟩ := block?_of_bare hb hk
    rcases hx with hx | ⟨hx, hnd⟩
    · exact .use hd (hu ▸ hx)
    · obtain ⟨l, hl, hx⟩ := (mem_outOf g j x).mp hx
      exact .through hd (hdef ▸ hnd) (succ_of_bare hb j ▸ hl) (h l x hx)
  case isFalse => exact h j x hx

theorem Below.foldr {ref g : FlowGraph} (hb : g.bare = ref.bare) (h : Below ref g) (ks : List Nat) :
    Below ref (ks.foldr (fun k g => g.flowBlock k) g) := by
  induction ks with
  | nil => exact h
  | cons k ks ih => exact ih.flowBlock ((bare_foldr ks g).trans hb) k

/-- While a pass is on, every block holds what paths of `n` blocks need, and those it has been at hold
what paths of one block more need. -/
theorem Above.foldr {ref g : FlowGraph} {n : Nat} (hb : g.bare = ref.bare) (h : Above ref n g) (ks : List Nat) :
    Above ref n (ks.foldr (fun k g => g.flowBlock k) g) ∧
      ∀ k ∈ ks, ∀ x, ref.NeedsWithin x (n + 1) k → x ∈ (ks.foldr (fun k g => g.flowBlock k) g).entry k := by
  induction ks with
  | nil => exact ⟨h, by simp⟩
  | cons j ks ih =>
    obtain ⟨ih1, ih2⟩ := ih
    set g' := ks.foldr (fun k g => g.flowBlock k) g
    have hb' : g'.bare = ref.bare := (bare_foldr ks g).trans hb
    rw [List.foldr_cons]
    have hj : ∀ x, ref.NeedsWithin x (n + 1) j → x ∈ (g'.flowBlock j).entry j := by
      rintro x ⟨b, hk, hx⟩
      obtain ⟨d, hd, -, -, hu, hdef⟩ := block?_of_bare hb'.symm hk
      rw [mem_entry_flowBlock, if_pos rfl]
      refine ⟨d, hd, ?_⟩
      rcases hx with hx | ⟨hx, l, hl, hx'⟩
      · exact Or.inl (hu ▸ hx)
      · exact Or.inr ⟨(mem_outOf g' j x).mpr ⟨l, succ_of_bare hb' j ▸ hl, ih1 l x hx'⟩, hdef ▸ hx⟩
    have hother : ∀ k, j ≠ k → ∀ x, x ∈ (g'.flowBlock j).entry k ↔ x ∈ g'.entry k := by
      intro k hk x
      rw [mem_entry_flowBlock, if_neg hk]
    constructor
    · intro k x hx
      by_cases hk : j = k
      · subst hk
        exact hj x hx.succ
      · exact (hother k hk x).mpr (ih1 k x hx)
    · intro k hmem x hx
      by_cases hk : j = k
      · subst hk
        exact hj x hx
      · have : k ∈ ks := (List.mem_cons.mp hmem).resolve_left (Ne.symm hk)
        exact (hother k hk x).mpr (ih2 k this x hx)

theorem Below.pass {ref g : FlowGraph} (hb : g.bare = ref.bare) (h : Below ref g) : Below ref g.pass :=
  h.foldr hb _

theorem Above.pass {ref g : FlowGraph} {n : Nat} (hb : g.bare = ref.bare) (h : Above ref n g) :
    Above ref (n + 1) g.pass := by
  intro k x hx
  refine (h.foldr hb g.graph.ids).2 k ?_ x hx
  rw [Digraph.mem_ids]
  have := hx.needs.lt_size
  rw [← size_of_bare hb] at this
  exact this

end FlowGraph

end MiddleEnd
