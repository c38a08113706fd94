import MiddleEnd.Proofs.Flow.ControlFlow

/-! Looking a position up among the blocks of a function. The search halves the range of blocks that may hold the
position, which finds it because the blocks stand in order; what it finds is what a scan of all the blocks finds. -/

namespace MiddleEnd

/-- Halving finds the end `stop` of the run on which `p` holds, if there is one run and it starts at `base`. -/
theorem searchEnd_eq {p : Nat → Bool} {base size stop : Nat} (hlo : base ≤ stop) (hhi : stop ≤ base + size)
    (hp : ∀ i, base ≤ i → i < base + size → (p i = true ↔ i < stop)) : searchEnd p base size = stop := by
  fun_induction searchEnd p base size with
  | case1 base size hsize hlast =>
    simp only [Bool.and_eq_true, decide_eq_true_eq] at hlast
    have := (hp base (Nat.le_refl _) (by omega)).mp hlast.2
    omega
  | case2 base size hsize hlast =>
    simp only [Bool.and_eq_true, decide_eq_true_eq, not_and] at hlast
    by_cases hone : size = 1
    · have := mt (hp base (Nat.le_refl _) (by omega)).mpr (hlast hone)
      omega
    · omega
  | case3 base size hsize mid ih =>
    -- the run ends behind `mid` or does not reach it; either half keeps its end
    have hmid := hp mid (by omega) (by omega)
    split at ih
    case isTrue hp' =>
      have := hmid.mp hp'
      rw [if_pos hp']
      exact ih (by omega) (by omega) fun i h1 h2 => hp i (by omega) (by omega)
    case isFalse hp' =>
      have := mt hmid.mpr hp'
      rw [if_neg hp']
      exact ih hlo (by omega) fun i h1 h2 => hp i h1 (by omega)

theorem Block.contains_iff (b : Block) (pos : Nat) : b.contains pos = true ↔ b.first ≤ pos ∧ pos ≤ b.last := by
  simp [contains]

namespace FlowGraph

variable {g : FlowGraph} {pos k : Nat}

theorem block_of_blockOf? (h : g.blockOf? pos = some k) :
    ∃ b, g.block? k = some b ∧ b.first ≤ pos ∧ pos ≤ b.last := by
  unfold blockOf? at h
  split at h
  case h_1 => cases h
  case h_2 id _ =>
    split at h
    case isTrue hany =>
      cases h
      obtain ⟨b, hb, hpos⟩ := (Option.any_eq_true _ _).mp hany
      exact ⟨b, hb, (b.contains_iff pos).mp hpos⟩
    case isFalse => cases h

section Tiled

variable {first last : Nat} (ht : Tiles last first g.blocks)
include ht

theorem exists_block_iff : (∃ i b, g.block? i = some b ∧ b.first ≤ pos ∧ pos ≤ b.last) ↔ first ≤ pos ∧ pos ≤ last := by
  constructor
  · rintro ⟨i, b, hb, h1, h2⟩
    have := ht.bounds ((blocks_getElem? g i).trans hb)
    omega
  · rintro ⟨hf, hl⟩
    obtain ⟨i, b, hb, h1, h2⟩ := ht.cover hf hl
    exact ⟨i, b, (blocks_getElem? g i).symm.trans hb, h1, h2⟩

theorem starts_le_iff {b : Block} (hk : g.block? k = some b) (h1 : b.first ≤ pos) (h2 : pos ≤ b.last) {i : Nat}
    (hi : i < g.size) : ((g.block? i).any (·.first ≤ pos)) = true ↔ i < k + 1 := by
  obtain ⟨d, hd⟩ : ∃ d, g.block? i = some d :=
    Option.isSome_iff_exists.mp ((Digraph.get?_isSome_iff g.graph i).mpr hi)
  rw [hd, Option.any_some, decide_eq_true_eq]
  rw [← blocks_getElem?] at hk hd
  have hdd := (ht.bounds hd).2.1
  rcases Nat.lt_trichotomy i k with hik | rfl | hki
  · have := ht.ordered hik hd hk
    omega
  · obtain rfl := Option.some.inj (hd.symm.trans hk)
    omega
  · have := ht.ordered hki hk hd
    omega

theorem blockOf?_eq_some_iff :
    g.blockOf? pos = some k ↔ ∃ b, g.block? k = some b ∧ b.first ≤ pos ∧ pos ≤ b.last := by
  refine ⟨block_of_blockOf?, ?_⟩
  rintro ⟨b, hk, h1, h2⟩
  have hsize : k < g.size := Digraph.lt_size_of_get? hk
  have hend : searchEnd (fun id => (g.block? id).any (·.first ≤ pos)) 0 g.size = k + 1 :=
    searchEnd_eq (Nat.zero_le _) (by omega) fun i _ hi => starts_le_iff ht hk h1 h2 (by omega)
  rw [blockOf?, hend]
  simp [hk, Block.contains, h1, h2]

theorem blockOf?_eq_none_iff : g.blockOf? pos = none ↔ pos < first ∨ last < pos := by
  have hsome : (∃ i, g.blockOf? pos = some i) ↔ first ≤ pos ∧ pos ≤ last := by
    rw [← exists_block_iff ht]
    exact exists_congr fun i => blockOf?_eq_some_iff ht
  rw [Option.eq_none_iff_forall_ne_some, ← not_exists, hsome]
  omega

theorem blockOf?_eq_findIdx? : g.blockOf? pos = g.blocks.findIdx? (·.contains pos) := by
  cases hs : g.blocks.findIdx? (·.contains pos) with
  | none =>
    rw [List.findIdx?_eq_none_iff] at hs
    rw [Option.eq_none_iff_forall_ne_some]
    intro i hi
    obtain ⟨b, hb, hpos⟩ := block_of_blockOf? hi
    have hnot := hs b (List.mem_of_getElem? ((blocks_getElem? g i).trans hb))
    rw [(b.contains_iff pos).mpr hpos] at hnot
    cases hnot
  | some i =>
    obtain ⟨hlt, hpos, -⟩ := List.findIdx?_eq_some_iff_getElem.mp hs
    refine (blockOf?_eq_some_iff ht).mpr ⟨_, ?_, (Block.contains_iff _ pos).mp hpos⟩
    rw [← blocks_getElem?]
    exact List.getElem?_eq_getElem hlt

end Tiled

end FlowGraph

/-- The search for the block of a position is exact. In every function of a table it finds a block exactly when that
block's range has the position, and none exactly when the position is outside the function; so it finds what a scan
of all the blocks finds. -/
theorem block_search_agrees_with_scan (symbols : SymbolTable) (c : Code) (hc : c.Numbered) (rs : List Routine)
    (hrs : c.routines symbols = .ok rs) (r : Routine) (hr : r ∈ rs) (pos : Nat) :
    (∀ k, r.flow.blockOf? pos = some k ↔ ∃ b, r.flow.block? k = some b ∧ b.first ≤ pos ∧ pos ≤ b.last) ∧
    (r.flow.blockOf? pos = none ↔ pos < r.first ∨ r.last < pos) ∧
    r.flow.blockOf? pos = r.flow.blocks.findIdx? (·.contains pos) := by
  have ht := (Code.routines_built hc hrs r hr).tiles
  exact ⟨fun k => FlowGraph.blockOf?_eq_some_iff ht, FlowGraph.blockOf?_eq_none_iff ht,
    FlowGraph.blockOf?_eq_findIdx? ht⟩

/-- The return of the first function is in the block of the jump behind it, its last position in the last block, and
the header of the second function in no block of the first. -/
theorem detour_block_search : detour.Numbered ∧ detour.routines detourSymbols = .ok detourRoutines ∧
    ∃ r ∈ detourRoutines, r.flow.blockOf? 3 = some 1 ∧ r.flow.blockOf? 9 = some 4 ∧ r.flow.blockOf? 10 = none := by
  have hrs : detour.routines detourSymbols = .ok detourRoutines := rfl
  have h := block_search_agrees_with_scan detourSymbols detour detour_numbered _ hrs _ List.mem_cons_self
  refine ⟨detour_numbered, hrs, _, List.mem_cons_self, ?_, ?_, (h 10).2.1.mpr (by decide)⟩
  · exact (h 3).2.2.trans (by decide +kernel)
  · exact (h 9).2.2.trans (by decide +kernel)

end MiddleEnd
