import MiddleEnd.Proofs.Except
import MiddleEnd.Proofs.Flow.Tiling
import MiddleEnd.Proofs.Liveness.Passes
import MiddleEnd.Proofs.Liveness.Scan
import Mathlib.Data.List.Induction

/-! Noting the live-out sets of the instructions. Blocks that tile a function do not get into each
other's way, so every instruction ends up with the set that the scan of its own block found. -/

namespace MiddleEnd

/-- Two tables differ at most in the live-out sets of their instructions. -/
structure Code.Alike (c d : Code) : Prop where
  operands : d.operands = c.operands
  size : d.instrs.size = c.instrs.size
  instrs : ∀ (i : Nat) (x : Instr), c.instrs[i]? = some x → ∃ live, d.instrs[i]? = some { x with liveOut := live }

namespace Code

theorem Alike.refl (c : Code) : c.Alike c := ⟨rfl, rfl, fun _ x hx => ⟨x.liveOut, hx⟩⟩

theorem Alike.trans {c d e : Code} (h : c.Alike d) (k : d.Alike e) : c.Alike e := by
  refine ⟨k.operands.trans h.operands, k.size.trans h.size, fun i x hx => ?_⟩
  obtain ⟨live, hd⟩ := h.instrs i x hx
  obtain ⟨live', he⟩ := k.instrs i _ hd
  exact ⟨live', he⟩

theorem Alike.of_right {c d : Code} (h : c.Alike d) {i : Nat} {y : Instr} (hy : d.instrs[i]? = some y) :
    ∃ x, c.instrs[i]? = some x ∧ y = { x with liveOut := y.liveOut } := by
  have hlt : i < c.instrs.size := h.size ▸ (Array.getElem?_eq_some_iff.mp hy).1
  obtain ⟨live, hd⟩ := h.instrs i _ (Array.getElem?_eq_getElem hlt)
  rw [hy] at hd
  cases hd
  exact ⟨_, Array.getElem?_eq_getElem hlt, rfl⟩

theorem Alike.slice_map_bare {c d : Code} (h : c.Alike d) (first last : Nat) :
    (d.slice first last).map Instr.bare = (c.slice first last).map Instr.bare := by
  apply List.ext_getElem?
  intro k
  simp only [List.getElem?_map, slice_getElem?]
  split
  · cases hc : c.instrs[first + k]? with
    | none =>
      have hge : c.instrs.size ≤ first + k := by simpa using hc
      rw [Array.getElem?_eq_none (h.size ▸ hge)]
    | some x =>
      obtain ⟨live, hd⟩ := h.instrs _ x hc
      rw [hd]
      rfl
  · rfl

theorem Alike.scan {c d : Code} (h : c.Alike d) (pos first last : Nat) (out : LiveSet) :
    Scan.run d.operands pos (d.slice first last) out = Scan.run c.operands pos (c.slice first last) out := by
  rw [← Scan.run_map_bare, h.slice_map_bare, Scan.run_map_bare, h.operands]

theorem setLiveOuts_alike (c : Code) (first : Nat) (sets : List LiveSet) : c.Alike (c.setLiveOuts first sets) := by
  unfold setLiveOuts
  induction sets generalizing c first with
  | nil => exact Alike.refl c
  | cons s sets ih =>
    rw [List.zipIdx_cons, List.foldl_cons]
    refine Alike.trans ?_ (ih { c with instrs := c.instrs.modify first fun i => { i with liveOut := s } } (first + 1))
    refine ⟨rfl, by simp, fun i x hx => ?_⟩
    rw [Array.getElem?_modify, hx]
    split
    · exact ⟨s, rfl⟩
    · exact ⟨x.liveOut, rfl⟩

theorem setLiveOuts_outside (c : Code) (first : Nat) (sets : List LiveSet) {i : Nat}
    (hi : i < first ∨ first + sets.length ≤ i) : (c.setLiveOuts first sets).instrs[i]? = c.instrs[i]? := by
  unfold setLiveOuts
  induction sets generalizing c first with
  | nil => rfl
  | cons s sets ih =>
    rw [List.zipIdx_cons, List.foldl_cons]
    rw [List.length_cons] at hi
    refine (ih { c with instrs := c.instrs.modify first fun i => { i with liveOut := s } } (first + 1)
      (by omega)).trans ?_
    rw [Array.getElem?_modify, if_neg (by omega)]

theorem setLiveOuts_inside (c : Code) (first : Nat) (sets : List LiveSet) {k : Nat} {s : LiveSet} {x : Instr}
    (hs : sets[k]? = some s) (hx : c.instrs[first + k]? = some x) :
    (c.setLiveOuts first sets).instrs[first + k]? = some { x with liveOut := s } := by
  induction sets generalizing c first k x with
  | nil => simp at hs
  | cons t sets ih =>
    cases k with
    | zero =>
      obtain rfl : t = s := by simpa using hs
      have hout := setLiveOuts_outside { c with instrs := c.instrs.modify first fun i => { i with liveOut := t } }
        (first + 1) sets (i := first) (by omega)
      unfold setLiveOuts at hout ⊢
      rw [List.zipIdx_cons, List.foldl_cons]
      refine hout.trans ?_
      have hx' : c.instrs[first]? = some x := hx
      rw [Array.getElem?_modify, if_pos rfl, hx']
      rfl
    | succ k =>
      have hk : sets[k]? = some s := by simpa using hs
      have := ih { c with instrs := c.instrs.modify first fun i => { i with liveOut := t } } (first + 1) hk
        (x := x) (by rw [Array.getElem?_modify, if_neg (by omega), show first + 1 + k = first + (k + 1) by omega, hx])
      unfold setLiveOuts at this ⊢
      rw [List.zipIdx_cons, List.foldl_cons, show first + (k + 1) = first + 1 + k by omega]
      exact this

theorem annotate_eq {c : Code} {g : FlowGraph} {k : Nat} {b : Block} (hk : g.block? k = some b)
    (hin : (Scan.run c.operands b.first (c.slice b.first b.last) b.liveOut).live = b.liveIn) :
    annotate (c, g) k = .ok
      (c.setLiveOuts b.first (Scan.run c.operands b.first (c.slice b.first b.last) b.liveOut).liveOuts,
        g.modify k fun d =>
          { d with nextUse := (Scan.run c.operands b.first (c.slice b.first b.last) b.liveOut).nextUse }) := by
  simp only [annotate, hk, if_pos hin]

end Code

/-- A block without its next uses. -/
def Block.unnoted (b : Block) : Block := { b with nextUse := ∅ }

/-- The blocks numbered `ks` of `g` have been scanned, which turned `c` into `d` and `g` into `h`. -/
structure Scanned (c : Code) (g : FlowGraph) (ks : List Nat) (d : Code) (h : FlowGraph) : Prop where
  alike : c.Alike d
  head : h.head = g.head
  size : h.size = g.size
  succ : ∀ k, h.succ k = g.succ k
  blocks : ∀ k, (h.block? k).map Block.unnoted = (g.block? k).map Block.unnoted
  inside : ∀ k ∈ ks, ∀ b, g.block? k = some b → ∀ i, b.first ≤ i → i ≤ b.last →
    ∀ x, d.instrs[i]? = some x → x.liveOut = c.liveAfter b.last b.liveOut i
  outside : ∀ i, (∀ k ∈ ks, ∀ b, g.block? k = some b → i < b.first ∨ b.last < i) → d.instrs[i]? = c.instrs[i]?

namespace Scanned

theorem nil (c : Code) (g : FlowGraph) : Scanned c g [] c g :=
  ⟨Code.Alike.refl c, rfl, rfl, fun _ => rfl, fun _ => rfl, by simp, fun _ _ => rfl⟩

theorem block {c d : Code} {g h : FlowGraph} {ks : List Nat} (hs : Scanned c g ks d h) {k : Nat} {b : Block}
    (hk : g.block? k = some b) : ∃ b', h.block? k = some b' ∧ b'.unnoted = b.unnoted := by
  have := hs.blocks k
  rw [hk, Option.map_some, Option.map_eq_some_iff] at this
  exact this

theorem snoc {c d : Code} {g h : FlowGraph} {ks : List Nat} {first last k : Nat} {b : Block}
    (hs : Scanned c g ks d h) (ht : Tiles last first g.blocks) (hlast : last < c.instrs.size) (hnew : k ∉ ks)
    (hk : g.block? k = some b)
    (hin : (Scan.run c.operands b.first (c.slice b.first b.last) b.liveOut).live = b.liveIn) :
    ∃ d' h', Code.annotate (d, h) k = .ok (d', h') ∧ Scanned c g (ks ++ [k]) d' h' := by
  obtain ⟨b', hk', hb'⟩ := hs.block hk
  simp only [Block.unnoted, Block.mk.injEq] at hb'
  obtain ⟨hf, hl, hu, hd, hi, ho, -⟩ := hb'
  have hscan := hs.alike.scan b.first b.first b.last b.liveOut
  have hb := ht.bounds (k := k) (b := b) (by rw [FlowGraph.blocks_getElem?, hk])
  refine ⟨_, _, Code.annotate_eq hk' (by rw [hf, hl, ho, hi, hscan, hin]), ?_⟩
  rw [hf, hl, ho, hscan]
  set sets := (Scan.run c.operands b.first (c.slice b.first b.last) b.liveOut).liveOuts
  have hlen : sets.length = b.last + 1 - b.first := by
    rw [Scan.length_liveOuts, Code.length_slice c (by omega)]
  refine ⟨hs.alike.trans (Code.setLiveOuts_alike d _ _), hs.head, ?_, ?_, ?_, ?_, ?_⟩
  · exact (Digraph.size_modify h.graph k _).trans hs.size
  · exact fun j => (Digraph.succ_modify h.graph k _ j).trans (hs.succ j)
  · intro j
    rw [← hs.blocks j, FlowGraph.block?, FlowGraph.modify, Digraph.get?_modify]
    split
    · rw [Option.map_map]
      rfl
    · rfl
  · intro m hm e he i h1 h2 x hx
    rcases List.mem_append.mp hm with hm | hm
    · -- an instruction of another block, which this scan does not touch
      have hne : m ≠ k := fun h => hnew (h ▸ hm)
      have hdis : i < b.first ∨ b.first + sets.length ≤ i := by
        by_contra hc
        refine hne (ht.unique (k := m) (l := k) (b := e) (d := b) (i := i) ?_ ?_ ⟨h1, h2⟩ (by omega))
        · rw [FlowGraph.blocks_getElem?, he]
        · rw [FlowGraph.blocks_getElem?, hk]
      rw [Code.setLiveOuts_outside d _ _ hdis] at hx
      exact hs.inside m hm e he i h1 h2 x hx
    · obtain rfl := List.mem_singleton.mp hm
      rw [hk] at he
      cases he
      obtain ⟨p, rfl⟩ : ∃ p, i = b.first + p := ⟨i - b.first, by omega⟩
      have hlt : b.first + p < d.instrs.size := by rw [hs.alike.size]; omega
      have hp : p < (c.slice b.first b.last).length := by rw [Code.length_slice c (by omega)]; omega
      rw [Code.setLiveOuts_inside d b.first sets (Scan.liveOuts_getElem? _ _ _ _ hp)
        (Array.getElem?_eq_getElem hlt)] at hx
      cases hx
      simp only [Code.liveAfter, Code.drop_slice, Nat.add_assoc]
  · intro i hi
    rw [Code.setLiveOuts_outside d _ _ ?_]
    · exact hs.outside i fun m hm => hi m (List.mem_append_left _ hm)
    · have := hi k (by simp) b hk
      omega

end Scanned

end MiddleEnd
