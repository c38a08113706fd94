import MiddleEnd.FlowGraph.Build
import MiddleEnd.Proofs.Digraph

/-! The blocks of a flow graph tile the positions of its function: they stand one after the other,
none of them is empty, and they reach from the first position to the last. -/

namespace MiddleEnd

/-- The blocks tile the positions up to `last`, from the one given. -/
def Tiles (last : Nat) : Nat → List Block → Prop
  | first, [] => first = last + 1
  | first, b :: bs => b.first = first ∧ first ≤ b.last ∧ Tiles last (b.last + 1) bs

namespace Tiles

variable {first last : Nat} {bs : List Block}

theorem le (h : Tiles last first bs) : first ≤ last + 1 := by
  induction bs generalizing first with
  | nil => exact Nat.le_of_eq h
  | cons b bs ih =>
    obtain ⟨-, hb, ht⟩ := h
    have := ih ht
    omega

theorem bounds (h : Tiles last first bs) {k : Nat} {b : Block} (hk : bs[k]? = some b) :
    first ≤ b.first ∧ b.first ≤ b.last ∧ b.last ≤ last := by
  induction bs generalizing first k with
  | nil => simp at hk
  | cons d bs ih =>
    obtain ⟨hf, hl, ht⟩ := h
    cases k with
    | zero =>
      have := ht.le
      simp only [List.getElem?_cons_zero, Option.some.injEq] at hk
      subst hk
      omega
    | succ k =>
      have := ih ht (k := k) (by simpa using hk)
      omega

theorem first_eq (h : Tiles last first bs) {b : Block} (hb : bs[0]? = some b) : b.first = first := by
  cases bs with
  | nil => simp at hb
  | cons d bs =>
    simp only [List.getElem?_cons_zero, Option.some.injEq] at hb
    rw [← hb, h.1]

theorem first_succ (h : Tiles last first bs) {k : Nat} {b d : Block} (hb : bs[k]? = some b)
    (hd : bs[k + 1]? = some d) : d.first = b.last + 1 := by
  induction bs generalizing first k with
  | nil => simp at hb
  | cons e bs ih =>
    cases k with
    | zero =>
      simp only [List.getElem?_cons_zero, Option.some.injEq] at hb
      subst hb
      exact h.2.2.first_eq (by simpa using hd)
    | succ k => exact ih h.2.2 (by simpa using hb) (by simpa using hd)

theorem last_eq (h : Tiles last first bs) {k : Nat} {b : Block} (hb : bs[k]? = some b)
    (hn : bs.length ≤ k + 1) : b.last = last := by
  induction bs generalizing first k with
  | nil => simp at hb
  | cons e bs ih =>
    cases k with
    | zero =>
      simp only [List.getElem?_cons_zero, Option.some.injEq] at hb
      subst hb
      have : bs = [] := List.length_eq_zero_iff.mp (by simpa using hn)
      subst this
      have := h.2.2
      simp only [Tiles] at this
      omega
    | succ k => exact ih h.2.2 (by simpa using hb) (by simpa using hn)

theorem cover (h : Tiles last first bs) {i : Nat} (hf : first ≤ i) (hl : i ≤ last) :
    ∃ (k : Nat) (b : Block), bs[k]? = some b ∧ b.first ≤ i ∧ i ≤ b.last := by
  induction bs generalizing first with
  | nil =>
    simp only [Tiles] at h
    omega
  | cons b bs ih =>
    obtain ⟨hb, -, ht⟩ := h
    by_cases hi : i ≤ b.last
    · exact ⟨0, b, rfl, by omega, hi⟩
    · obtain ⟨k, d, hd, h1, h2⟩ := ih ht (by omega)
      exact ⟨k + 1, d, by simpa using hd, h1, h2⟩

theorem ordered (h : Tiles last first bs) {k l : Nat} {b d : Block} (hkl : k < l) (hb : bs[k]? = some b)
    (hd : bs[l]? = some d) : b.last < d.first := by
  induction bs generalizing first k l with
  | nil => simp at hb
  | cons e bs ih =>
    obtain ⟨l, rfl⟩ : ∃ m, l = m + 1 := ⟨l - 1, by omega⟩
    cases k with
    | zero =>
      simp only [List.getElem?_cons_zero, Option.some.injEq] at hb
      subst hb
      have := h.2.2.bounds (k := l) (by simpa using hd)
      omega
    | succ k => exact ih h.2.2 (k := k) (l := l) (by omega) (by simpa using hb) (by simpa using hd)

theorem unique (h : Tiles last first bs) {k l i : Nat} {b d : Block} (hb : bs[k]? = some b)
    (hd : bs[l]? = some d) (hbi : b.first ≤ i ∧ i ≤ b.last) (hdi : d.first ≤ i ∧ i ≤ d.last) : k = l := by
  rcases Nat.lt_trichotomy k l with hkl | rfl | hlk
  · have := h.ordered hkl hb hd
    omega
  · rfl
  · have := h.ordered hlk hd hb
    omega

theorem congr {ds : List Block} (h : Tiles last first bs)
    (he : ds.map (fun b => (b.first, b.last)) = bs.map fun b => (b.first, b.last)) : Tiles last first ds := by
  induction bs generalizing first ds with
  | nil =>
    obtain rfl : ds = [] := by simpa using he
    exact h
  | cons b bs ih =>
    cases ds with
    | nil => simp at he
    | cons d ds =>
      simp only [List.map_cons, List.cons.injEq, Prod.mk.injEq] at he
      obtain ⟨⟨hf, hl⟩, hr⟩ := he
      obtain ⟨h1, h2, h3⟩ := h
      exact ⟨hf.trans h1, hl ▸ h2, hl ▸ ih h3 hr⟩

end Tiles

namespace FlowGraph

theorem blocks_getElem? (g : FlowGraph) (k : Nat) : g.blocks[k]? = g.block? k := Digraph.vals_getElem? g.graph k

theorem exists_block_of_mem_succ {g : FlowGraph} {k l : Nat} (h : l ∈ g.succ k) : ∃ b, g.block? k = some b :=
  Option.isSome_iff_exists.mp ((Digraph.get?_isSome_iff g.graph k).mpr (Digraph.lt_size_of_mem_succ h))

theorem tiles_blocksFrom {last first : Nat} {starts : List Nat}
    (hs : (first :: starts).Pairwise (· < ·)) (hl : ∀ s ∈ first :: starts, s ≤ last) :
    Tiles last first (blocksFrom last (first :: starts)) := by
  induction starts generalizing first with
  | nil => exact ⟨rfl, hl first (by simp), rfl⟩
  | cons next rest ih =>
    have hlt : first < next := (List.pairwise_cons.mp hs).1 next (by simp)
    refine ⟨rfl, by dsimp only; omega, ?_⟩
    dsimp only
    rw [show next - 1 + 1 = next by omega]
    exact ih (List.pairwise_cons.mp hs).2 fun s h => hl s (List.mem_cons_of_mem _ h)

theorem first_blocksFrom (last : Nat) (starts : List Nat) :
    (blocksFrom last starts).map (·.first) = starts := by
  fun_induction blocksFrom last starts with
  | case1 => rfl
  | case2 => rfl
  | case3 start next rest ih => rw [List.map_cons, ih]

theorem eq_of_mem_blocksFrom {last : Nat} {starts : List Nat} {b : Block}
    (h : b ∈ blocksFrom last starts) : b = { first := b.first, last := b.last } := by
  fun_induction blocksFrom last starts with
  | case1 => cases h
  | case2 start =>
    rw [List.mem_singleton] at h
    subst h
    rfl
  | case3 start next rest ih =>
    rcases List.mem_cons.mp h with rfl | h
    · rfl
    · exact ih h

end FlowGraph

end MiddleEnd
