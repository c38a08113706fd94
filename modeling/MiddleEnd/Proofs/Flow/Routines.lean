import MiddleEnd.Proofs.Flow.Build
import Mathlib.Logic.Relation
import Mathlib.Data.Option.Basic

/-! The functions of a table, as cutting it up gives them: each stands from a header to the next, they
do not overlap, and each has the flow graph of its part. -/

namespace MiddleEnd

/-- Ranges that stand one behind the other, from `first` on, and end right before `stop`. -/
def Spans (stop : Nat) : Nat → List (Nat × Nat) → Prop
  | first, [] => first = stop
  | first, r :: rs => r.1 = first ∧ first ≤ r.2 ∧ Spans stop (r.2 + 1) rs

theorem Spans.cover {stop first : Nat} {rs : List (Nat × Nat)} (h : Spans stop first rs) {i : Nat} (hf : first ≤ i)
    (hi : i < stop) : ∃ r ∈ rs, r.1 ≤ i ∧ i ≤ r.2 := by
  induction rs generalizing first with
  | nil =>
    simp only [Spans] at h
    omega
  | cons r rs ih =>
    obtain ⟨hr, -, hrest⟩ := h
    by_cases hle : i ≤ r.2
    · exact ⟨r, by simp, by omega, hle⟩
    · obtain ⟨s, hs, hin⟩ := ih hrest (by omega)
      exact ⟨s, List.mem_cons_of_mem _ hs, hin⟩

namespace Code

theorem mem_headers (symbols : SymbolTable) (c : Code) (pos : Nat) (h : SymbolId × String) :
    (pos, h) ∈ c.headers symbols ↔ ∃ x, c.instrs[pos]? = some x ∧ c.header? symbols x = some h := by
  simp only [headers, List.mem_filterMap, Prod.exists, Option.map_eq_some_iff, Prod.mk.injEq,
    List.mem_zipIdx_iff_getElem?, Array.getElem?_toList]
  constructor
  · rintro ⟨x, p, hx, id, name, hh, rfl, rfl⟩
    exact ⟨x, hx, hh⟩
  · rintro ⟨x, hx, hh⟩
    exact ⟨x, pos, hx, h.1, h.2, hh, rfl, rfl⟩

theorem sorted_headers (symbols : SymbolTable) (c : Code) :
    (c.headers symbols).Pairwise fun a b => a.1 < b.1 := by
  unfold headers
  rw [List.pairwise_filterMap]
  have hs : c.instrs.toList.zipIdx.Pairwise fun a b => a.2 < b.2 := by
    rw [← List.pairwise_map (f := Prod.snd), List.zipIdx_map_snd]
    exact List.pairwise_lt_range'
  refine hs.imp ?_
  intro a b hab p hp q hq
  obtain ⟨h, -, rfl⟩ := Option.map_eq_some_iff.mp hp
  obtain ⟨k, -, rfl⟩ := Option.map_eq_some_iff.mp hq
  exact hab

theorem header?_eq_some {symbols : SymbolTable} {c : Code} {x : Instr} {id : SymbolId} {name : String} :
    c.header? symbols x = some (id, name) ↔ x.op = .header ∧ ∃ o operand s, x.result = some o ∧
      c.operands.get? o = some operand ∧ operand.symbol? = some id ∧ symbols.get? id = some s ∧
      s.ty.isFunction = true ∧ s.name = name := by
  simp only [header?, Option.bind_eq_bind, Option.bind_eq_some_iff, Option.guard_eq_some', pure, Option.some.injEq,
    Prod.mk.injEq]
  constructor
  · rintro ⟨_, hop, o, ho, operand, hoperand, id', hid, s, hs, _, hf, rfl, rfl⟩
    exact ⟨hop, o, operand, s, ho, hoperand, hid, hs, hf, rfl⟩
  · rintro ⟨hop, o, operand, s, ho, hoperand, hid, hs, hf, rfl⟩
    exact ⟨(), hop, o, ho, operand, hoperand, id, hid, s, hs, (), hf, rfl, rfl⟩

theorem mem_cut {size : Nat} {hs : List (Nat × SymbolId × String)} (hlt : ∀ h ∈ hs, h.1 < size)
    (hsorted : hs.Pairwise fun a b => a.1 < b.1) {p : Piece} (hp : p ∈ cut size hs) :
    (p.first, p.symbol, p.name) ∈ hs ∧ p.first ≤ p.last ∧ p.last < size ∧
      (∀ h ∈ hs, h.1 ≤ p.first ∨ p.last < h.1) ∧ (p.last + 1 = size ∨ ∃ h ∈ hs, h.1 = p.last + 1) := by
  fun_induction cut size hs with
  | case1 => cases hp
  | case2 first symbol name =>
    obtain rfl := List.mem_singleton.mp hp
    have := hlt (first, symbol, name) (by simp)
    refine ⟨by simp, ?_, ?_, ?_, Or.inl ?_⟩
    · dsimp only at this ⊢; omega
    · dsimp only at this ⊢; omega
    · simp
    · dsimp only at this ⊢; omega
  | case3 first symbol name next rest ih =>
    have hnext := (List.pairwise_cons.mp hsorted).1 next (by simp)
    have hltn := hlt next (by simp)
    rcases List.mem_cons.mp hp with rfl | hp
    · refine ⟨by simp, ?_, ?_, ?_, Or.inr ⟨next, by simp, ?_⟩⟩
      · dsimp only at hnext ⊢; omega
      · dsimp only at hnext ⊢; omega
      · intro h hh
        rcases List.mem_cons.mp hh with rfl | hh
        · exact Or.inl (Nat.le_refl _)
        · right
          rcases List.mem_cons.mp hh with rfl | hh
          · dsimp only at hnext ⊢; omega
          · have := (List.pairwise_cons.mp (List.pairwise_cons.mp hsorted).2).1 h hh
            dsimp only at hnext ⊢
            omega
      · dsimp only at hnext ⊢; omega
    · obtain ⟨h1, h2, h3, h4, h5⟩ := ih (fun h hh => hlt h (List.mem_cons_of_mem _ hh))
        (List.pairwise_cons.mp hsorted).2 hp
      refine ⟨List.mem_cons_of_mem _ h1, h2, h3, ?_, ?_⟩
      · intro h hh
        rcases List.mem_cons.mp hh with rfl | hh
        · exact Or.inl (Nat.le_of_lt ((List.pairwise_cons.mp hsorted).1 _ h1))
        · exact h4 h hh
      · rcases h5 with h5 | ⟨h, hh, h5⟩
        · exact Or.inl h5
        · exact Or.inr ⟨h, List.mem_cons_of_mem _ hh, h5⟩

theorem cut_pairwise {size : Nat} {hs : List (Nat × SymbolId × String)} (hlt : ∀ h ∈ hs, h.1 < size)
    (hsorted : hs.Pairwise fun a b => a.1 < b.1) : (cut size hs).Pairwise fun p q => p.last < q.first := by
  fun_induction cut size hs with
  | case1 => exact List.Pairwise.nil
  | case2 => exact List.pairwise_singleton _ _
  | case3 first symbol name next rest ih =>
    have hrest := (List.pairwise_cons.mp hsorted).2
    have hlt' : ∀ h ∈ next :: rest, h.1 < size := fun h hh => hlt h (List.mem_cons_of_mem _ hh)
    refine List.pairwise_cons.mpr ⟨?_, ih hlt' hrest⟩
    intro q hq
    obtain ⟨hq, -⟩ := mem_cut hlt' hrest hq
    have hnext := (List.pairwise_cons.mp hsorted).1 next (by simp)
    rcases List.mem_cons.mp hq with he | hq
    · rw [← he] at hnext ⊢
      dsimp only at hnext ⊢
      omega
    · have := (List.pairwise_cons.mp hrest).1 _ hq
      dsimp only at hnext this ⊢
      omega

theorem cut_heads (size : Nat) (hs : List (Nat × SymbolId × String)) :
    (cut size hs).map (fun p => (p.first, p.symbol, p.name)) = hs := by
  fun_induction cut size hs with
  | case1 => rfl
  | case2 => rfl
  | case3 first symbol name next rest ih => rw [List.map_cons, ih]

theorem cut_symbols (size : Nat) (hs : List (Nat × SymbolId × String)) :
    (cut size hs).map (·.symbol) = hs.map (·.2.1) := by
  conv_rhs => rw [← cut_heads size hs, List.map_map]
  rfl

theorem cut_spans {size first : Nat} {hs : List (Nat × SymbolId × String)} (hlt : ∀ h ∈ hs, h.1 < size)
    (hsorted : hs.Pairwise fun a b => a.1 < b.1) (hhead : hs.head?.map (·.1) = some first) :
    Spans size first ((cut size hs).map fun p => (p.first, p.last)) := by
  fun_induction cut size hs generalizing first with
  | case1 => cases hhead
  | case2 start symbol name =>
    obtain rfl : start = first := by simpa using hhead
    have hstart := hlt (start, symbol, name) (by simp)
    dsimp only at hstart
    refine ⟨rfl, ?_, ?_⟩
    · dsimp only
      omega
    · show size - 1 + 1 = size
      omega
  | case3 start symbol name next rest ih =>
    obtain rfl : start = first := by simpa using hhead
    obtain ⟨hnext, hrest⟩ := List.pairwise_cons.mp hsorted
    have hstart := hnext next (by simp)
    dsimp only at hstart
    refine ⟨rfl, ?_, ?_⟩
    · dsimp only
      omega
    · dsimp only
      rw [show next.1 - 1 + 1 = next.1 by omega]
      exact ih (fun h hh => hlt h (List.mem_cons_of_mem _ hh)) hrest (by simp)

end Code

/-- The function stands where the piece stands and has its flow graph. -/
structure Piece.Becomes (c : Code) (p : Piece) (r : Routine) : Prop where
  symbol : r.symbol = p.symbol
  first : r.first = p.first
  last : r.last = p.last
  flow : FlowGraph.build c p.name p.first p.last = .ok r.flow

/-- The flow graph of a function, as it is built from its table: what the later stages rely on. -/
structure Routine.Built (c : Code) (r : Routine) : Prop where
  first_le : r.first ≤ r.last
  last_lt : r.last < c.instrs.size
  header : ∃ x, c.instrs[r.first]? = some x ∧ x.op = .header
  tiles : Tiles r.last r.first r.flow.blocks
  head : r.flow.head = 0
  fresh : ∀ b ∈ r.flow.blocks, b = { first := b.first, last := b.last }
  breaks : ∀ k b, r.flow.block? k = some b → b.first = r.first ∨ c.Breaks b.first
  succ_ne_zero : ∀ k l b, r.flow.block? k = some b → l ∈ r.flow.succ k → l ≠ 0
  follows : ∀ i j, c.Next r.first r.last i j → r.flow.Follows i j

namespace Routine.Built

variable {c : Code} {r : Routine}

theorem block_bounds (h : r.Built c) {k : Nat} {b : Block} (hk : r.flow.block? k = some b) :
    r.first ≤ b.first ∧ b.first ≤ b.last ∧ b.last ≤ r.last :=
  h.tiles.bounds ((FlowGraph.blocks_getElem? r.flow k).trans hk)

theorem exists_block (h : r.Built c) {i : Nat} (hf : r.first ≤ i) (hl : i ≤ r.last) :
    ∃ k b, r.flow.block? k = some b ∧ b.first ≤ i ∧ i ≤ b.last := by
  obtain ⟨k, b, hk, hi⟩ := h.tiles.cover hf hl
  exact ⟨k, b, (FlowGraph.blocks_getElem? r.flow k).symm.trans hk, hi⟩

theorem eq_head (h : r.Built c) {k : Nat} {b : Block} (hk : r.flow.block? k = some b) (hf : b.first = r.first) :
    k = r.flow.head := by
  have hk' : r.flow.blocks[k]? = some b := (FlowGraph.blocks_getElem? r.flow k).trans hk
  have he := List.getElem?_eq_getElem (Nat.zero_lt_of_lt (List.getElem?_eq_some_iff.mp hk').1)
  have hfirst := h.tiles.first_eq he
  have hb := h.tiles.bounds hk'
  have hbounds := h.tiles.bounds he
  rw [h.head]
  exact h.tiles.unique hk' he ⟨Nat.le_refl _, hb.2.1⟩ (by omega)

theorem follows_bounds (h : r.Built c) {i j : Nat} (hij : r.flow.Follows i j) :
    (r.first ≤ i ∧ i ≤ r.last) ∧ r.first ≤ j ∧ j ≤ r.last := by
  rcases hij with ⟨k, b, hk, h1, h2, rfl⟩ | ⟨k, l, b, d, hk, rfl, -, hl, rfl⟩
  · have := h.block_bounds hk
    omega
  · have := h.block_bounds hk
    have := h.block_bounds hl
    omega

theorem follows_inside {k : Nat} {b : Block} (hb : r.flow.block? k = some b) {i j : Nat} (hbi : b.first ≤ i)
    (hij : i ≤ j) (hjb : j ≤ b.last) : Relation.ReflTransGen r.flow.Follows i j := by
  obtain ⟨n, rfl⟩ : ∃ n, j = i + n := ⟨j - i, by omega⟩
  induction n with
  | zero => exact .refl
  | succ n ih => exact (ih (by omega) (by omega)).tail (Or.inl ⟨k, b, hb, by omega, by omega, rfl⟩)

theorem follows_of_reaches (h : r.Built c) {k : Nat}
    (hk : Relation.ReflTransGen (fun a b => b ∈ r.flow.succ a) r.flow.head k) {b : Block}
    (hb : r.flow.block? k = some b) {i : Nat} (hbi : b.first ≤ i) (hib : i ≤ b.last) :
    Relation.ReflTransGen r.flow.Follows r.first i := by
  induction hk generalizing b i with
  | refl =>
    have hf : b.first = r.first := by
      rw [h.head] at hb
      exact h.tiles.first_eq ((FlowGraph.blocks_getElem? r.flow 0).trans hb)
    rw [← hf]
    exact follows_inside hb (Nat.le_refl _) hbi hib
  | @tail a k _ hak ih =>
    obtain ⟨d, hd⟩ := FlowGraph.exists_block_of_mem_succ hak
    have hstart := ih hd (h.block_bounds hd).2.1 (Nat.le_refl _)
    have hedge : r.flow.Follows d.last b.first := Or.inr ⟨a, k, d, b, hd, rfl, hak, hb, rfl⟩
    exact (hstart.tail hedge).trans (follows_inside hb (Nat.le_refl _) hbi hib)

end Routine.Built

namespace Code

theorem headers_lt {symbols : SymbolTable} {c : Code} : ∀ h ∈ c.headers symbols, h.1 < c.instrs.size := by
  intro h hh
  obtain ⟨x, hx, -⟩ := (mem_headers symbols c h.1 h.2).mp hh
  exact (Array.getElem?_eq_some_iff.mp hx).1

theorem head?_headers {symbols : SymbolTable} {c : Code} {h : SymbolId × String} (hmem : (0, h) ∈ c.headers symbols) :
    (c.headers symbols).head?.map (·.1) = some 0 := by
  have hsorted := sorted_headers symbols c
  cases hhs : c.headers symbols with
  | nil => simp [hhs] at hmem
  | cons k ks =>
    rw [hhs] at hmem hsorted
    rcases List.mem_cons.mp hmem with rfl | hmem
    · rfl
    · exact absurd ((List.pairwise_cons.mp hsorted).1 _ hmem) (Nat.not_lt_zero _)

theorem headerAt_of_mem {symbols : SymbolTable} {c : Code} {h : Nat × SymbolId × String} (hh : h ∈ c.headers symbols) :
    c.headerAt symbols h.1 = .ok h := by
  obtain ⟨x, hx, hhead⟩ := (mem_headers symbols c h.1 h.2).mp hh
  rw [headerAt, hx, Option.bind_some, hhead]

/-- Every function but the first is begun at a header, so that an orphan can only be found at the start. -/
theorem pieces_eq (symbols : SymbolTable) (c : Code) : c.pieces symbols =
    if c.instrs.size ≠ 0 ∧ (c.headers symbols).head?.map (·.1) ≠ some 0 then .error (.orphanInstruction 0)
    else .ok (cut c.instrs.size (c.headers symbols)) := by
  by_cases hsize : c.instrs.size = 0
  · have hnone : c.headers symbols = [] := List.eq_nil_iff_forall_not_mem.mpr fun h hh => by
      have := headers_lt h hh
      omega
    rw [pieces, rounds, if_pos hsize, if_neg fun h => h.1 hsize, hnone]
    rfl
  · have hrounds : c.rounds symbols = 0 :: ((c.headers symbols).map (·.1)).filter (0 < ·) := if_neg hsize
    by_cases hhead : (c.headers symbols).head?.map (·.1) = some 0
    · have hall : c.rounds symbols = (c.headers symbols).map (·.1) := by
        have hsorted := sorted_headers symbols c
        rw [hrounds]
        cases hhs : c.headers symbols with
        | nil => simp [hhs] at hhead
        | cons h hs =>
          rw [hhs] at hhead hsorted
          have hzero : h.1 = 0 := Option.some.inj hhead
          have hlater : ∀ k ∈ hs, 0 < k.1 := fun k hk => Nat.zero_lt_of_lt ((List.pairwise_cons.mp hsorted).1 k hk)
          simpa [hzero] using hlater
      rw [pieces, hall, mapM_map_eq_ok fun _ => headerAt_of_mem, if_neg fun h => h.2 hhead]
      rfl
    · have horphan : c.headerAt symbols 0 = .error (.orphanInstruction 0) := by
        unfold headerAt
        split
        case h_1 h hh =>
          obtain ⟨x, hx, hhead'⟩ := Option.bind_eq_some_iff.mp hh
          exact absurd (head?_headers ((mem_headers symbols c 0 h).mpr ⟨x, hx, hhead'⟩)) hhead
        case h_2 => rfl
      rw [pieces, hrounds, List.mapM_cons, horphan, if_pos ⟨hsize, hhead⟩]
      rfl

theorem pieces_eq_ok_iff {symbols : SymbolTable} {c : Code} {ps : List Piece} : c.pieces symbols = .ok ps ↔
    (c.instrs.size = 0 ∨ (c.headers symbols).head?.map (·.1) = some 0) ∧
      ps = cut c.instrs.size (c.headers symbols) := by
  rw [pieces_eq]
  split
  case isTrue h =>
    constructor
    · intro he
      cases he
    · rintro ⟨hor, -⟩
      exact absurd hor (not_or.mpr h)
  case isFalse h =>
    rw [not_and_or, not_not, not_not] at h
    rw [Except.ok.injEq, and_iff_right h, eq_comm]

theorem routines_become {symbols : SymbolTable} {c : Code} {rs : List Routine} (h : c.routines symbols = .ok rs) :
    List.Forall₂ (Piece.Becomes c) (cut c.instrs.size (c.headers symbols)) rs := by
  obtain ⟨ps, hps, hmap⟩ := Except.bind_eq_ok.mp h
  rw [(pieces_eq_ok_iff.mp hps).2] at hmap
  refine (mapM_forall₂ hmap).imp fun p r hr => ?_
  obtain ⟨flow, hflow, hr⟩ := Except.bind_eq_ok.mp hr
  cases hr
  exact ⟨rfl, rfl, rfl, hflow⟩

theorem routines_symbols {symbols : SymbolTable} {c : Code} {rs : List Routine} (h : c.routines symbols = .ok rs) :
    rs.map (·.symbol) = (c.headers symbols).map (·.2.1) := by
  rw [← cut_symbols c.instrs.size]
  exact (map_eq_of_forall₂ (routines_become h) fun p r hpr => hpr.symbol.symm).symm

theorem routines_spans {symbols : SymbolTable} {c : Code} {rs : List Routine} (h : c.routines symbols = .ok rs) :
    Spans c.instrs.size 0 (rs.map fun r => (r.first, r.last)) := by
  rw [← map_eq_of_forall₂ (f := fun p => (p.first, p.last)) (routines_become h)
    fun p r hpr => by rw [hpr.first, hpr.last]]
  obtain ⟨ps, hps, -⟩ := Except.bind_eq_ok.mp h
  rcases (pieces_eq_ok_iff.mp hps).1 with hzero | hhead
  · have hnone : c.headers symbols = [] := by
      rw [List.eq_nil_iff_forall_not_mem]
      intro h hh
      have := headers_lt h hh
      omega
    rw [hnone, hzero]
    rfl
  · exact cut_spans headers_lt (sorted_headers symbols c) hhead

theorem mem_routines {symbols : SymbolTable} {c : Code} {rs : List Routine} (h : c.routines symbols = .ok rs)
    {r : Routine} (hr : r ∈ rs) : (∃ x, c.instrs[r.first]? = some x ∧ x.op = .header) ∧ r.first ≤ r.last ∧
      r.last < c.instrs.size ∧ (∀ h ∈ c.headers symbols, h.1 ≤ r.first ∨ r.last < h.1) ∧
      ∃ name, FlowGraph.build c name r.first r.last = .ok r.flow := by
  obtain ⟨p, hp, hpr⟩ := (mem_of_forall₂ (routines_become h)).1 r hr
  obtain ⟨hmem, hfl, hl, hbetween, -⟩ := mem_cut headers_lt (sorted_headers symbols c) hp
  obtain ⟨x, hx, hh⟩ := (mem_headers symbols c p.first _).mp hmem
  rw [hpr.first, hpr.last]
  exact ⟨⟨x, hx, (header?_eq_some.mp hh).1⟩, hfl, hl, hbetween, p.name, hpr.flow⟩

theorem header_after_routine {symbols : SymbolTable} {c : Code} {rs : List Routine} (h : c.routines symbols = .ok rs)
    {r : Routine} (hr : r ∈ rs) {x : Instr} (hx : c.instrs[r.last + 1]? = some x) : x.op = .header := by
  obtain ⟨p, hp, hpr⟩ := (mem_of_forall₂ (routines_become h)).1 r hr
  obtain ⟨-, -, -, -, hend | ⟨⟨pos, key⟩, hmem, hpos⟩⟩ := mem_cut headers_lt (sorted_headers symbols c) hp
  · have := (Array.getElem?_eq_some_iff.mp hx).1
    rw [hpr.last] at this
    omega
  · obtain ⟨y, hy, hh⟩ := (mem_headers symbols c pos key).mp hmem
    rw [hpr.last, ← hpos] at hx
    obtain rfl : x = y := Option.some.inj (hx.symm.trans hy)
    exact (header?_eq_some.mp hh).1

theorem routines_built {symbols : SymbolTable} {c : Code} (hc : c.Numbered) {rs : List Routine}
    (h : c.routines symbols = .ok rs) : ∀ r ∈ rs, r.Built c := by
  intro r hr
  obtain ⟨⟨x, hx, hop⟩, hfl, hl, -, name, hflow⟩ := mem_routines h hr
  obtain ⟨targets, hparts⟩ := FlowGraph.exists_parts hc hl hflow
  refine ⟨hfl, hl, ⟨x, hx, hop⟩, hparts.tiles hc hfl, hparts.head_eq_zero hc hfl, ?_, ?_, ?_, ?_⟩
  · intro b hb
    rw [hparts.blocks_eq] at hb
    exact FlowGraph.eq_of_mem_blocksFrom hb
  · intro k b hk
    exact hparts.leader_breaks hc (List.mem_of_getElem? (hparts.start_of_block hk))
  · intro k l b hk hkl
    refine hparts.succ_ne_zero hc hfl hl ?_ hk hkl
    intro y hy hlabel
    rw [hx] at hy
    cases hy
    rw [hop] at hlabel
    cases hlabel
  · exact fun i j hnext => hparts.follows_of_next hc hfl hnext

end Code

end MiddleEnd
