import MiddleEnd.Proofs.Digraph
import MiddleEnd.Proofs.Flow.Targets
import MiddleEnd.Proofs.Flow.Tiling

/-! The flow graph that is built for a part of a table. Its blocks tile the part, every block but the
first starts where control can arrive or must have left, and every way that control can go is a step
along the graph. -/

namespace MiddleEnd

/-- Straight-line code ends before a position: a label stands there, or control may leave right
before it. -/
def Code.Breaks (c : Code) (pos : Nat) : Prop :=
  (∃ x, c.instrs[pos]? = some x ∧ x.op = .label) ∨
    ∃ before x, pos = before + 1 ∧ c.instrs[before]? = some x ∧ (x.op = .jump ∨ x.op = .branch ∨ x.op = .ret)

/-- A step along the graph: to the next position of a block, or from the end of a block to the start
of a successor. -/
def FlowGraph.Follows (g : FlowGraph) (i j : Nat) : Prop :=
  (∃ k b, g.block? k = some b ∧ b.first ≤ i ∧ i < b.last ∧ j = i + 1) ∨
    ∃ k l b d, g.block? k = some b ∧ b.last = i ∧ l ∈ g.succ k ∧ g.block? l = some d ∧ d.first = j

theorem Instr.op_of_target? {x : Instr} {label : OperandId} (h : x.target? = some label) :
    x.op = .jump ∨ x.op = .branch := by
  unfold target? at h
  split at h
  case h_1 hop => exact Or.inl hop
  case h_2 hop => exact Or.inr hop
  case h_3 => cases h

namespace FlowGraph

theorem mem_successors (x : Instr) (fallthrough target : Option Nat) (l : Nat) :
    l ∈ successors x.op fallthrough target ↔ (fallthrough = some l ∧ x.isTransfer = false) ∨
      (target = some l ∧ (x.op = .jump ∨ x.op = .branch)) := by
  unfold successors
  split
  case h_1 hop => simp [Instr.isTransfer, hop]
  case h_2 hop => simp [Instr.isTransfer, hop]
  case h_3 hop => simp [Instr.isTransfer, hop]
  case h_4 h1 h2 h3 =>
    have h1 : x.op ≠ .jump := h1
    have h2 : x.op ≠ .branch := h2
    have h3 : x.op ≠ .ret := h3
    simp [Instr.isTransfer, h1, h2, h3]

theorem leader?_eq_some {c : Code} {last s : Nat} {i : Instr} (h : leader? c last i = some s) :
    (i.op = .label ∧ s = i.id) ∨
      (i.id < last ∧ s = i.id + 1 ∧ (i.op = .jump ∨ i.op = .branch ∨ i.op = .ret)) := by
  unfold leader? at h
  split at h
  case h_1 hop => exact Or.inl ⟨hop, by simpa using h.symm⟩
  case h_2 hop =>
    split at h
    · exact Or.inr ⟨by assumption, by simpa using h.symm, Or.inl hop⟩
    · cases h
  case h_3 hop =>
    split at h
    · exact Or.inr ⟨by assumption, by simpa using h.symm, Or.inr (Or.inl hop)⟩
    · cases h
  case h_4 hop =>
    split at h
    case isTrue hc =>
      simp only [Bool.and_eq_true, decide_eq_true_eq] at hc
      exact Or.inr ⟨hc.1, by simpa using h.symm, Or.inr (Or.inr hop)⟩
    case isFalse => cases h
  case h_5 => cases h

theorem mem_leaders (c : Code) (first last : Nat) (ts : List (Nat × Nat)) (s : Nat) :
    s ∈ leaders c first last ts ↔ s = first ∨ (∃ i ∈ c.slice first last, leader? c last i = some s) ∨
      ∃ src, (src, s) ∈ ts := by
  simp [leaders, List.mem_filterMap]

theorem sorted_leaders (c : Code) (first last : Nat) (ts : List (Nat × Nat)) :
    (leaders c first last ts).Pairwise (· < ·) := by
  unfold leaders
  refine List.Pairwise.imp ?_ Std.ExtTreeSet.ordered_toList
  intro a b h
  exact Nat.compare_eq_lt.mp h

theorem exists_eq_cons_of_sorted {l : List Nat} {a : Nat} (hs : l.Pairwise (· < ·)) (ha : a ∈ l)
    (hle : ∀ x ∈ l, a ≤ x) : ∃ rest, l = a :: rest := by
  cases l with
  | nil => cases ha
  | cons b rest =>
    refine ⟨rest, ?_⟩
    rcases List.mem_cons.mp ha with rfl | hr
    · rfl
    · have h1 := (List.pairwise_cons.mp hs).1 a hr
      have h2 := hle b (by simp)
      omega

/-- The blocks that control goes to from the end of block `k`, which ends with `x` at `pos`. -/
def exits (starts : List Nat) (targets : List (Nat × Nat)) (k pos : Nat) (x : Instr) : List Nat :=
  successors x.op (if k + 1 < starts.length then some (k + 1) else none)
    ((targets.foldl (fun m t => m.insert t.1 t.2) (∅ : Std.ExtTreeMap Nat Nat))[pos]?.bind (starts.idxOf? ·))

theorem edgesOf_eq_ok {c : Code} {starts : List Nat} {targets : List (Nat × Nat)} {b : Block} {id : Nat}
    {es : List (Nat × Nat)}
    (h : edgesOf c starts (targets.foldl (fun m t => m.insert t.1 t.2) ∅) b id = .ok es) :
    ∃ x, c.instrs[b.last]? = some x ∧ es = (exits starts targets id b.last x).map (id, ·) := by
  unfold edgesOf at h
  split at h
  case h_1 => cases h
  case h_2 x hx => exact ⟨x, hx, (Except.ok.inj h).symm⟩

theorem filter_flatten_eq {bs : List Block} {ess : List (List (Nat × Nat))} {n : Nat}
    (h : List.Forall₂ (fun p es => ∀ e ∈ es, e.1 = p.2) (bs.zipIdx n) ess) {k : Nat} (hk : n ≤ k) :
    ess.flatten.filter (·.1 = k) = ess[k - n]?.getD [] := by
  induction bs generalizing n ess with
  | nil =>
    rw [List.zipIdx_nil, List.forall₂_nil_left_iff] at h
    subst h
    rfl
  | cons b bs ih =>
    rw [List.zipIdx_cons, List.forall₂_cons_left_iff] at h
    obtain ⟨es, rest, hes, hrest, rfl⟩ := h
    rw [List.flatten_cons, List.filter_append]
    rcases Nat.eq_or_lt_of_le hk with rfl | hlt
    · have hback : rest.flatten.filter (·.1 = n) = [] := by
        rw [List.filter_eq_nil_iff]
        intro e he
        obtain ⟨es', hes', he⟩ := List.mem_flatten.mp he
        obtain ⟨p, hp, hfst⟩ := (mem_of_forall₂ hrest).1 es' hes'
        have := (List.mem_zipIdx hp).1
        rw [decide_eq_true_eq, hfst e he]
        omega
      rw [hback, List.append_nil, List.filter_eq_self.mpr fun e he => by simpa using hes e he]
      simp
    · have hfront : es.filter (·.1 = k) = [] := by
        rw [List.filter_eq_nil_iff]
        intro e he
        rw [decide_eq_true_eq, hes e he]
        dsimp only
        omega
      rw [hfront, List.nil_append, ih hrest (by omega), show k - n = k - (n + 1) + 1 by omega,
        List.getElem?_cons_succ]

/-- The pairs are the branches of the part, each with the position it goes to. -/
def Resolves (c : Code) (first last : Nat) (targets : List (Nat × Nat)) : Prop :=
  ∀ src dst, (src, dst) ∈ targets ↔ (first ≤ src ∧ src ≤ last) ∧
    ∃ x label, c.instrs[src]? = some x ∧ x.target? = some label ∧ c.labelAt? first last label = some dst

theorem resolves_of_eq_ok {c : Code} (hc : c.Numbered) {name : String} {first last : Nat}
    (hl : last < c.instrs.size) {branches : List (Nat × OperandId)} {targets : List (Nat × Nat)}
    (hb : branchTargets (c.slice first last) = .ok branches)
    (ht : resolveTargets name (placedLabels (c.slice first last)) branches = .ok targets) :
    Resolves c first last targets := by
  intro src dst
  rw [mem_resolveTargets ht]
  simp only [mem_branchTargets hb, placedLabels_eq hc hl, Code.mem_slice]
  constructor
  · rintro ⟨label, ⟨x, ⟨i, h1, h2, hx⟩, hid, hlabel⟩, hd⟩
    obtain rfl : i = src := by rw [← hid, hc i x hx]
    exact ⟨⟨h1, h2⟩, x, label, hx, hlabel, hd⟩
  · rintro ⟨⟨h1, h2⟩, x, label, hx, hlabel, hd⟩
    exact ⟨label, ⟨x, ⟨src, h1, h2, hx⟩, hc src x hx, hlabel⟩, hd⟩

/-- What building the graph `g` of the part from `first` to `last` finds: the branches with the
positions they go to, the blocks and the edges. -/
structure Parts (c : Code) (first last : Nat) (targets : List (Nat × Nat)) (g : FlowGraph) : Prop where
  mem_targets : Resolves c first last targets
  blocks_eq : g.blocks = blocksFrom last (leaders c first last targets)
  head_eq : g.head = ((leaders c first last targets).idxOf? first).getD 0
  succ_eq : ∀ k b x, g.block? k = some b → c.instrs[b.last]? = some x →
    g.succ k = (exits (leaders c first last targets) targets k b.last x).foldl Digraph.pushNew []
  pred_eq : ∀ l, (∀ k, l ∉ g.succ k) → g.graph.pred l = []

theorem exists_parts {c : Code} (hc : c.Numbered) {name : String} {first last : Nat}
    (hl : last < c.instrs.size) {g : FlowGraph} (h : build c name first last = .ok g) :
    ∃ targets, Parts c first last targets g := by
  unfold build at h
  obtain ⟨branches, hb, h⟩ := Except.bind_eq_ok.mp h
  obtain ⟨targets, ht, h⟩ := Except.bind_eq_ok.mp h
  obtain ⟨edges, he, h⟩ := Except.bind_eq_ok.mp h
  simp only [pure, Except.pure, Except.ok.injEq] at h
  have hedges := mapM_forall₂ he
  have hsrc : List.Forall₂ (fun p es => ∀ e ∈ es, e.1 = p.2)
      ((blocksFrom last (leaders c first last targets)).zipIdx) edges := by
    refine hedges.imp fun p es hes e hmem => ?_
    obtain ⟨x, -, rfl⟩ := edgesOf_eq_ok hes
    obtain ⟨l, -, rfl⟩ := List.mem_map.mp hmem
    rfl
  have hblocks : g.blocks = blocksFrom last (leaders c first last targets) := by
    rw [← h]
    apply List.ext_getElem?
    intro k
    rw [blocks_getElem?, block?, Digraph.get?_linkAll, Digraph.get?_ofVals]
  have hblock : ∀ {k b}, g.block? k = some b → (blocksFrom last (leaders c first last targets))[k]? = some b := by
    intro k b hk
    rw [← hblocks, blocks_getElem?, hk]
  refine ⟨targets, resolves_of_eq_ok hc hl hb ht, hblocks, by rw [← h], ?_, ?_⟩
  · intro k b x hk hx
    have hlt : k < (blocksFrom last (leaders c first last targets)).length :=
      (List.getElem?_eq_some_iff.mp (hblock hk)).1
    obtain ⟨es, hes, hok⟩ := getElem?_of_forall₂ hedges (k := k) (a := (b, k))
      (by rw [List.getElem?_zipIdx, hblock hk, Nat.zero_add]; rfl)
    obtain ⟨y, hy, rfl⟩ := edgesOf_eq_ok hok
    obtain rfl : y = x := by simpa [hx] using hy.symm
    rw [← h, succ, Digraph.succ_linkAll _ _ (by rwa [Digraph.size_ofVals]), Digraph.succ_ofVals,
      filter_flatten_eq hsrc (Nat.zero_le k), Nat.sub_zero, hes, Option.getD_some, List.map_map]
    exact congrArg _ (List.map_id _)
  · intro l hno
    have hgraph : g.graph = (Digraph.ofVals (blocksFrom last (leaders c first last targets))).linkAll edges.flatten := by
      rw [← h]
    rw [hgraph, Digraph.pred_linkAll, Digraph.pred_ofVals]
    rintro ⟨k, l'⟩ hmem rfl
    obtain ⟨es, hes, hmem'⟩ := List.mem_flatten.mp hmem
    obtain ⟨p, hp, hfst⟩ := (mem_of_forall₂ hsrc).1 es hes
    have hlt := (List.mem_zipIdx hp).2.1
    refine hno k ?_
    have hk : k = p.2 := hfst _ hmem'
    rw [succ, hgraph, Digraph.mem_succ_linkAll, Digraph.size_ofVals]
    exact Or.inr ⟨hmem, by omega⟩

/-- A map filled from pairs in which no first part goes with two second parts holds just the pairs. -/
theorem foldl_insert_getElem? {ts : List (Nat × Nat)} (m : Std.ExtTreeMap Nat Nat) (src dst : Nat)
    (hf : ∀ d e, (src, d) ∈ ts → (src, e) ∈ ts → d = e) (hm : m[src]? = none) :
    (ts.foldl (fun m t => m.insert t.1 t.2) m)[src]? = some dst ↔ (src, dst) ∈ ts := by
  have key : ∀ (us : List (Nat × Nat)) (m : Std.ExtTreeMap Nat Nat),
      (us.foldl (fun m t => m.insert t.1 t.2) m)[src]? =
        ((us.filter (·.1 = src)).getLast?.map (·.2)).or m[src]? := by
    intro us
    induction us with
    | nil => simp
    | cons u us ih =>
      intro m
      rw [List.foldl_cons, ih, Std.ExtTreeMap.getElem?_insert]
      by_cases hu : u.1 = src
      · rw [List.filter_cons_of_pos (by simpa using hu), List.getLast?_cons, if_pos (by simp [hu])]
        cases (us.filter (·.1 = src)).getLast? <;> simp
      · rw [List.filter_cons_of_neg (by simpa using hu), if_neg (by simpa [Nat.compare_eq_eq] using hu)]
  rw [key, hm, Option.or_none]
  constructor
  · intro h
    obtain ⟨t, ht, rfl⟩ := Option.map_eq_some_iff.mp h
    have := List.mem_of_getLast? ht
    simp only [List.mem_filter, decide_eq_true_eq] at this
    rw [← this.2]
    exact this.1
  · intro h
    cases ht : (ts.filter (·.1 = src)).getLast? with
    | none =>
      have hn := List.getLast?_eq_none_iff.mp ht
      have : (src, dst) ∈ ts.filter (·.1 = src) := by simp [h]
      rw [hn] at this
      cases this
    | some t =>
      have := List.mem_of_getLast? ht
      simp only [List.mem_filter, decide_eq_true_eq] at this
      obtain ⟨hmem, rfl⟩ := this
      rw [Option.map_some, hf _ _ h hmem]

namespace Resolves

variable {c : Code} {first last : Nat} {targets : List (Nat × Nat)}

theorem leader_bounds (h : Resolves c first last targets) (hc : c.Numbered) (hfl : first ≤ last) {s : Nat}
    (hs : s ∈ leaders c first last targets) : first ≤ s ∧ s ≤ last := by
  rcases (mem_leaders c first last targets s).mp hs with rfl | ⟨i, hi, hlead⟩ | ⟨src, ht⟩
  · exact ⟨Nat.le_refl _, hfl⟩
  · obtain ⟨pos, h1, h2, hx⟩ := (Code.mem_slice c first last i).mp hi
    have hid := hc pos i hx
    rcases leader?_eq_some hlead with ⟨-, rfl⟩ | ⟨hlt, rfl, -⟩ <;> omega
  · obtain ⟨-, x, label, -, -, hd⟩ := (h src s).mp ht
    obtain ⟨h1, h2, -⟩ := Code.labelAt?_spec hd
    exact ⟨h1, h2⟩

theorem leaders_eq_cons (h : Resolves c first last targets) (hc : c.Numbered) (hfl : first ≤ last) :
    ∃ rest, leaders c first last targets = first :: rest :=
  exists_eq_cons_of_sorted (sorted_leaders c first last targets)
    ((mem_leaders c first last targets first).mpr (Or.inl rfl))
    fun _ hs => (h.leader_bounds hc hfl hs).1

theorem tiles (h : Resolves c first last targets) (hc : c.Numbered) (hfl : first ≤ last) :
    Tiles last first (blocksFrom last (leaders c first last targets)) := by
  obtain ⟨rest, hr⟩ := h.leaders_eq_cons hc hfl
  have hs := sorted_leaders c first last targets
  rw [hr] at hs ⊢
  exact tiles_blocksFrom hs fun s hm => (h.leader_bounds hc hfl (hr ▸ hm)).2

end Resolves

namespace Parts

variable {c : Code} {first last : Nat} {targets : List (Nat × Nat)} {g : FlowGraph}

theorem leader_breaks (hp : Parts c first last targets g) (hc : c.Numbered) {s : Nat}
    (hs : s ∈ leaders c first last targets) : s = first ∨ c.Breaks s := by
  rcases (mem_leaders c first last targets s).mp hs with rfl | ⟨i, hi, hlead⟩ | ⟨src, ht⟩
  · exact Or.inl rfl
  · obtain ⟨pos, -, -, hx⟩ := (Code.mem_slice c first last i).mp hi
    have hid := hc pos i hx
    rcases leader?_eq_some hlead with ⟨hop, rfl⟩ | ⟨-, rfl, hop⟩
    · exact Or.inr (Or.inl ⟨i, by rw [hid]; exact hx, hop⟩)
    · exact Or.inr (Or.inr ⟨pos, i, by omega, hx, hop⟩)
  · obtain ⟨-, x, label, -, -, hd⟩ := (hp.mem_targets src s).mp ht
    obtain ⟨-, -, y, hy, hop, -⟩ := Code.labelAt?_spec hd
    exact Or.inr (Or.inl ⟨y, hy, hop⟩)

theorem tiles (hp : Parts c first last targets g) (hc : c.Numbered) (hfl : first ≤ last) :
    Tiles last first g.blocks := by
  rw [hp.blocks_eq]
  exact hp.mem_targets.tiles hc hfl

theorem head_eq_zero (hp : Parts c first last targets g) (hc : c.Numbered) (hfl : first ≤ last) : g.head = 0 := by
  obtain ⟨rest, hr⟩ := hp.mem_targets.leaders_eq_cons hc hfl
  rw [hp.head_eq, hr]
  simp [List.idxOf?_cons]

theorem start_of_block (hp : Parts c first last targets g) {k : Nat} {b : Block} (hk : g.block? k = some b) :
    (leaders c first last targets)[k]? = some b.first := by
  have hk' : g.blocks[k]? = some b := by rw [blocks_getElem?, hk]
  rw [hp.blocks_eq] at hk'
  rw [← first_blocksFrom last (leaders c first last targets), List.getElem?_map, hk', Option.map_some]

theorem block_of_start (hp : Parts c first last targets g) {k s : Nat}
    (hk : (leaders c first last targets)[k]? = some s) : ∃ b, g.block? k = some b ∧ b.first = s := by
  rw [← first_blocksFrom last (leaders c first last targets), List.getElem?_map, ← hp.blocks_eq,
    Option.map_eq_some_iff, blocks_getElem?] at hk
  exact hk

theorem first_eq_of_leader (hp : Parts c first last targets g) (hc : c.Numbered) (hfl : first ≤ last) {k i : Nat}
    {b : Block} (hk : g.block? k = some b) (hbi : b.first ≤ i) (hib : i ≤ b.last)
    (hi : i ∈ leaders c first last targets) : b.first = i := by
  have ht := hp.tiles hc hfl
  obtain ⟨m, hm⟩ := List.mem_iff_getElem?.mp hi
  obtain ⟨d, hd, hdf⟩ := hp.block_of_start hm
  have hk' := (blocks_getElem? g k).trans hk
  have hd' := (blocks_getElem? g m).trans hd
  have hbounds := ht.bounds hd'
  obtain rfl := ht.unique hk' hd' (i := i) ⟨hbi, hib⟩ ⟨by omega, by omega⟩
  rw [hk] at hd
  cases hd
  exact hdf

theorem block_after (hp : Parts c first last targets g) (hc : c.Numbered) (hfl : first ≤ last) {k : Nat} {b : Block}
    (hk : g.block? k = some b) (hlt : b.last < last) : ∃ d, g.block? (k + 1) = some d ∧ d.first = b.last + 1 := by
  have ht := hp.tiles hc hfl
  have hk' := (blocks_getElem? g k).trans hk
  have hk1 : k + 1 < g.blocks.length := by
    by_contra hge
    have := ht.last_eq hk' (by omega)
    omega
  have hd : g.blocks[k + 1]? = some g.blocks[k + 1] := List.getElem?_eq_getElem hk1
  exact ⟨_, (blocks_getElem? g (k + 1)).symm.trans hd, ht.first_succ hk' hd⟩

theorem fallthrough_eq_some (hp : Parts c first last targets g) (hc : c.Numbered) (hfl : first ≤ last) {k l : Nat}
    {b : Block} (hk : g.block? k = some b) :
    (if k + 1 < (leaders c first last targets).length then some (k + 1) else none) = some l ↔
      ∃ d, g.block? l = some d ∧ d.first = b.last + 1 := by
  have ht := hp.tiles hc hfl
  have hk' := (blocks_getElem? g k).trans hk
  rw [Option.ite_none_right_eq_some, Option.some.injEq]
  constructor
  · rintro ⟨hlt, rfl⟩
    obtain ⟨d, hd, hdf⟩ := hp.block_of_start (List.getElem?_eq_getElem hlt)
    exact ⟨d, hd, ht.first_succ hk' ((blocks_getElem? g (k + 1)).trans hd)⟩
  · rintro ⟨d, hd, hdf⟩
    have hd' := (blocks_getElem? g l).trans hd
    have hbounds := ht.bounds hd'
    obtain ⟨e, he, hef⟩ := hp.block_after hc hfl hk (by omega)
    have he' := (blocks_getElem? g (k + 1)).trans he
    obtain rfl := ht.unique hd' he' (i := d.first) (by omega) (by have := ht.bounds he'; omega)
    exact ⟨(List.getElem?_eq_some_iff.mp (hp.start_of_block hd)).1, rfl⟩

theorem target_eq_some (hp : Parts c first last targets g) (src l : Nat) :
    (targets.foldl (fun m t => m.insert t.1 t.2) (∅ : Std.ExtTreeMap Nat Nat))[src]?.bind
      ((leaders c first last targets).idxOf? ·) = some l ↔
      ∃ d, g.block? l = some d ∧ (src, d.first) ∈ targets := by
  have hfun : ∀ d e, (src, d) ∈ targets → (src, e) ∈ targets → d = e := by
    intro d e hd he
    obtain ⟨-, x, label, hx, hl, hd⟩ := (hp.mem_targets src d).mp hd
    obtain ⟨-, y, label', hy, hl', he⟩ := (hp.mem_targets src e).mp he
    obtain rfl : y = x := by simpa [hx] using hy.symm
    obtain rfl : label' = label := by simpa [hl] using hl'.symm
    simpa [hd] using he
  have hidx : ∀ s, (leaders c first last targets).idxOf? s = some l ↔ (leaders c first last targets)[l]? = some s := by
    intro s
    rw [List.idxOf?_eq_some_iff, List.getElem?_eq_some_iff]
    constructor
    · rintro ⟨hlt, hget, -⟩
      exact ⟨hlt, hget⟩
    · rintro ⟨hlt, rfl⟩
      refine ⟨hlt, rfl, fun m hm => Nat.ne_of_lt ?_⟩
      exact List.pairwise_iff_getElem.mp (sorted_leaders c first last targets) m l _ hlt hm
  rw [Option.bind_eq_some_iff]
  simp only [foldl_insert_getElem? ∅ src _ hfun (by simp), hidx]
  constructor
  · rintro ⟨dst, hdst, hl⟩
    obtain ⟨d, hd, rfl⟩ := hp.block_of_start hl
    exact ⟨d, hd, hdst⟩
  · rintro ⟨d, hd, hdst⟩
    exact ⟨d.first, hdst, hp.start_of_block hd⟩

theorem mem_succ_iff (hp : Parts c first last targets g) (hc : c.Numbered) (hfl : first ≤ last) {k : Nat} {b : Block}
    {x : Instr} (hk : g.block? k = some b) (hx : c.instrs[b.last]? = some x) (l : Nat) :
    l ∈ g.succ k ↔ ∃ d, g.block? l = some d ∧ ((d.first = b.last + 1 ∧ x.isTransfer = false) ∨
      ∃ label, x.target? = some label ∧ c.labelAt? first last label = some d.first) := by
  have hbounds := (hp.tiles hc hfl).bounds ((blocks_getElem? g k).trans hk)
  have hdst : ∀ dst, (b.last, dst) ∈ targets ↔
      ∃ label, x.target? = some label ∧ c.labelAt? first last label = some dst := by
    intro dst
    rw [hp.mem_targets]
    constructor
    · rintro ⟨-, y, label, hy, h⟩
      obtain rfl : y = x := by simpa [hx] using hy.symm
      exact ⟨label, h⟩
    · rintro ⟨label, h⟩
      exact ⟨by omega, x, label, hx, h⟩
  have hfall := hp.fallthrough_eq_some hc hfl (l := l) hk
  have htarget := hp.target_eq_some b.last l
  simp only [hdst] at htarget
  rw [hp.succ_eq k b x hk hx, Digraph.mem_foldl_pushNew, or_iff_right (by simp), exits, mem_successors, hfall, htarget]
  constructor
  · rintro (⟨⟨d, hd, hdf⟩, hnt⟩ | ⟨⟨d, hd, hto⟩, -⟩)
    · exact ⟨d, hd, Or.inl ⟨hdf, hnt⟩⟩
    · exact ⟨d, hd, Or.inr hto⟩
  · rintro ⟨d, hd, ⟨hdf, hnt⟩ | ⟨label, hl, hplace⟩⟩
    · exact Or.inl ⟨⟨d, hd, hdf⟩, hnt⟩
    · exact Or.inr ⟨⟨d, hd, label, hl, hplace⟩, Instr.op_of_target? hl⟩

theorem last_eq_of_target (hp : Parts c first last targets g) (hc : c.Numbered) (hfl : first ≤ last)
    {k i : Nat} {b : Block} {x : Instr} {label : OperandId} (hk : g.block? k = some b) (hbi : b.first ≤ i)
    (hib : i ≤ b.last) (hx : c.instrs[i]? = some x) (hl : x.target? = some label) : b.last = i := by
  have hbounds := (hp.tiles hc hfl).bounds ((blocks_getElem? g k).trans hk)
  by_contra hne
  have hop := Instr.op_of_target? hl
  have hid := hc i x hx
  -- otherwise the position after the branch starts another block inside this one
  have hm : i + 1 ∈ leaders c first last targets := by
    refine (mem_leaders c first last targets (i + 1)).mpr (Or.inr (Or.inl ⟨x, ?_, ?_⟩))
    · exact (Code.mem_slice c first last x).mpr ⟨i, by omega, by omega, hx⟩
    · rcases hop with hop | hop <;> simp [leader?, hop, hid] <;> omega
  have := hp.first_eq_of_leader hc hfl hk (by omega) (by omega) hm
  omega

theorem follows_of_next (hp : Parts c first last targets g) (hc : c.Numbered) (hfl : first ≤ last)
    {i j : Nat} (h : c.Next first last i j) : g.Follows i j := by
  obtain ⟨⟨hfi, hil, -, hjl⟩, x, hx, h⟩ := h
  obtain ⟨k, b, hk', hbi, hib⟩ := (hp.tiles hc hfl).cover hfi hil
  have hk : g.block? k = some b := by rw [← blocks_getElem?, hk']
  rcases h with ⟨rfl, hnt⟩ | ⟨label, hl, hj⟩
  · by_cases hlast : i < b.last
    · exact Or.inl ⟨k, b, hk, hbi, hlast, rfl⟩
    · obtain rfl : b.last = i := by omega
      obtain ⟨d, hd, hdf⟩ := hp.block_after hc hfl hk (by omega)
      refine Or.inr ⟨k, k + 1, b, d, hk, rfl, ?_, hd, hdf⟩
      exact (hp.mem_succ_iff hc hfl hk hx _).mpr ⟨d, hd, Or.inl ⟨hdf, hnt⟩⟩
  · obtain rfl := hp.last_eq_of_target hc hfl hk hbi hib hx hl
    have hdst : (b.last, j) ∈ targets := (hp.mem_targets b.last j).mpr ⟨⟨hfi, hil⟩, x, label, hx, hl, hj⟩
    obtain ⟨l, hl'⟩ := List.mem_iff_getElem?.mp
      ((mem_leaders c first last targets j).mpr (Or.inr (Or.inr ⟨b.last, hdst⟩)))
    obtain ⟨d, hd, rfl⟩ := hp.block_of_start hl'
    refine Or.inr ⟨k, l, b, d, hk, rfl, ?_, hd, rfl⟩
    exact (hp.mem_succ_iff hc hfl hk hx l).mpr ⟨d, hd, Or.inr ⟨label, hl, hj⟩⟩

theorem succ_ne_zero (hp : Parts c first last targets g) (hc : c.Numbered) (hfl : first ≤ last)
    (hl : last < c.instrs.size) (hhead : ∀ x, c.instrs[first]? = some x → x.op ≠ .label) {k l : Nat} {b : Block}
    (hk : g.block? k = some b) (h : l ∈ g.succ k) : l ≠ 0 := by
  rintro rfl
  have ht := hp.tiles hc hfl
  have hbounds := ht.bounds ((blocks_getElem? g k).trans hk)
  obtain ⟨x, hx⟩ : ∃ x, c.instrs[b.last]? = some x := ⟨_, Array.getElem?_eq_getElem (by omega)⟩
  obtain ⟨d, hd, hto⟩ := (hp.mem_succ_iff hc hfl hk hx 0).mp h
  have hdf : d.first = first := ht.first_eq ((blocks_getElem? g 0).trans hd)
  rcases hto with ⟨hafter, -⟩ | ⟨label, -, hplace⟩
  · omega
  · obtain ⟨-, -, y, hy, hop, -⟩ := Code.labelAt?_spec hplace
    exact hhead y (hdf ▸ hy) hop

end Parts

end FlowGraph

end MiddleEnd
