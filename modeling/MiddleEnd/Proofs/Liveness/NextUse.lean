import MiddleEnd.Proofs.Liveness.Analysis
import MiddleEnd.Proofs.Liveness.Stable
import Mathlib.Order.Bounds.Basic

/-! Next uses. The uses and definitions of a block are found by going forward over it, its next uses by going
backward, from what is live after it. The two agree, for any live sets that the passes end with. -/

namespace MiddleEnd

theorem NextUse.getElem?_insertMany_map (t : NextUse) (l : List OperandId) (u : UseInfo) (x : OperandId) :
    (t.insertMany (l.map fun y => (y, u)))[x]? = if x ∈ l then some u else t[x]? := by
  induction l generalizing t with
  | nil => simp
  | cons y l ih =>
    rw [List.map_cons, Std.ExtTreeMap.insertMany_cons, ih, Std.ExtTreeMap.getElem?_insert]
    simp only [Nat.compare_eq_eq, List.mem_cons, eq_comm (a := y)]
    split_ifs <;> simp_all

namespace Scan

variable (a : Arena)

theorem nextUse_nil (first : Nat) (out : LiveSet) (x : OperandId) :
    (run a first [] out).nextUse[x]? = if x ∈ out then some ⟨true, none⟩ else none := by
  rw [run_nil, start, Std.ExtTreeMap.ofList_eq_insertMany_empty, NextUse.getElem?_insertMany_map]
  simp

theorem nextUse_cons (first : Nat) (i : Instr) (is : List Instr) (out : LiveSet) (x : OperandId) :
    (run a first (i :: is) out).nextUse[x]? =
      if x ∈ i.reads a then some ⟨true, some first⟩
      else if i.writes? a = some x then some ⟨false, none⟩
      else (run a (first + 1) is out).nextUse[x]? := by
  rw [run_cons, step, NextUse.getElem?_insertMany_map]
  congr 1
  cases i.writes? a with
  | none => simp
  | some d => simp [Std.ExtTreeMap.getElem?_insert]

/-- `x` is read at position `p` by instructions that stand from position `first` on. -/
def ReadAt (first : Nat) (is : List Instr) (x : OperandId) (p : Nat) : Prop :=
  ∃ k z, p = first + k ∧ is[k]? = some z ∧ x ∈ z.reads a

variable {a}

theorem ReadAt.le {first p : Nat} {is : List Instr} {x : OperandId} (h : ReadAt a first is x p) : first ≤ p := by
  obtain ⟨k, -, rfl, -⟩ := h
  exact Nat.le_add_right first k

theorem readAt_cons {first p : Nat} {i : Instr} {is : List Instr} {x : OperandId} :
    ReadAt a first (i :: is) x p ↔ (p = first ∧ x ∈ i.reads a) ∨ ReadAt a (first + 1) is x p := by
  constructor
  · rintro ⟨k, z, rfl, hz, hx⟩
    cases k with
    | zero =>
      obtain rfl : i = z := by simpa using hz
      exact Or.inl ⟨rfl, hx⟩
    | succ k => exact Or.inr ⟨k, z, by omega, by simpa using hz, hx⟩
  · rintro (⟨rfl, hx⟩ | ⟨k, z, rfl, hz, hx⟩)
    · exact ⟨0, i, rfl, rfl, hx⟩
    · exact ⟨k + 1, z, by omega, by simpa using hz, hx⟩

variable (a) (first : Nat) (is : List Instr) (out : LiveSet) (x : OperandId)

theorem nextUse_isSome_iff : (run a first is out).nextUse[x]?.isSome = true ↔
    x ∈ out ∨ ∃ z ∈ is, x ∈ z.reads a ∨ z.writes? a = some x := by
  induction is generalizing first with
  | nil => by_cases hx : x ∈ out <;> simp [nextUse_nil, hx]
  | cons i is ih =>
    rw [nextUse_cons, List.exists_mem_cons_iff]
    by_cases hr : x ∈ i.reads a
    · simp [hr]
    by_cases hw : i.writes? a = some x
    · simp [hr, hw]
    rw [if_neg hr, if_neg hw, ih]
    simp only [hr, hw, or_self, false_or]

/-- What is known of `x` before instructions that stand from position `first` on, if `out` is live after them. -/
inductive Told : Nat → List Instr → UseInfo → Prop
  | after {first : Nat} (hx : x ∈ out) : Told first [] ⟨true, none⟩
  | read {first : Nat} {i : Instr} {is : List Instr} (hr : x ∈ i.reads a) : Told first (i :: is) ⟨true, some first⟩
  | written {first : Nat} {i : Instr} {is : List Instr} (hr : x ∉ i.reads a) (hw : i.writes? a = some x) :
      Told first (i :: is) ⟨false, none⟩
  | later {first : Nat} {i : Instr} {is : List Instr} {u : UseInfo} (hr : x ∉ i.reads a) (hw : i.writes? a ≠ some x)
      (h : Told (first + 1) is u) : Told first (i :: is) u

variable {a first is out x} {u : UseInfo}

theorem told_of_nextUse (hu : (run a first is out).nextUse[x]? = some u) : Told a out x first is u := by
  induction is generalizing first with
  | nil =>
    rw [nextUse_nil] at hu
    split at hu
    case isTrue hx =>
      cases hu
      exact .after hx
    case isFalse => cases hu
  | cons i is ih =>
    rw [nextUse_cons] at hu
    split at hu
    case isTrue hr =>
      cases hu
      exact .read hr
    case isFalse hr =>
      split at hu
      case isTrue hw =>
        cases hu
        exact .written hr hw
      case isFalse hw => exact .later hr hw (ih hu)

namespace Told

theorem live_iff (h : Told a out x first is u) : u.live = true ↔ x ∈ (run a first is out).live := by
  induction h with
  | after hx => exact iff_of_true rfl hx
  | read hr =>
    rw [live_cons, Instr.mem_before]
    exact iff_of_true rfl (Or.inl hr)
  | written hr hw =>
    rw [live_cons, Instr.mem_before]
    simp [hr, hw]
  | later hr hw _ ih => rw [live_cons, Instr.mem_before, ih, or_iff_right hr, and_iff_left hw]

theorem isSome_iff (h : Told a out x first is u) : u.nextUse.isSome = true ↔ x ∈ (localSets a is).1 := by
  induction h with
  | after => simp [localSets]
  | read hr =>
    rw [mem_uses_cons]
    exact iff_of_true rfl (Or.inl hr)
  | written hr hw =>
    rw [mem_uses_cons]
    simp [hr, hw]
  | later hr hw _ ih => rw [mem_uses_cons, ih, or_iff_right hr, and_iff_left hw]

theorem isLeast {p : Nat} (h : Told a out x first is u) (hp : u.nextUse = some p) :
    IsLeast {q | ReadAt a first is x q} p := by
  induction h with
  | after | written => cases hp
  | @read first i is hr =>
    obtain rfl : first = p := Option.some.inj hp
    exact ⟨readAt_cons.mpr (Or.inl ⟨rfl, hr⟩), fun q hq => hq.le⟩
  | @later first i is u hr hw _ ih =>
    have htail : ∀ q, ReadAt a first (i :: is) x q ↔ ReadAt a (first + 1) is x q := by
      intro q
      rw [readAt_cons, or_iff_right fun h => hr h.2]
    simpa only [htail] using ih hp

end Told

end Scan

namespace Code

/-- The block `b` reads `x` at position `i`. -/
def ReadsIn (c : Code) (b : Block) (x : OperandId) (i : Nat) : Prop :=
  b.first ≤ i ∧ i ≤ b.last ∧ ∃ z, c.instrs[i]? = some z ∧ x ∈ z.reads c.operands

/-- The block `b` writes `x` at position `i`. -/
def WritesIn (c : Code) (b : Block) (x : OperandId) (i : Nat) : Prop :=
  b.first ≤ i ∧ i ≤ b.last ∧ ∃ z, c.instrs[i]? = some z ∧ z.writes? c.operands = some x

/-- The next uses of the block `b` agree with its sets. -/
structure NotesUses (c : Code) (b : Block) : Prop where
  scan : (Scan.run c.operands b.first (c.slice b.first b.last) b.liveOut).live = b.liveIn
  noted : ∀ x, b.nextUse[x]?.isSome = true ↔ x ∈ b.liveOut ∨ ∃ i, c.ReadsIn b x i ∨ c.WritesIn b x i
  live : ∀ x u, b.nextUse[x]? = some u → (u.live = true ↔ x ∈ b.liveIn)
  next : ∀ x u, b.nextUse[x]? = some u →
    ∀ i, u.nextUse = some i ↔ x ∈ b.uses ∧ IsLeast {j | c.ReadsIn b x j} i
  unread : ∀ x u, b.nextUse[x]? = some u → (u.nextUse = none ↔ x ∉ b.uses)

theorem readAt_slice {c : Code} {b : Block} {x : OperandId} {i : Nat} :
    Scan.ReadAt c.operands b.first (c.slice b.first b.last) x i ↔ c.ReadsIn b x i := by
  constructor
  · rintro ⟨k, z, rfl, hz, hx⟩
    rw [slice_getElem?] at hz
    split at hz
    case isTrue hk => exact ⟨Nat.le_add_right _ _, hk, z, hz, hx⟩
    case isFalse => cases hz
  · rintro ⟨hf, hl, z, hz, hx⟩
    refine ⟨i - b.first, z, by omega, ?_, hx⟩
    rw [slice_getElem?, show b.first + (i - b.first) = i by omega, if_pos hl, hz]

/-- The block `b` with the next uses that its scan finds. -/
def noted (c : Code) (b : Block) : Block :=
  { b with nextUse := (Scan.run c.operands b.first (c.slice b.first b.last) b.liveOut).nextUse }

theorem Alike.noted {c d : Code} (h : c.Alike d) (b : Block) : d.noted b = c.noted b := by
  rw [Code.noted, Code.noted, h.scan]

theorem notesUses_noted {c : Code} {b : Block}
    (hscan : (Scan.run c.operands b.first (c.slice b.first b.last) b.liveOut).live = b.liveIn)
    (huses : b.uses = (localSets c.operands (c.slice b.first b.last)).1) : c.NotesUses (c.noted b) where
  scan := hscan
  noted x := by
    refine (Scan.nextUse_isSome_iff _ _ _ _ _).trans (or_congr_right ?_)
    constructor
    · rintro ⟨z, hz, hx⟩
      obtain ⟨i, hf, hl, hi⟩ := (mem_slice c _ _ z).mp hz
      exact ⟨i, hx.imp (fun hx => ⟨hf, hl, z, hi, hx⟩) fun hx => ⟨hf, hl, z, hi, hx⟩⟩
    · rintro ⟨i, ⟨hf, hl, z, hi, hx⟩ | ⟨hf, hl, z, hi, hx⟩⟩
      · exact ⟨z, (mem_slice c _ _ z).mpr ⟨i, hf, hl, hi⟩, Or.inl hx⟩
      · exact ⟨z, (mem_slice c _ _ z).mpr ⟨i, hf, hl, hi⟩, Or.inr hx⟩
  live x u hu := by
    rw [(Scan.told_of_nextUse hu).live_iff, hscan]
    rfl
  next x u hu i := by
    have htold := Scan.told_of_nextUse hu
    have hleast : ∀ p, u.nextUse = some p → IsLeast {j | c.ReadsIn b x j} p := by
      intro p hp
      simpa only [readAt_slice] using htold.isLeast hp
    change _ ↔ x ∈ b.uses ∧ IsLeast {j | c.ReadsIn b x j} i
    rw [huses, ← htold.isSome_iff]
    constructor
    · intro hi
      exact ⟨by rw [hi, Option.isSome_some], hleast i hi⟩
    · rintro ⟨hs, hi⟩
      obtain ⟨p, hp⟩ := Option.isSome_iff_exists.mp hs
      rw [hp, (hleast p hp).unique hi]
  unread x u hu := by
    change _ ↔ x ∉ b.uses
    rw [huses, ← (Scan.told_of_nextUse hu).isSome_iff, Option.not_isSome_iff_eq_none]

theorem exists_annotate {c : Code} {g : FlowGraph} {k : Nat} (hg : ∀ b, g.block? k = some b →
      (Scan.run c.operands b.first (c.slice b.first b.last) b.liveOut).live = b.liveIn) :
    ∃ d h, annotate (c, g) k = .ok (d, h) ∧ c.Alike d ∧
      ∀ j, h.block? j = (g.block? j).map fun b => if j = k then c.noted b else b := by
  cases hk : g.block? k with
  | none =>
    refine ⟨c, g, by simp only [annotate, hk], Alike.refl c, fun j => ?_⟩
    by_cases hj : j = k
    · rw [hj, hk, Option.map_none]
    · simp only [hj, if_false, Option.map_id']
  | some b =>
    refine ⟨_, _, annotate_eq hk (hg b hk), setLiveOuts_alike c _ _, fun j => ?_⟩
    refine (Digraph.get?_modify g.graph k _ j).trans ?_
    by_cases hj : j = k
    · have hb : g.graph.get? j = some b := hj ▸ hk
      rw [if_pos hj.symm, FlowGraph.block?, hb, Option.map_some, Option.map_some, if_pos hj]
      rfl
    · rw [if_neg (Ne.symm hj)]
      simp only [hj, if_false, Option.map_id', FlowGraph.block?]

/-- Where every block's set on entry is the one that its scan arrives at, the scans get through, whatever blocks
share instructions, and note the next uses of the blocks they are made for. -/
theorem foldlM_annotate {c : Code} {g : FlowGraph} (hg : ∀ k b, g.block? k = some b →
      (Scan.run c.operands b.first (c.slice b.first b.last) b.liveOut).live = b.liveIn) (ks : List Nat) :
    ∃ d h, ks.foldlM annotate (c, g) = .ok (d, h) ∧
      ∀ k, h.block? k = (g.block? k).map fun b => if k ∈ ks then c.noted b else b := by
  induction ks generalizing c g with
  | nil => exact ⟨c, g, rfl, by simp⟩
  | cons k ks ih =>
    obtain ⟨c', g', hstep, halike, hblock⟩ := exists_annotate (hg k)
    have hg' : ∀ j e, g'.block? j = some e →
        (Scan.run c'.operands e.first (c'.slice e.first e.last) e.liveOut).live = e.liveIn := by
      intro j e he
      rw [hblock, Option.map_eq_some_iff] at he
      obtain ⟨e, he, rfl⟩ := he
      rw [halike.scan]
      split <;> exact hg j e he
    obtain ⟨d, h, hrun, hblocks⟩ := ih hg'
    refine ⟨d, h, Except.bind_eq_ok.mpr ⟨(c', g'), hstep, hrun⟩, fun j => ?_⟩
    rw [hblocks, hblock, Option.map_map]
    congr 1
    funext e
    simp only [Function.comp_apply, halike.noted, List.mem_cons]
    by_cases hj : j = k
    · rw [if_pos hj, if_pos (Or.inl hj)]
      split <;> rfl
    · simp only [hj, if_false, false_or]

theorem scan_of_fixed {c : Code} {g h : FlowGraph} (hbare : h.bare = (c.withLocalSets g).bare) (hpass : h.pass = h)
    {k : Nat} {b : Block} (hk : h.block? k = some b) :
    (Scan.run c.operands b.first (c.slice b.first b.last) b.liveOut).live = b.liveIn ∧
      b.uses = (localSets c.operands (c.slice b.first b.last)).1 := by
  obtain ⟨d, hd, hf, hl, hu, hdef⟩ := FlowGraph.block?_of_bare hbare hk
  obtain ⟨e, he, rfl⟩ := Option.map_eq_some_iff.mp ((block?_withLocalSets c g k).symm.trans hd)
  dsimp only at hf hl hu hdef
  rw [hf, hl] at hu hdef
  refine ⟨?_, hu.symm⟩
  obtain ⟨-, hin⟩ := FlowGraph.block_of_fixed hpass hk
  ext x
  rw [Scan.mem_live_run, hin, Std.ExtTreeSet.mem_union_iff, Std.ExtTreeSet.mem_diff_iff, hu, hdef]

theorem analyze_of_endsIn {c : Code} {g h : FlowGraph} {n : Nat} (hholds : ∀ b ∈ g.blocks, c.holds b = true)
    (hends : (c.withLocalSets g).EndsIn n h) : ∃ an, c.analyze g = .ok an ∧
      ∀ k, an.flow.block? k = (h.block? k).map c.noted := by
  obtain ⟨d, h', hrun, hblocks⟩ :=
    foldlM_annotate (fun k b hk => (scan_of_fixed hends.bare_eq hends.pass_eq hk).1) h.graph.ids
  refine ⟨⟨n, d, h'⟩, ?_, fun k => ?_⟩
  · unfold analyze
    rw [if_neg (by simpa using hholds), FlowGraph.solve_eq_some_iff.mpr hends]
    exact Except.bind_eq_ok.mpr ⟨(d, h'), hrun, rfl⟩
  · rw [hblocks k]
    cases hk : h.block? k with
    | none => rfl
    | some b =>
      have hmem : k ∈ h.graph.ids := List.mem_range.mpr (FlowGraph.lt_size hk)
      rw [Option.map_some, Option.map_some, if_pos hmem]

theorem endsIn_of_analyze {c : Code} {g : FlowGraph} {an : Analysis} (han : c.analyze g = .ok an) :
    (∀ b ∈ g.blocks, c.holds b = true) ∧ ∃ n h, (c.withLocalSets g).EndsIn n h := by
  unfold analyze at han
  split at han
  case isTrue => cases han
  case isFalse hholds =>
    split at han
    case h_1 => cases han
    case h_2 n h hsolve => exact ⟨by simpa using hholds, n, h, FlowGraph.solve_eq_some_iff.mp hsolve⟩

/-- Next uses agree with the sets of the blocks. Liveness gets through, whatever is claimed to be live at the start,
as soon as the blocks lie in the table and the passes come to an end. Then every block is where it was, going
backward over it from what is live after it arrives at what is live before it, and its next uses are of the values
that it reads or writes or that are live after it: each says whether the value is live on entry, and the first
position that reads the value if the block uses it and no position if it does not. -/
theorem next_uses_agree_with_block_sets (c : Code) (g : FlowGraph) :
    ((∃ an, c.analyze g = .ok an) ↔ (∀ b ∈ g.blocks, c.holds b = true) ∧ (c.withLocalSets g).Settles) ∧
      ∀ an, c.analyze g = .ok an →
        (∀ k, (an.flow.block? k).map (fun b => (b.first, b.last)) = (g.block? k).map fun b => (b.first, b.last)) ∧
          ∀ k b, an.flow.block? k = some b → c.NotesUses b := by
  constructor
  · constructor
    · rintro ⟨an, han⟩
      obtain ⟨hholds, n, h, hends⟩ := endsIn_of_analyze han
      exact ⟨hholds, hends.settles⟩
    · rintro ⟨hholds, hsettles⟩
      obtain ⟨⟨n, h⟩, hsolve⟩ := Option.isSome_iff_exists.mp ((FlowGraph.solve_isSome_iff _).mpr hsettles)
      obtain ⟨an, han, -⟩ := analyze_of_endsIn hholds (FlowGraph.solve_eq_some_iff.mp hsolve)
      exact ⟨an, han⟩
  · intro an han
    obtain ⟨hholds, n, h, hends⟩ := endsIn_of_analyze han
    obtain ⟨an', han', hblocks⟩ := analyze_of_endsIn hholds hends
    obtain rfl : an' = an := Except.ok.inj (han'.symm.trans han)
    constructor
    · intro k
      -- neither passes nor scans move a block
      have hrange : ∀ f : FlowGraph, (f.block? k).map (fun b => (b.first, b.last)) =
          (f.bare.block? k).map fun b => (b.first, b.last) := by
        intro f
        rw [FlowGraph.block?_bare, Option.map_map]
        rfl
      rw [hblocks, Option.map_map]
      refine (hrange h).trans ?_
      rw [hends.bare_eq, ← hrange, block?_withLocalSets, Option.map_map]
      rfl
    · intro k b hk
      obtain ⟨e, he, rfl⟩ := Option.map_eq_some_iff.mp ((hblocks k).symm.trans hk)
      obtain ⟨hscan, huses⟩ := scan_of_fixed hends.bare_eq hends.pass_eq he
      exact notesUses_noted hscan huses

end Code

/-- A loop with a value of each kind: `u` is read where it is written, `v` is only read, `w` passes through, and `t`
is written before it is read:

    f:
    L0:
      t = v
      u = u - t
      t = u + u
      if !t goto L0
      return w -/
def shuttle : Code where
  instrs := #[
    { id := 0, op := .header, result := some 0 },
    { id := 1, op := .label, left := some 5 },
    { id := 2, op := .assign, result := some 4, left := some 2 },
    { id := 3, op := .binary (.arith .sub), result := some 1, left := some 1, right := some 4 },
    { id := 4, op := .binary (.arith .add), result := some 4, left := some 1, right := some 1 },
    { id := 5, op := .branch, left := some 4, right := some 5 },
    { id := 6, op := .ret, left := some 3 }]
  operands.operands := #[
    { kind := .symbol 0, isValue := false },
    { kind := .symbol 1, isValue := true },
    { kind := .symbol 2, isValue := true },
    { kind := .symbol 3, isValue := true },
    { kind := .symbol 4, isValue := true },
    { kind := .label ⟨0⟩, isValue := false }]

def shuttleFlow : FlowGraph := (FlowGraph.build shuttle "f" 0 6).toOption.getD {}

theorem shuttle_next_uses : ∃ an b, shuttle.analyze shuttleFlow = .ok an ∧ an.flow.block? 1 = some b ∧
    shuttle.NotesUses b ∧ b.nextUse.toList =
      [(1, ⟨true, some 3⟩), (2, ⟨true, some 2⟩), (3, ⟨true, none⟩), (4, ⟨false, none⟩)] := by
  have hrun : ((shuttle.analyze shuttleFlow).toOption.bind fun an => an.flow.block? 1).map (·.nextUse.toList) =
      some [(1, ⟨true, some 3⟩), (2, ⟨true, some 2⟩), (3, ⟨true, none⟩), (4, ⟨false, none⟩)] := by
    decide +kernel
  obtain ⟨b, hbind, hnext⟩ := Option.map_eq_some_iff.mp hrun
  obtain ⟨an, han, hb⟩ := Option.bind_eq_some_iff.mp hbind
  have hok : shuttle.analyze shuttleFlow = .ok an := by
    cases h : shuttle.analyze shuttleFlow with
    | error e => rw [h] at han; cases han
    | ok an' => rw [h] at han; cases han; rfl
  obtain ⟨-, hall⟩ := Code.next_uses_agree_with_block_sets shuttle shuttleFlow
  exact ⟨an, b, hok, hb, (hall an hok).2 1 b hb, hnext⟩

end MiddleEnd
