import MiddleEnd.Proofs.Arena
import MiddleEnd.Proofs.Flow.ControlFlow

/-! Which tables cannot be cut into functions. A table has to start with a header, and every branch has to go
to a label of its own function. Where that is not so, the first thing that is wrong is reported: the functions
are taken in order, and in each of them branches that have no target come before branches to nowhere. -/

namespace MiddleEnd

namespace Code

/-- The function `name` with symbol `id` starts at a position: a header stands there, and its operand is a symbol
of function type. -/
def Heads (symbols : SymbolTable) (c : Code) (pos : Nat) (id : SymbolId) (name : String) : Prop :=
  ∃ x o operand s, c.instrs[pos]? = some x ∧ x.op = .header ∧ x.result = some o ∧ c.operands.get? o = some operand ∧
    operand.symbol? = some id ∧ symbols.get? id = some s ∧ s.ty.isFunction = true ∧ s.name = name

/-- The branch at a position has no target. -/
def Aimless (c : Code) (pos : Nat) : Prop :=
  ∃ x, c.instrs[pos]? = some x ∧ (x.op = .jump ∨ x.op = .branch) ∧ x.target? = none

/-- The branch at a position has a target that no label from `first` to `last` places. -/
def Astray (c : Code) (first last pos : Nat) : Prop :=
  ∃ x label, c.instrs[pos]? = some x ∧ (x.op = .jump ∨ x.op = .branch) ∧ x.target? = some label ∧
    ∀ j, first ≤ j → j ≤ last → ¬ c.places label j

/-- Every symbol that an operand stands for is declared. -/
def Declared (symbols : SymbolTable) (c : Code) : Prop :=
  ∀ y o id, c.operands.get? y = some o → o.symbol? = some id → ∃ s, symbols.get? id = some s

theorem heads_iff {symbols : SymbolTable} {c : Code} {pos : Nat} {id : SymbolId} {name : String} :
    c.Heads symbols pos id name ↔ (pos, id, name) ∈ c.headers symbols := by
  rw [mem_headers]
  constructor
  · rintro ⟨x, o, operand, s, hx, hop, h⟩
    exact ⟨x, hx, header?_eq_some.mpr ⟨hop, o, operand, s, h⟩⟩
  · rintro ⟨x, hx, h⟩
    obtain ⟨hop, o, operand, s, h⟩ := header?_eq_some.mp h
    exact ⟨x, o, operand, s, hx, hop, h⟩

end Code

/-- The piece reaches from its header to right before the next one, or to the end of the table. -/
structure Piece.Whole (symbols : SymbolTable) (c : Code) (p : Piece) : Prop where
  head : c.Heads symbols p.first p.symbol p.name
  first_le : p.first ≤ p.last
  last_lt : p.last < c.instrs.size
  only : ∀ i id name, p.first < i → i ≤ p.last → ¬ c.Heads symbols i id name
  stop : p.last + 1 = c.instrs.size ∨ ∃ id name, c.Heads symbols (p.last + 1) id name

/-- What is wrong with a piece: its first branch without a target or, if all branches have one, its first branch
whose target the piece does not place. -/
inductive Piece.Flaw (c : Code) (p : Piece) : FlowError → Prop
  | missing {i : Nat} (hf : p.first ≤ i) (hl : i ≤ p.last) (h : c.Aimless i)
      (hbefore : ∀ j, p.first ≤ j → j < i → ¬ c.Aimless j) : Flaw c p (.missingTarget i)
  | unresolved {i : Nat} (hall : ∀ j, p.first ≤ j → j ≤ p.last → ¬ c.Aimless j) (hf : p.first ≤ i) (hl : i ≤ p.last)
      (h : c.Astray p.first p.last i) (hbefore : ∀ j, p.first ≤ j → j < i → ¬ c.Astray p.first p.last j) :
      Flaw c p (.unresolvedLabel p.name i)

/-- What is wrong with a table: it starts with no function, or else what is wrong with the first of its pieces with
which something is. -/
inductive Code.Malformed (symbols : SymbolTable) (c : Code) : FlowError → Prop
  | orphan (hsize : c.instrs.size ≠ 0) (h : ∀ id name, ¬ c.Heads symbols 0 id name) :
      Malformed symbols c (.orphanInstruction 0)
  | piece {p : Piece} {e : FlowError} (hstart : ∃ id name, c.Heads symbols 0 id name) (hp : p.Whole symbols c)
      (hbefore : ∀ q : Piece, q.Whole symbols c → q.first < p.first → c.TargetsPlaced q.first q.last)
      (he : p.Flaw c e) : Malformed symbols c e

/-! ### The branches of a piece -/

namespace FlowGraph

theorem branchTargets_eq (is : List Instr) : branchTargets is =
    (is.filter fun i => i.op = .jump || i.op = .branch).mapM fun i =>
      i.target?.elim (.error (.missingTarget i.id)) fun label => .ok (i.id, label) := by
  induction is with
  | nil => rfl
  | cons i is ih =>
    rw [branchTargets, List.filter_cons]
    split
    case isTrue hop =>
      rw [List.mapM_cons, ← ih]
      cases i.target? with
      | none => rfl
      | some label => rfl
    case isFalse hop => exact ih

theorem resolveTargets_eq (name : String) (labels : Std.ExtTreeMap OperandId Nat) (bs : List (Nat × OperandId)) :
    resolveTargets name labels bs = bs.mapM fun b =>
      labels[b.2]?.elim (.error (.unresolvedLabel name b.1)) fun dst => .ok (b.1, dst) := by
  induction bs with
  | nil => rfl
  | cons b bs ih =>
    rw [resolveTargets, List.mapM_cons, ← ih]
    cases labels[b.2]? with
    | none => rfl
    | some dst => rfl

section Branches

variable {c : Code} {first last : Nat}

theorem sorted_slice (hc : c.Numbered) (first last : Nat) : (c.slice first last).Pairwise fun x y => x.id < y.id := by
  rw [List.pairwise_iff_getElem]
  intro i j hi hj hij
  have hx := List.getElem?_eq_getElem hi
  have hy := List.getElem?_eq_getElem hj
  rw [Code.slice_getElem?, Option.ite_none_right_eq_some] at hx hy
  rw [hc _ _ hx.2, hc _ _ hy.2]
  omega

theorem branchTargets_eq_error_iff (hc : c.Numbered) {e : FlowError} :
    branchTargets (c.slice first last) = .error e ↔ ∃ i, e = .missingTarget i ∧ first ≤ i ∧ i ≤ last ∧ c.Aimless i ∧
      ∀ j, first ≤ j → j < i → ¬ c.Aimless j := by
  have haimless : ∀ {i x}, c.instrs[i]? = some x → (x.op = .jump ∨ x.op = .branch) →
      (c.Aimless i ↔ x.target? = none) := by
    intro i x hx hop
    constructor
    · rintro ⟨y, hy, -, hnone⟩
      rwa [Option.some.inj (hx.symm.trans hy)]
    · exact fun hnone => ⟨x, hx, hop, hnone⟩
  rw [branchTargets_eq, mapM_eq_error_iff ((sorted_slice hc first last).filter _)]
  simp only [List.mem_filter, Code.mem_slice, Bool.or_eq_true, decide_eq_true_eq]
  constructor
  · rintro ⟨x, ⟨⟨i, hf, hl, hx⟩, hop⟩, he, hbefore⟩
    have hid := hc i x hx
    cases htarget : x.target? with
    | some label => simp [htarget] at he
    | none =>
      rw [htarget, Option.elim_none, Except.error.injEq, hid] at he
      refine ⟨i, he.symm, hf, hl, (haimless hx hop).mpr htarget, fun j hfj hji hj => ?_⟩
      obtain ⟨y, hy, hopy, hnone⟩ := hj
      obtain ⟨r, hr⟩ := hbefore y ⟨⟨j, hfj, by omega, hy⟩, hopy⟩ (by rw [hc j y hy, hid]; exact hji)
      simp [hnone] at hr
  · rintro ⟨i, rfl, hf, hl, ⟨x, hx, hop, hnone⟩, hbefore⟩
    refine ⟨x, ⟨⟨i, hf, hl, hx⟩, hop⟩, by rw [hnone, Option.elim_none, hc i x hx], ?_⟩
    rintro y ⟨⟨j, hfj, hjl, hy⟩, hopy⟩ hlt
    rw [hc j y hy, hc i x hx] at hlt
    cases htarget : y.target? with
    | none => exact absurd ((haimless hy hopy).mpr htarget) (hbefore j hfj hlt)
    | some label => exact ⟨_, rfl⟩

theorem sorted_branchTargets (hc : c.Numbered) {branches : List (Nat × OperandId)}
    (hb : branchTargets (c.slice first last) = .ok branches) : branches.Pairwise fun a b => a.1 < b.1 := by
  rw [branchTargets_eq] at hb
  refine pairwise_of_forall₂ (mapM_forall₂ hb) ((sorted_slice hc first last).filter _) ?_
  intro x y a b hxy ha hb
  have hfst : ∀ {z : Instr} {d : Nat × OperandId}, z.target?.elim (Except.error (FlowError.missingTarget z.id))
      (fun label => Except.ok (z.id, label)) = .ok d → d.1 = z.id := by
    intro z d hd
    cases htarget : z.target? with
    | none => simp [htarget] at hd
    | some label =>
      rw [htarget, Option.elim_some, Except.ok.injEq] at hd
      rw [← hd]
  rw [hfst ha, hfst hb]
  exact hxy

theorem resolveTargets_eq_error_iff (hc : c.Numbered) (hl : last < c.instrs.size) {name : String}
    {branches : List (Nat × OperandId)} (hb : branchTargets (c.slice first last) = .ok branches) {e : FlowError} :
    resolveTargets name (placedLabels (c.slice first last)) branches = .error e ↔
      ∃ i, e = .unresolvedLabel name i ∧ first ≤ i ∧ i ≤ last ∧ c.Astray first last i ∧
        ∀ j, first ≤ j → j < i → ¬ c.Astray first last j := by
  have hmem : ∀ {i label}, (i, label) ∈ branches ↔
      first ≤ i ∧ i ≤ last ∧ ∃ x, c.instrs[i]? = some x ∧ x.target? = some label := by
    intro i label
    rw [mem_branchTargets hb]
    simp only [Code.mem_slice]
    constructor
    · rintro ⟨x, ⟨j, hf, hl, hx⟩, hid, hlabel⟩
      obtain rfl : j = i := by rw [← hid, hc j x hx]
      exact ⟨hf, hl, x, hx, hlabel⟩
    · rintro ⟨hf, hl, x, hx, hlabel⟩
      exact ⟨x, ⟨i, hf, hl, hx⟩, hc i x hx, hlabel⟩
  have hplaced : ∀ {label}, (placedLabels (c.slice first last))[label]? = none ↔
      ∀ j, first ≤ j → j ≤ last → ¬ c.places label j := by
    intro label
    rw [placedLabels_eq hc hl, Code.labelAt?_eq_none_iff]
  rw [resolveTargets_eq, mapM_eq_error_iff (sorted_branchTargets hc hb)]
  constructor
  · rintro ⟨⟨i, label⟩, hi, he, hbefore⟩
    obtain ⟨hf, hil, x, hx, hlabel⟩ := hmem.mp hi
    cases hdst : (placedLabels (c.slice first last))[label]? with
    | some dst => simp [hdst] at he
    | none =>
      rw [hdst, Option.elim_none, Except.error.injEq] at he
      refine ⟨i, he.symm, hf, hil, ⟨x, label, hx, Instr.op_of_target? hlabel, hlabel, hplaced.mp hdst⟩, ?_⟩
      rintro j hfj hji ⟨y, label', hy, -, hlabel', hno⟩
      obtain ⟨r, hr⟩ := hbefore (j, label') (hmem.mpr ⟨hfj, by omega, y, hy, hlabel'⟩) hji
      simp [hplaced.mpr hno] at hr
  · rintro ⟨i, rfl, hf, hil, ⟨x, label, hx, -, hlabel, hno⟩, hbefore⟩
    refine ⟨(i, label), hmem.mpr ⟨hf, hil, x, hx, hlabel⟩, by rw [hplaced.mpr hno, Option.elim_none], ?_⟩
    rintro ⟨j, label'⟩ hj hji
    obtain ⟨hfj, hjl, y, hy, hlabel'⟩ := hmem.mp hj
    cases hdst : (placedLabels (c.slice first last))[label']? with
    | some dst => exact ⟨_, rfl⟩
    | none =>
      exact absurd ⟨y, label', hy, Instr.op_of_target? hlabel', hlabel', hplaced.mp hdst⟩ (hbefore j hfj hji)

end Branches

end FlowGraph

namespace Piece

variable {symbols : SymbolTable} {c : Code} {p : Piece}

/-- No flow graph is built of a piece exactly if something is wrong with it, and that is what is reported. -/
theorem build_eq_error_iff (hc : c.Numbered) (hfl : p.first ≤ p.last) (hl : p.last < c.instrs.size) {e : FlowError} :
    FlowGraph.build c p.name p.first p.last = .error e ↔ p.Flaw c e := by
  have hmissing : FlowGraph.branchTargets (c.slice p.first p.last) = .error e ↔ _ :=
    FlowGraph.branchTargets_eq_error_iff hc
  constructor
  · intro h
    have hnot : ¬ c.TargetsPlaced p.first p.last := by
      rw [← FlowGraph.exists_build_iff hc p.name hfl hl, h]
      simp
    rw [FlowGraph.build] at h
    rcases Except.bind_eq_error.mp h with hb | ⟨branches, hb, h⟩
    · obtain ⟨i, rfl, hf, hil, hi, hbefore⟩ := hmissing.mp hb
      exact .missing hf hil hi hbefore
    · rcases Except.bind_eq_error.mp h with ht | ⟨targets, ht, -⟩
      · obtain ⟨i, rfl, hf, hil, hi, hbefore⟩ := (FlowGraph.resolveTargets_eq_error_iff hc hl hb).mp ht
        refine .unresolved ?_ hf hil hi hbefore
        rintro j hfj hjl ⟨x, hx, hop, hnone⟩
        obtain ⟨label, hlabel⟩ := (FlowGraph.exists_branchTargets_iff _).mp ⟨branches, hb⟩ x
          ((Code.mem_slice c _ _ x).mpr ⟨j, hfj, hjl, hx⟩) hop
        rw [hnone] at hlabel
        cases hlabel
      · exact absurd (FlowGraph.targetsPlaced_of_eq_ok hc hl hb ht) hnot
  · intro h
    rw [FlowGraph.build, Except.bind_eq_error]
    cases h with
    | missing hf hil hi hbefore => exact Or.inl (hmissing.mpr ⟨_, rfl, hf, hil, hi, hbefore⟩)
    | unresolved hall hf hil hi hbefore =>
      obtain ⟨branches, hb⟩ : ∃ bs, FlowGraph.branchTargets (c.slice p.first p.last) = .ok bs := by
        refine (FlowGraph.exists_branchTargets_iff _).mpr fun x hx hop => ?_
        obtain ⟨j, hfj, hjl, hx⟩ := (Code.mem_slice c _ _ x).mp hx
        exact Option.ne_none_iff_exists'.mp fun hnone => hall j hfj hjl ⟨x, hx, hop, hnone⟩
      refine Or.inr ⟨branches, hb, Except.bind_eq_error.mpr (Or.inl ?_)⟩
      exact (FlowGraph.resolveTargets_eq_error_iff hc hl hb).mpr ⟨_, rfl, hf, hil, hi, hbefore⟩

theorem Whole.last_le {q : Piece} (hp : p.Whole symbols c) (hq : q.Whole symbols c) (h : q.first = p.first) :
    q.last ≤ p.last := by
  by_contra hlt
  have hfl := hp.first_le
  have hl := hq.last_lt
  rcases hp.stop with hend | ⟨id, name, hhead⟩
  · omega
  · exact hq.only _ id name (by omega) (by omega) hhead

theorem mem_cut_iff : p ∈ Code.cut c.instrs.size (c.headers symbols) ↔ p.Whole symbols c := by
  have hwhole : ∀ q ∈ Code.cut c.instrs.size (c.headers symbols), q.Whole symbols c := by
    intro q hq
    obtain ⟨hhead, hfl, hl, hbetween, hstop⟩ := Code.mem_cut Code.headers_lt (Code.sorted_headers symbols c) hq
    refine ⟨Code.heads_iff.mpr hhead, hfl, hl, fun i id name hfi hil hi => ?_, hstop.imp_right ?_⟩
    · have := hbetween _ (Code.heads_iff.mp hi)
      omega
    · rintro ⟨⟨pos, id, name⟩, hh, rfl⟩
      exact ⟨id, name, Code.heads_iff.mpr hh⟩
  refine ⟨hwhole p, fun hp => ?_⟩
  -- the piece that is cut at the same header ends at the same place
  have hhead := Code.heads_iff.mp hp.head
  rw [← Code.cut_heads c.instrs.size (c.headers symbols), List.mem_map] at hhead
  obtain ⟨q, hq, he⟩ := hhead
  obtain ⟨hfirst, hsymbol, hname⟩ : q.first = p.first ∧ q.symbol = p.symbol ∧ q.name = p.name := by simpa using he
  have hlast := Nat.le_antisymm (hp.last_le (hwhole q hq) hfirst) ((hwhole q hq).last_le hp hfirst.symm)
  obtain rfl : q = p := by
    cases q
    cases p
    simp_all
  exact hq

end Piece

namespace Code

variable {symbols : SymbolTable} {c : Code}

theorem routine_eq_error_iff {p : Piece} {e : FlowError} :
    c.routine p = .error e ↔ FlowGraph.build c p.name p.first p.last = .error e := by
  rw [routine, Except.bind_eq_error]
  simp [pure, Except.pure]

theorem exists_routine_iff {p : Piece} :
    (∃ r, c.routine p = .ok r) ↔ ∃ g, FlowGraph.build c p.name p.first p.last = .ok g := by
  simp only [routine, Except.bind_eq_ok, pure, Except.pure, Except.ok.injEq]
  constructor
  · rintro ⟨r, g, hg, -⟩
    exact ⟨g, hg⟩
  · rintro ⟨g, hg⟩
    exact ⟨_, g, hg, rfl⟩

theorem head?_headers_iff : (c.headers symbols).head?.map (·.1) = some 0 ↔ ∃ id name, c.Heads symbols 0 id name := by
  constructor
  · intro h
    obtain ⟨⟨pos, id, name⟩, hhead, rfl⟩ := Option.map_eq_some_iff.mp h
    exact ⟨id, name, heads_iff.mpr (List.mem_of_head? hhead)⟩
  · rintro ⟨id, name, h⟩
    exact head?_headers (heads_iff.mp h)

theorem pieces_eq_error_iff {e : FlowError} : c.pieces symbols = .error e ↔
    e = .orphanInstruction 0 ∧ c.instrs.size ≠ 0 ∧ ∀ id name, ¬ c.Heads symbols 0 id name := by
  have hhead : _ ↔ ∃ id name, c.Heads symbols 0 id name := head?_headers_iff
  rw [pieces_eq]
  split
  case isTrue h =>
    obtain ⟨hsize, hne⟩ := h
    have hno : ∀ id name, ¬ c.Heads symbols 0 id name := fun id name h => hne (hhead.mpr ⟨id, name, h⟩)
    rw [Except.error.injEq, eq_comm, and_iff_left ⟨hsize, hno⟩]
  case isFalse h =>
    simp only [reduceCtorEq, false_iff]
    rintro ⟨-, hsize, hno⟩
    refine h ⟨hsize, fun hzero => ?_⟩
    obtain ⟨id, name, hheads⟩ := hhead.mp hzero
    exact hno id name hheads

theorem sorted_cut : (cut c.instrs.size (c.headers symbols)).Pairwise fun p q => p.first < q.first := by
  refine (cut_pairwise headers_lt (sorted_headers symbols c)).imp_of_mem ?_
  intro p q hp _ hpq
  have := (Piece.mem_cut_iff.mp hp).first_le
  omega

theorem exists_routine_iff_targetsPlaced (hc : c.Numbered) {p : Piece} (hp : p.Whole symbols c) :
    (∃ r, c.routine p = .ok r) ↔ c.TargetsPlaced p.first p.last := by
  rw [exists_routine_iff, FlowGraph.exists_build_iff hc p.name hp.first_le hp.last_lt]

theorem routines_eq_error_iff (hc : c.Numbered) {e : FlowError} :
    c.routines symbols = .error e ↔ c.Malformed symbols e := by
  have hroutine : ∀ {p : Piece}, p.Whole symbols c → (c.routine p = .error e ↔ p.Flaw c e) := by
    intro p hp
    rw [routine_eq_error_iff, Piece.build_eq_error_iff hc hp.first_le hp.last_lt]
  rw [routines, Except.bind_eq_error, pieces_eq_error_iff]
  constructor
  · rintro (⟨rfl, hsize, hno⟩ | ⟨ps, hps, h⟩)
    · exact .orphan hsize hno
    · obtain ⟨hstart, rfl⟩ := pieces_eq_ok_iff.mp hps
      obtain ⟨p, hp, he, hbefore⟩ := (mapM_eq_error_iff sorted_cut).mp h
      have hwhole := Piece.mem_cut_iff.mp hp
      refine .piece ?_ hwhole (fun q hq hlt => ?_) ((hroutine hwhole).mp he)
      · refine head?_headers_iff.mp (hstart.resolve_left fun hzero => ?_)
        have := hwhole.last_lt
        omega
      · exact (exists_routine_iff_targetsPlaced hc hq).mp (hbefore q (Piece.mem_cut_iff.mpr hq) hlt)
  · intro h
    cases h with
    | orphan hsize hno => exact Or.inl ⟨rfl, hsize, hno⟩
    | @piece p _ hstart hp hbefore he =>
      refine Or.inr ⟨_, pieces_eq_ok_iff.mpr ⟨Or.inr (head?_headers_iff.mpr hstart), rfl⟩, ?_⟩
      refine (mapM_eq_error_iff sorted_cut).mpr ⟨p, Piece.mem_cut_iff.mpr hp, (hroutine hp).mpr he, ?_⟩
      intro q hq hlt
      have hwhole := Piece.mem_cut_iff.mp hq
      exact (exists_routine_iff_targetsPlaced hc hwhole).mpr (hbefore q hwhole hlt)

theorem exists_routines_iff (hc : c.Numbered) : (∃ rs, c.routines symbols = .ok rs) ↔
    (c.instrs.size = 0 ∨ ∃ id name, c.Heads symbols 0 id name) ∧
      ∀ p : Piece, p.Whole symbols c → c.TargetsPlaced p.first p.last := by
  rw [← head?_headers_iff]
  constructor
  · rintro ⟨rs, h⟩
    obtain ⟨ps, hps, hmap⟩ := Except.bind_eq_ok.mp h
    obtain ⟨hstart, rfl⟩ := pieces_eq_ok_iff.mp hps
    refine ⟨hstart, fun p hp => ?_⟩
    obtain ⟨r, -, hr⟩ := (mem_of_forall₂ (mapM_forall₂ hmap)).2 p (Piece.mem_cut_iff.mpr hp)
    exact (exists_routine_iff_targetsPlaced hc hp).mp ⟨r, hr⟩
  · rintro ⟨hstart, hplaced⟩
    obtain ⟨rs, hrs⟩ := exists_mapM_eq_ok (f := c.routine) (l := cut c.instrs.size (c.headers symbols)) (by
      intro p hp
      have hwhole := Piece.mem_cut_iff.mp hp
      exact (exists_routine_iff_targetsPlaced hc hwhole).mpr (hplaced p hwhole))
    exact ⟨rs, Except.bind_eq_ok.mpr ⟨_, pieces_eq_ok_iff.mpr ⟨hstart, rfl⟩, hrs⟩⟩

/-- Everything that is looked up is there while a table is cut: the operands of headers with their symbols and, for a
piece whose branches go somewhere, the instructions of its blocks, the block at its header and the blocks at the
targets. -/
structure Grounded (symbols : SymbolTable) (c : Code) : Prop where
  header : ∀ (i : Nat) (x : Instr) (o : OperandId), c.instrs[i]? = some x → x.op = .header → x.result = some o → ∃ operand,
    c.operands.get? o = some operand ∧ ∀ id, operand.symbol? = some id → ∃ s, symbols.get? id = some s
  graph : ∀ p : Piece, p.Whole symbols c → c.TargetsPlaced p.first p.last → ∃ g,
    FlowGraph.build c p.name p.first p.last = .ok g ∧
      (∀ k b, g.block? k = some b → p.first ≤ b.first ∧ b.first ≤ b.last ∧ b.last ≤ p.last) ∧
      (∃ b, g.block? g.head = some b ∧ b.first = p.first) ∧
      ∀ (i : Nat) (x : Instr), p.first ≤ i → i ≤ p.last → c.instrs[i]? = some x → (x.op = .jump ∨ x.op = .branch) →
        ∃ label j, x.target? = some label ∧ c.labelAt? p.first p.last label = some j ∧ g.Starts j

theorem grounded (hc : c.Numbered) (hids : c.Closed) (hsyms : c.Declared symbols) : c.Grounded symbols := by
  constructor
  · intro i x o hx _ ho
    obtain ⟨operand, hoperand⟩ := Arena.exists_of_lt_size (hids i x hx o (by simp [Instr.mentions, ho]))
    exact ⟨operand, hoperand, fun id => hsyms o operand id hoperand⟩
  · intro p hp hplaced
    obtain ⟨g, hg⟩ := (FlowGraph.exists_build_iff hc p.name hp.first_le hp.last_lt).mpr hplaced
    obtain ⟨targets, hparts⟩ := FlowGraph.exists_parts hc hp.last_lt hg
    obtain ⟨x, -, -, -, hx, hop, -⟩ := hp.head
    have hmirrors := hparts.mirrors hc hp.first_le hp.last_lt hplaced (by
      intro y hy hlabel
      obtain rfl := Option.some.inj (hx.symm.trans hy)
      rw [hop] at hlabel
      cases hlabel)
    have hblock : ∀ k b, g.block? k = some b → p.first ≤ b.first ∧ b.first ≤ b.last ∧ b.last ≤ p.last :=
      fun k b hk => hmirrors.tiles.bounds ((FlowGraph.blocks_getElem? g k).trans hk)
    obtain ⟨k, b, hk, -⟩ := hmirrors.tiles.cover (Nat.le_refl _) hp.first_le
    have hzero := List.getElem?_eq_getElem (Nat.zero_lt_of_lt (List.getElem?_eq_some_iff.mp hk).1)
    refine ⟨g, hg, hblock, ⟨_, ?_, hmirrors.tiles.first_eq hzero⟩, hmirrors.target_starts⟩
    rw [hmirrors.head, ← FlowGraph.blocks_getElem?, hzero]

end Code

/-- A table is cut into functions unless it is malformed. It is refused exactly for what is wrong with it first, and
only for that: an instruction is orphaned only if it is the first one of a table that starts with no function; else
a branch is at fault, in the first piece with a branch that has no target or one that the piece does not place. Where
nothing is wrong the table is cut. Whatever comes of it, everything that is looked up is there. -/
theorem only_malformed_tables_are_refused (symbols : SymbolTable) (c : Code) (hc : c.Numbered) (hids : c.Closed)
    (hsyms : c.Declared symbols) :
    (∀ e, c.routines symbols = .error e ↔ c.Malformed symbols e) ∧
      (∀ k, c.routines symbols = .error (.orphanInstruction k) ↔
        k = 0 ∧ c.instrs.size ≠ 0 ∧ ∀ id name, ¬ c.Heads symbols 0 id name) ∧
      ((∃ rs, c.routines symbols = .ok rs) ↔ (c.instrs.size = 0 ∨ ∃ id name, c.Heads symbols 0 id name) ∧
        ∀ p : Piece, p.Whole symbols c → c.TargetsPlaced p.first p.last) ∧
      c.routines symbols ≠ .error .outOfTable ∧ c.Grounded symbols := by
  refine ⟨fun e => Code.routines_eq_error_iff hc, fun k => ?_, Code.exists_routines_iff hc, fun h => ?_,
    Code.grounded hc hids hsyms⟩
  · rw [Code.routines_eq_error_iff hc]
    constructor
    · intro h
      cases h with
      | orphan hsize hno => exact ⟨rfl, hsize, hno⟩
      | piece _ _ _ he => cases he
    · rintro ⟨rfl, hsize, hno⟩
      exact .orphan hsize hno
  · cases (Code.routines_eq_error_iff hc).mp h with
    | piece _ _ _ he => cases he

/-- Three functions. The second goes to a label of the first, and has a jump without a target behind that; the third
goes to a label that nothing places:

    f:
    L0:
      if !u goto L0
      return
    g:
      goto L0
      goto
    h:
      goto L1 -/
def maze : Code where
  instrs := #[
    { id := 0, op := .header, result := some 0 },
    { id := 1, op := .label, left := some 4 },
    { id := 2, op := .branch, left := some 3, right := some 4 },
    { id := 3, op := .ret },
    { id := 4, op := .header, result := some 1 },
    { id := 5, op := .jump, left := some 4 },
    { id := 6, op := .jump },
    { id := 7, op := .header, result := some 2 },
    { id := 8, op := .jump, left := some 5 }]
  operands.operands := #[
    { kind := .symbol 0, isValue := false },
    { kind := .symbol 1, isValue := false },
    { kind := .symbol 2, isValue := false },
    { kind := .symbol 3, isValue := true },
    { kind := .label ⟨0⟩, isValue := false },
    { kind := .label ⟨1⟩, isValue := false }]

def mazeSymbols : SymbolTable where
  symbols := #[
    { name := "f", kind := .function, ty := .function [] .void },
    { name := "g", kind := .function, ty := .function [] .void },
    { name := "h", kind := .function, ty := .function [] .void },
    { name := "u", kind := .localVar, ty := .int }]

/-- The jump without a target is reported, although the one before it goes nowhere either. -/
theorem maze_has_no_way_out : maze.Numbered ∧ maze.Closed ∧ maze.Declared mazeSymbols ∧
    maze.Malformed mazeSymbols (.missingTarget 6) ∧ ¬ maze.Malformed mazeSymbols (.unresolvedLabel "g" 5) ∧
    maze.Grounded mazeSymbols := by
  have hall : ∀ i < 9, (maze.instrs[i]?).all (fun z => z.id = i ∧ ∀ x ∈ z.mentions, x < maze.operands.size) := by
    decide +kernel
  have hinstr : ∀ {i : Nat} {z : Instr}, maze.instrs[i]? = some z →
      z.id = i ∧ ∀ x ∈ z.mentions, x < maze.operands.size := by
    intro i z hz
    simpa [hz] using hall i (Array.getElem?_eq_some_iff.mp hz).1
  have hnumbered : maze.Numbered := fun i z hz => (hinstr hz).1
  have hclosed : maze.Closed := fun i z hz => (hinstr hz).2
  have hdeclared : maze.Declared mazeSymbols := by
    have hops : ∀ y < 6, (maze.operands.get? y).all
        (fun o => o.symbol?.all fun id => (mazeSymbols.get? id).isSome) = true := by
      decide +kernel
    intro y o id ho hid
    have := hops y (Array.getElem?_eq_some_iff.mp ho).1
    rw [ho, Option.all_some, hid, Option.all_some] at this
    exact Option.isSome_iff_exists.mp this
  obtain ⟨hfails, -, -, -, hgrounded⟩ := only_malformed_tables_are_refused mazeSymbols maze hnumbered hclosed hdeclared
  have hresult : maze.routines mazeSymbols = .error (.missingTarget 6) := rfl
  refine ⟨hnumbered, hclosed, hdeclared, (hfails _).mp hresult, fun h => ?_, hgrounded⟩
  rw [← hfails, hresult] at h
  cases h

end MiddleEnd
