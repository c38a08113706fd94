import MiddleEnd.Proofs.Allocation.Coloring
import MiddleEnd.Proofs.Allocation.Like
import MiddleEnd.Proofs.Allocation.Pinning
import MiddleEnd.Proofs.Interference
import MiddleEnd.Proofs.Liveness.Fixed

/-! Allocation of one function. Every value that occurs in it gets a place, values that interfere never get
the same register, whether a convention fixed it or colouring chose it, and none that an instruction must
spare is in a register that the instruction overwrites. -/

namespace MiddleEnd

theorem Code.mem_order (c : Code) (g : FlowGraph) (y : OperandId) : y ∈ (c.interference g).order ↔
    ∃ k b i z, g.block? k = some b ∧ b.first ≤ i ∧ i ≤ b.last ∧ c.instrs[i]? = some z ∧
      (z.writes? c.operands = some y ∨ y ∈ z.reads c.operands ∨ y ∈ z.liveOut) := by
  rw [← mem_nodes, Interference.order, List.mem_append, or_iff_right_iff_imp, List.mem_map]
  rintro ⟨d, hd, rfl⟩
  obtain ⟨s, hs, hw, -⟩ := (mem_bundles c g d).mp (Array.mem_toList_iff.mp hd)
  obtain ⟨k, b, i, hk, h1, h2, hz⟩ := (mem_blockInstrs c g s.instr).mp ⟨s, hs, rfl⟩
  exact (mem_nodes c g _).mpr ⟨k, b, i, s.instr, hk, h1, h2, hz, Or.inl hw⟩

/-- Some instruction of the function mentions the operand. -/
def Routine.Mentions (r : Routine) (c : Code) (y : OperandId) : Prop :=
  ∃ (i : Nat) (z : Instr), r.first ≤ i ∧ i ≤ r.last ∧ c.instrs[i]? = some z ∧ y ∈ z.mentions

/-- The instruction at `i` makes `x` and `y` interfere. -/
def Code.Clash (c : Code) (g : FlowGraph) (i : Nat) (z : Instr) (x y : OperandId) : Prop :=
  x ≠ y ∧ ((z.op = .header ∧ Wanted c g x i ∧ Wanted c g y i) ∨
    (z.writes? c.operands = some x ∧ Wanted c g y i) ∨ (z.writes? c.operands = some y ∧ Wanted c g x i))

/-- The operand occurs at `i`: it is written, read or wanted there. -/
def Code.Occurs (c : Code) (g : FlowGraph) (i : Nat) (z : Instr) (y : OperandId) : Prop :=
  z.writes? c.operands = some y ∨ y ∈ z.reads c.operands ∨ Wanted c g y i

theorem Instr.mem_exposed {z : Instr} {y : OperandId} : y ∈ z.exposed ↔ y ∈ z.liveOut ∧ z.dest? ≠ some y := by
  unfold exposed
  cases z.dest? with
  | none => simp
  | some x =>
    rw [Option.elim_some, LiveSet.mem_erase_iff, and_comm, ne_comm, ne_eq, ne_eq, Option.some.injEq]

theorem Instr.divisor?_eq_some {a : Arena} {z : Instr} {y : OperandId} :
    z.divisor? a = some y ↔ (z.op = .binary (.arith .div) ∨ z.op = .binary (.arith .mod)) ∧ z.right = some y ∧
      a.isValue y = true := by
  unfold divisor?
  split
  case h_1 hop => rw [hop, Option.filter_eq_some_iff]; simp
  case h_2 hop => rw [hop, Option.filter_eq_some_iff]; simp
  case h_3 hdiv hmod => exact ⟨nofun, fun h => (h.1.elim hdiv hmod).elim⟩

theorem Instr.op_of_divisor {a : Arena} {z : Instr} {y : OperandId} (h : z.divisor? a = some y) :
    ∃ op, z.op = .binary op := by
  rcases (divisor?_eq_some.mp h).1 with hop | hop
  · exact ⟨_, hop⟩
  · exact ⟨_, hop⟩

theorem Instr.mem_reads_of_divisor {a : Arena} {z : Instr} {y : OperandId} (h : z.divisor? a = some y) :
    y ∈ z.reads a := by
  obtain ⟨op, hop⟩ := op_of_divisor h
  obtain ⟨-, hright, hval⟩ := divisor?_eq_some.mp h
  exact mem_reads.mpr ⟨by simp [sources, hop, hright], hval⟩

theorem Code.Occurs.mentions {c : Code} {r : Routine} (hr : r.Built c) {i : Nat} {z : Instr} {y : OperandId}
    (h : c.Occurs r.flow i z y) (hf : r.first ≤ i) (hl : i ≤ r.last) (hz : c.instrs[i]? = some z) :
    c.operands.isValue y = true ∧ r.Mentions c y := by
  rcases h with h | h | h
  · obtain ⟨hdest, hval⟩ := Instr.writes?_eq_some.mp h
    exact ⟨hval, i, z, hf, hl, hz, Instr.mem_mentions_of_dest hdest⟩
  · obtain ⟨hsource, hval⟩ := Instr.mem_reads.mp h
    exact ⟨hval, i, z, hf, hl, hz, Instr.mem_mentions_of_source hsource⟩
  · refine ⟨h.isValue, ?_⟩
    clear hz hf hl
    induction h with
    | @read i j w hstep hw hy =>
      obtain ⟨-, h1, h2⟩ := hr.follows_bounds hstep
      exact ⟨j, w, h1, h2, hw, Instr.mem_mentions_of_source (Instr.mem_reads.mp hy).1⟩
    | pass _ _ _ _ ih => exact ih

/-- The convention passes two arguments in the register. -/
def Convention.Doubles (conv : Convention) (reg : Register) : Prop :=
  ∃ k l : Nat, k ≠ l ∧ conv.args[k]? = some reg ∧ conv.args[l]? = some reg

theorem Convention.not_doubles {conv : Convention} (hargs : conv.args.Nodup) (reg : Register) : ¬ conv.Doubles reg := by
  rintro ⟨k, l, hkl, hk, hl⟩
  obtain ⟨hk', hk⟩ := List.getElem?_eq_some_iff.mp hk
  obtain ⟨hl', hl⟩ := List.getElem?_eq_some_iff.mp hl
  exact hkl ((List.Nodup.getElem_inj_iff hargs).mp (hk.trans hl.symm))

/-- The function has its places in the arena `a`. Values that interfere share a register only where the
convention does not keep the arguments of a call apart. -/
structure Routine.Placed (conv : Convention) (c : Code) (r : Routine) (g : Interference) (a : Arena) : Prop where
  clash : ∀ x y, g.interferes x y ↔
    ∃ (i : Nat) (z : Instr), r.first ≤ i ∧ i ≤ r.last ∧ c.instrs[i]? = some z ∧ c.Clash r.flow i z x y
  shared : ∀ x y reg, g.interferes x y → a.register? x = some reg → a.register? y = some reg → conv.Doubles reg
  located : ∀ (i : Nat) (z : Instr) (y : OperandId), r.first ≤ i → i ≤ r.last → c.instrs[i]? = some z →
    c.Occurs r.flow i z y → a.isResolved y = true
  spared : ∀ (i : Nat) (z : Instr) (y : OperandId) (reg : Register), r.first ≤ i → i ≤ r.last →
    c.instrs[i]? = some z → reg ∈ conv.clobbers z.op →
    z.divisor? c.operands = some y ∨ (Wanted c r.flow y i ∧ z.writes? c.operands ≠ some y) →
    a.register? y ≠ some reg

/-- The function is allocated well in the arena `a`. -/
structure Routine.Allotted (conv : Convention) (c : Code) (r : Routine) (g : Interference) (a : Arena) : Prop
    extends r.Placed conv c g a where
  apart : ∀ x y reg, g.interferes x y → a.register? x = some reg → a.register? y ≠ some reg

theorem Routine.Placed.allotted {conv : Convention} {c : Code} {r : Routine} {g : Interference} {a : Arena}
    (h : r.Placed conv c g a) (hargs : conv.args.Nodup) : r.Allotted conv c g a :=
  ⟨h, fun x y reg hxy hx hy => conv.not_doubles hargs reg (h.shared x y reg hxy hx hy)⟩

/-- The live-out sets in `e` hold what is wanted in `c`. -/
def Routine.Noted (r : Routine) (c e : Code) : Prop :=
  ∀ (i : Nat) (w : Instr), r.first ≤ i → i ≤ r.last → e.instrs[i]? = some w →
    ∀ x, x ∈ w.liveOut ↔ Wanted c r.flow x i

section Like

variable {c e : Code} {r : Routine} {g : FlowGraph} {i : Nat}

theorem Code.clash_like_iff (h : c.Like e) {z : Instr} {live : LiveSet} {x y : OperandId} :
    e.Clash g i { z with liveOut := live } x y ↔ c.Clash g i z x y := by
  have hw : Instr.writes? e.operands { z with liveOut := live } = z.writes? c.operands := h.writes? z
  rw [Clash, Clash, hw, wanted_like_iff h, wanted_like_iff h]

theorem Code.occurs_like_iff (h : c.Like e) {z : Instr} {live : LiveSet} {y : OperandId} :
    e.Occurs g i { z with liveOut := live } y ↔ c.Occurs g i z y := by
  have hw : Instr.writes? e.operands { z with liveOut := live } = z.writes? c.operands := h.writes? z
  have hr : Instr.reads e.operands { z with liveOut := live } = z.reads c.operands := h.reads z
  rw [Occurs, Occurs, hw, hr, wanted_like_iff h]

theorem Routine.Placed.of_like {conv : Convention} {g : Interference} {a : Arena} (h : r.Placed conv c g a)
    (hlike : c.Like e) : r.Placed conv e g a := by
  refine ⟨fun x y => (h.clash x y).trans ⟨?_, ?_⟩, h.shared, fun i w y hf hl hw hy => ?_,
    fun i w y reg hf hl hw hclob hy => ?_⟩
  · rintro ⟨i, z, hf, hl, hz, hxy⟩
    obtain ⟨live, hw⟩ := hlike.instr hz
    exact ⟨i, _, hf, hl, hw, (Code.clash_like_iff hlike).mpr hxy⟩
  · rintro ⟨i, w, hf, hl, hw, hxy⟩
    obtain ⟨live, hz⟩ := hlike.symm.instr hw
    exact ⟨i, _, hf, hl, hz, (Code.clash_like_iff hlike.symm).mpr hxy⟩
  · obtain ⟨live, hz⟩ := hlike.symm.instr hw
    exact h.located i _ y hf hl hz ((Code.occurs_like_iff hlike.symm).mpr hy)
  · obtain ⟨live, hz⟩ := hlike.symm.instr hw
    refine h.spared i _ y reg hf hl hz hclob (hy.imp (fun hdiv => ?_) fun ⟨hwant, hne⟩ => ?_)
    · exact (Convention.divisor?_of_like hlike.symm.operands w).trans hdiv
    · exact ⟨(wanted_like_iff hlike).mp hwant, fun hw => hne ((hlike.writes? w).trans hw)⟩

theorem Routine.Noted.of_like (h : r.Noted c e) (hlike : c.Like e) : r.Noted e e := by
  intro i w hf hl hw x
  rw [h i w hf hl hw x, wanted_like_iff hlike]

end Like

theorem Convention.doubles_of_apart {conv : Convention} {s t : Tag} (h : s.Apart t) {reg : Register}
    (hs : conv.fixed? s = some (.register reg)) (ht : conv.fixed? t = some (.register reg)) : conv.Doubles reg := by
  obtain ⟨k, l, hkl, h⟩ := h
  have key : ∀ m : Nat, conv.args[m]?.elim Location.frame .register = .register reg → conv.args[m]? = some reg := by
    intro m hm
    cases ha : conv.args[m]? with
    | none => rw [ha] at hm; cases hm
    | some r => rw [ha] at hm; cases hm; rfl
  refine ⟨k, l, hkl, ?_⟩
  rcases h with ⟨rfl, rfl⟩ | ⟨rfl, rfl⟩
  · exact ⟨key k (Option.some.inj hs), key l (Option.some.inj ht)⟩
  · exact ⟨key k (Option.some.inj hs), key l (Option.some.inj ht)⟩

section Fixed

variable {symbols : SymbolTable} {conv : Convention} {c : Code} {r : Routine} {i : Nat} {z : Instr}

theorem Code.Clash.doubles (hc : c.Sound symbols) (hr : r.Built c) (hlone : r.Lone c) {x y : OperandId}
    (h : c.Clash r.flow i z x y) (hz : c.instrs[i]? = some z) {s t : Tag} {reg : Register}
    (hs : c.operands.tag? x = some s) (ht : c.operands.tag? y = some t) (hx : conv.fixed? s = some (.register reg))
    (hy : conv.fixed? t = some (.register reg)) : conv.Doubles reg := by
  have hfs := Convention.isFixed_of_fixed? hx
  have hft := Convention.isFixed_of_fixed? hy
  obtain ⟨hne, ⟨hop, hwx, hwy⟩ | ⟨hw, hwy⟩ | ⟨hw, hwx⟩⟩ := h
  · exact Convention.doubles_of_apart (hwy.apart_of_header hc hr hlone ht hft hs hfs hwx hz hop hne) hx hy
  · exact Convention.doubles_of_apart (hwy.apart_of_writes hc hr hlone ht hft hz hw hs hfs hne) hx hy
  · exact Convention.doubles_of_apart (hwx.apart_of_writes hc hr hlone hs hfs hz hw ht hft hne.symm) hy hx

theorem not_fixed_of_spared (hc : c.Sound symbols) (hr : r.Built c) (hlone : r.Lone c) (hz : c.instrs[i]? = some z)
    {reg : Register} (hclobber : reg ∈ conv.clobbers z.op) {y : OperandId} {tag : Tag}
    (hy : z.divisor? c.operands = some y ∨ (Wanted c r.flow y i ∧ z.writes? c.operands ≠ some y))
    (htag : c.operands.tag? y = some tag) : tag.isFixed = false := by
  by_contra hfixed
  rw [Bool.not_eq_false] at hfixed
  have hop : z.op = .call ∨ ∃ op, z.op = .binary op := by
    unfold Convention.clobbers at hclobber
    split at hclobber
    · exact Or.inl (by assumption)
    · exact Or.inr ⟨_, by assumption⟩
    · exact Or.inr ⟨_, by assumption⟩
    · cases hclobber
  rcases hy with hdiv | ⟨hw, hne⟩
  · obtain ⟨op, hop⟩ := Instr.op_of_divisor hdiv
    have hsource := (Instr.mem_reads.mp (Instr.mem_reads_of_divisor hdiv)).1
    have hmay := (hc.fits i z hz).sources y hsource tag htag
    cases tag with
    | param k => obtain ⟨-, -, -, -, hop', -⟩ := hmay; rw [hop] at hop'; cases hop'
    | arg k => obtain ⟨-, -, hop', -⟩ := hmay; rw [hop] at hop'; cases hop'
    | callResult => have hop' := hmay.1; rw [hop] at hop'; cases hop'
    | returnValue => have hop' := hmay.1; rw [hop] at hop'; cases hop'
    | _ => cases hfixed
  · rcases hw.fixed_cases hc hr hlone htag hfixed hz with ⟨k, w, -, hop', -⟩ | ⟨k, m, -, hop'⟩ |
      ⟨k, m, args, -, hop', -⟩ | ⟨-, hop', hres⟩ | ⟨-, hop', -⟩
    · rcases hop with hop | ⟨op, hop⟩ <;> · rw [hop] at hop'; cases hop'
    · rcases hop with hop | ⟨op, hop⟩ <;> · rw [hop] at hop'; cases hop'
    · rcases hop with hop | ⟨op, hop⟩ <;> · rw [hop] at hop'; cases hop'
    · refine hne (Instr.writes?_eq_some.mpr ⟨?_, hw.isValue⟩)
      rw [Instr.dest?, hop']
      exact hres
    · rcases hop with hop | ⟨op, hop⟩ <;> · rw [hop] at hop'; cases hop'

end Fixed

/-- What the three phases of an allocation make of the arena `a`: pinning looks at the operands of which `P`
holds, the instructions `is` restrict, and the graph is coloured. -/
structure Convention.Places (conv : Convention) (P : OperandId → Prop) (is : List Instr) (g : Interference)
    (a b : Arena) : Prop where
  like : a.Like b
  moved : ∀ y, b.location y ≠ a.location y → y ∈ g.order ∨ (P y ∧ a.isValue y = true)
  resolved : ∀ y ∈ g.order, (a.get? y).isSome → b.isResolved y = true
  apart : ∀ x y reg, g.interferes x y → a.location x = none → a.location y = none → b.register? x = some reg →
    b.register? y = some reg → ∃ s t, a.tag? x = some s ∧ a.tag? y = some t ∧
      conv.fixed? s = some (.register reg) ∧ conv.fixed? t = some (.register reg)
  spared : ∀ z ∈ is, ∀ y reg, a.location y = none → z.divisor? a = some y ∨ y ∈ z.exposed → (a.get? y).isSome →
    reg ∈ conv.clobbers z.op → b.register? y = some reg →
    ∃ tag, a.tag? y = some tag ∧ conv.fixed? tag = some (.register reg)

theorem Convention.places_of_phases {conv : Convention} {P : OperandId → Prop} {is : List Instr} {g : Interference}
    (hg : g.Proper) {a pinned : Arena} {s : Coloring} (ha : a.TempsAreValues)
    (hP : ∀ z ∈ is, ∀ x ∈ z.mentions, P x) (hpin : is.foldlM conv.pinInstr a = .ok pinned)
    (hcolor : g.color conv.registers (is.foldl conv.restrictInstr pinned) = .ok s) :
    conv.Places P is g a s.operands := by
  have hp : conv.Pinned P a pinned := foldlM_pinned ha hP hpin
  have hr := conv.foldl_restricted is pinned
  have hs := Interference.color_colored hg hcolor
  have hsome : ∀ {a b : Arena} {y}, a.Like b → (a.get? y).isSome → (b.get? y).isSome := by
    intro a b y h hy
    rw [← Option.isSome_map (f := Operand.bare)] at hy ⊢
    rwa [h y]
  -- a register is one that pinning fixed, or one that colouring chose for an operand without a place
  have hreg : ∀ y reg, a.location y = none → s.operands.register? y = some reg →
      (is.foldl conv.restrictInstr pinned).location y = none ∨
        ∃ tag, a.tag? y = some tag ∧ conv.fixed? tag = some (.register reg) := by
    intro y reg hy h
    cases hloc : (is.foldl conv.restrictInstr pinned).location y with
    | none => exact Or.inl rfl
    | some loc =>
      right
      rw [Arena.register?_eq, hs.kept y (by rw [Arena.isResolved_eq, hloc]; rfl), hloc] at h
      cases loc with
      | frame => cases h
      | register r =>
        cases h
        rcases hp.fixed y reg (by rw [← hr.location y, hloc]) with h | h
        · rw [hy] at h; cases h
        · exact h
  refine ⟨hp.like.trans (hr.like.trans hs.like), fun y hy => ?_, fun y hy hget => ?_,
    fun x y reg hxy hx hy hxr hyr => ?_, fun z hz y reg hy hexp hget hclob h => ?_⟩
  · by_cases hmove : s.operands.location y = (is.foldl conv.restrictInstr pinned).location y
    · refine Or.inr (hp.moved y ?_)
      rwa [hmove, hr.location y] at hy
    · exact Or.inl (hs.moved y hmove)
  · exact Interference.color_resolved hcolor hy (hsome hr.like (hsome hp.like hget))
  · rcases hreg x reg hx hxr with hnone | ⟨tx, htx, hfx⟩
    · exact absurd hyr (hs.apart x y reg hxy (Or.inl hnone) hxr)
    · rcases hreg y reg hy hyr with hnone | ⟨ty, hty, hfy⟩
      · exact absurd hyr (hs.apart x y reg hxy (Or.inr hnone) hxr)
      · exact ⟨tx, ty, htx, hty, hfx, hfy⟩
  · rcases hreg y reg hy h with hnone | hfixed
    · refine absurd (hr.restricted z hz y ?_ (hsome hp.like hget) reg hclob) (hs.allowed y reg hnone h)
      rwa [divisor?_of_like hp.like]
    · exact hfixed

theorem Routine.allocate_eq_ok {conv : Convention} {d : Code} {r : Routine} (hr : r.Built d) {al : Allocation}
    (h : r.allocate conv d = .ok al) : ∃ an pinned s, Analyzed d r an ∧
      (an.code.slice r.first r.last).foldlM conv.pinInstr d.operands = .ok pinned ∧
      (an.code.interference an.flow).color conv.registers
        ((an.code.slice r.first r.last).foldl conv.restrictInstr pinned) = .ok s ∧
      al.code = { an.code with operands := s.operands } ∧
      al.routine = { r with flow := an.flow, interference := an.code.interference an.flow, spilled := s.spilled } := by
  obtain ⟨an, han, hA⟩ := Code.analyze_eq_ok hr
  obtain ⟨an', han', h⟩ := Except.bind_eq_ok.mp h
  rw [han] at han'
  cases han'
  obtain ⟨pinned, hpin, h⟩ := Except.bind_eq_ok.mp h
  obtain ⟨s, hcolor, h⟩ := Except.bind_eq_ok.mp h
  cases h
  exact ⟨an, pinned, s, hA, hA.alike.operands ▸ hpin, hcolor, rfl, rfl⟩

section Allocate

variable {symbols : SymbolTable} {conv : Convention} {c d : Code} {r : Routine} {an : Analysis}

theorem Arena.Fresh.tempsAreValues {a : Arena} (h : a.Fresh symbols) : a.TempsAreValues := by
  intro y tag ht
  rw [Arena.tag?, Option.bind_eq_some_iff] at ht
  obtain ⟨o, ho, ht⟩ := ht
  rw [Arena.isValue, ho, Option.any_some]
  rcases h.operand y o ho with (⟨t, tag', rfl⟩ | ⟨l, rfl⟩ | ⟨v, rfl⟩) | ⟨id, s, -, -, rfl⟩
  · rfl
  · cases ht
  · cases ht
  · cases ht

theorem Arena.Fresh.location_eq_none {a : Arena} (h : a.Fresh symbols) (y : OperandId) : a.location y = none := by
  rw [Arena.location]
  cases hy : a.get? y with
  | none => rfl
  | some o =>
    rcases h.operand y o hy with (⟨t, tag', rfl⟩ | ⟨l, rfl⟩ | ⟨v, rfl⟩) | ⟨id, s, -, -, rfl⟩ <;> rfl

theorem Arena.TempsAreValues.of_like {a b : Arena} (h : a.TempsAreValues) (hl : a.Like b) : b.TempsAreValues := by
  intro y tag ht
  rw [hl.isValue]
  exact h y tag (hl.tag? y ▸ ht)

theorem Analyzed.mem_liveOut (hlike : c.Like d) (h : Analyzed d r an) {i : Nat} {z w : Instr} (hf : r.first ≤ i)
    (hl : i ≤ r.last) (hw : an.code.instrs[i]? = some w) (hz : c.instrs[i]? = some z) :
    w = { z with liveOut := w.liveOut } ∧ ∀ x, x ∈ w.liveOut ↔ Wanted c r.flow x i := by
  obtain ⟨live, hlive⟩ := (hlike.trans h.alike.like).instr hz
  rw [hw] at hlive
  cases hlive
  exact ⟨rfl, fun x => (h.liveOut_iff i _ hf hl hw x).trans (wanted_like_iff hlike)⟩

theorem Analyzed.interferes_iff_clash (hlike : c.Like d) (hr : r.Built d) (h : Analyzed d r an) (x y : OperandId) :
    (an.code.interference an.flow).interferes x y ↔
      ∃ (i : Nat) (z : Instr), r.first ≤ i ∧ i ≤ r.last ∧ c.instrs[i]? = some z ∧ c.Clash r.flow i z x y := by
  have key : ∀ {i : Nat} {z w : Instr}, r.first ≤ i → i ≤ r.last → an.code.instrs[i]? = some w →
      c.instrs[i]? = some z → (w.Clash d.operands x y ↔ c.Clash r.flow i z x y) := by
    intro i z w hf hl hw hz
    obtain ⟨he, hlive⟩ := h.mem_liveOut hlike hf hl hw hz
    have hop : w.op = z.op := by rw [he]
    have hwr : w.writes? d.operands = z.writes? c.operands := by
      rw [hlike.writes?, he]
      rfl
    rw [Instr.Clash, Code.Clash, hlive, hlive, hop, hwr]
  rw [h.interferes_iff hr]
  constructor
  · rintro ⟨i, w, hf, hl, hw, hclash⟩
    obtain ⟨live, hz⟩ := (hlike.trans h.alike.like).symm.instr hw
    exact ⟨i, _, hf, hl, hz, (key hf hl hw hz).mp hclash⟩
  · rintro ⟨i, z, hf, hl, hz, hclash⟩
    obtain ⟨live, hw⟩ := (hlike.trans h.alike.like).instr hz
    exact ⟨i, _, hf, hl, hw, (key hf hl hw hz).mpr hclash⟩

theorem Code.Clash.symm {g : FlowGraph} {i : Nat} {z : Instr} {x y : OperandId} (h : c.Clash g i z x y) :
    c.Clash g i z y x := by
  obtain ⟨hne, h⟩ := h
  exact ⟨hne.symm, h.imp (fun ⟨h₁, h₂, h₃⟩ => ⟨h₁, h₃, h₂⟩) Or.symm⟩

theorem Code.Clash.occurs {g : FlowGraph} {i : Nat} {z : Instr} {x y : OperandId} (h : c.Clash g i z x y) :
    c.Occurs g i z x := by
  rcases h.2 with ⟨-, hx, -⟩ | ⟨hx, -⟩ | ⟨-, hx⟩
  · exact Or.inr (Or.inr hx)
  · exact Or.inl hx
  · exact Or.inr (Or.inr hx)

theorem Code.proper_interference (c : Code) (f : FlowGraph) : (c.interference f).Proper := by
  refine ⟨fun x y hxy => ?_, fun x hx => ?_⟩
  · obtain ⟨k, b, i, z, hk, hf, hl, hz, hclash⟩ := (c.interferes_iff f x y).mp hxy
    exact (c.interferes_iff f y x).mpr ⟨k, b, i, z, hk, hf, hl, hz, hclash.symm⟩
  · obtain ⟨k, b, i, z, -, -, -, -, hne, -⟩ := (c.interferes_iff f x x).mp hx
    exact hne rfl

theorem Analyzed.exists_exposed (hlike : c.Like d) (h : Analyzed d r an) {i : Nat} {z : Instr} {y : OperandId}
    (hf : r.first ≤ i) (hl : i ≤ r.last) (hz : c.instrs[i]? = some z)
    (hy : z.divisor? c.operands = some y ∨ (Wanted c r.flow y i ∧ z.writes? c.operands ≠ some y)) :
    ∃ w ∈ an.code.slice r.first r.last, w.op = z.op ∧ (w.divisor? d.operands = some y ∨ y ∈ w.exposed) := by
  obtain ⟨live, hw⟩ := (hlike.trans h.alike.like).instr hz
  refine ⟨_, (Code.mem_slice _ _ _ _).mpr ⟨i, hf, hl, hw⟩, rfl, ?_⟩
  rcases hy with hdiv | ⟨hwant, hne⟩
  · exact Or.inl ((Convention.divisor?_of_like hlike.operands z).trans hdiv)
  · refine Or.inr (Instr.mem_exposed.mpr ⟨((h.mem_liveOut hlike hf hl hw hz).2 y).mpr hwant, fun hdest => hne ?_⟩)
    exact Instr.writes?_eq_some.mpr ⟨hdest, hwant.isValue⟩

theorem Analyzed.mem_order_iff (hlike : c.Like d) (hr : r.Built d) (h : Analyzed d r an) (y : OperandId) :
    y ∈ (an.code.interference an.flow).order ↔
      ∃ (i : Nat) (z : Instr), r.first ≤ i ∧ i ≤ r.last ∧ c.instrs[i]? = some z ∧ c.Occurs r.flow i z y := by
  have key : ∀ {i : Nat} {z w : Instr}, r.first ≤ i → i ≤ r.last → an.code.instrs[i]? = some w →
      c.instrs[i]? = some z → ((w.writes? an.code.operands = some y ∨ y ∈ w.reads an.code.operands ∨ y ∈ w.liveOut) ↔
        c.Occurs r.flow i z y) := by
    intro i z w hf hl hw hz
    obtain ⟨he, hlive⟩ := h.mem_liveOut hlike hf hl hw hz
    have hwr : w.writes? an.code.operands = z.writes? c.operands := by
      rw [h.alike.operands, hlike.writes?, he]
      rfl
    have hrd : w.reads an.code.operands = z.reads c.operands := by
      rw [h.alike.operands, hlike.reads, he]
      rfl
    rw [Code.Occurs, hwr, hrd, hlive]
  rw [Code.mem_order]
  constructor
  · rintro ⟨k, b, i, w, hb, h1, h2, hw, hy⟩
    obtain ⟨e, he, hef, hel⟩ := h.block_of hb
    have := hr.block_bounds he
    obtain ⟨live, hz⟩ := (hlike.trans h.alike.like).symm.instr hw
    exact ⟨i, _, by omega, by omega, hz, (key (by omega) (by omega) hw hz).mp hy⟩
  · rintro ⟨i, z, hf, hl, hz, hy⟩
    obtain ⟨live, hw⟩ := (hlike.trans h.alike.like).instr hz
    obtain ⟨k, b, hk, hbi, hib⟩ := hr.exists_block hf hl
    obtain ⟨e, he, hef, hel⟩ := h.block k b hk
    exact ⟨k, e, i, _, he, by omega, by omega, hw, (key hf hl hw hz).mpr hy⟩

/-- What an allocation of the function `r` of `c` makes of the code `d`. -/
structure Routine.Settles (conv : Convention) (c d : Code) (r : Routine) (al : Allocation) : Prop where
  like : c.Like al.code
  extent : al.routine.symbol = r.symbol ∧ al.routine.first = r.first ∧ al.routine.last = r.last
  moved : ∀ y, al.code.operands.location y ≠ d.operands.location y → c.operands.isValue y = true ∧ r.Mentions c y
  outside : ∀ i, i < r.first ∨ r.last < i → al.code.instrs[i]? = d.instrs[i]?
  noted : r.Noted c al.code
  placed : r.Placed conv c al.routine.interference al.code.operands

/-- Allocation of a function, whose values have no place yet, in code that is like the code it was built from. -/
theorem Routine.allocate_settles (hc : c.Sound symbols) (hr : r.Built c) (hlone : r.Lone c) (hlike : c.Like d)
    (hnew : ∀ y, c.operands.isValue y = true → r.Mentions c y → d.operands.location y = none) {al : Allocation}
    (h : r.allocate conv d = .ok al) : r.Settles conv c d al := by
  have hr' := hlike.built hr
  obtain ⟨an, pinned, s, hA, hpin, hcolor, hcode, hroutine⟩ := allocate_eq_ok hr' h
  have hclash := hA.interferes_iff_clash hlike hr'
  have hmentions : ∀ w ∈ an.code.slice r.first r.last, ∀ x ∈ w.mentions, r.Mentions c x := by
    intro w hw x hx
    obtain ⟨i, hf, hl, hw⟩ := (Code.mem_slice _ _ _ _).mp hw
    obtain ⟨live, hz⟩ := (hlike.trans hA.alike.like).symm.instr hw
    exact ⟨i, _, hf, hl, hz, hx⟩
  have hplaces := conv.places_of_phases (an.code.proper_interference an.flow)
    (hc.fresh.tempsAreValues.of_like hlike.operands) hmentions hpin hcolor
  -- an operand that occurs is in the arena and has had no place
  have hoccurs : ∀ {i : Nat} {z : Instr} {y : OperandId}, r.first ≤ i → i ≤ r.last → c.instrs[i]? = some z →
      c.Occurs r.flow i z y → d.operands.location y = none ∧ (d.operands.get? y).isSome := by
    intro i z y hf hl hz hy
    obtain ⟨hval, hm⟩ := hy.mentions hr hf hl hz
    refine ⟨hnew y hval hm, ?_⟩
    rw [← hlike.operands.isValue, Arena.isValue] at hval
    exact Option.isSome_of_any hval
  obtain ⟨code, routine, passes, choices⟩ := al
  dsimp only at hcode hroutine
  subst hcode hroutine
  refine ⟨⟨hlike.operands.trans hplaces.like, (hlike.trans hA.alike.like).instrs⟩, ⟨rfl, rfl, rfl⟩, fun y hy => ?_,
    hA.outside, fun i w hf hl hw => ?_, hclash, fun x y reg hxy hx hy => ?_, fun i z y hf hl hz hy => ?_,
    fun i z y reg hf hl hz hclob hy hreg => ?_⟩
  · rcases hplaces.moved y hy with hmem | ⟨hm, hval⟩
    · obtain ⟨i, z, hf, hl, hz, hocc⟩ := (hA.mem_order_iff hlike hr' y).mp hmem
      exact hocc.mentions hr hf hl hz
    · exact ⟨hlike.operands.isValue y ▸ hval, hm⟩
  · obtain ⟨live, hz⟩ := (hlike.trans hA.alike.like).symm.instr hw
    exact (hA.mem_liveOut hlike hf hl hw hz).2
  · obtain ⟨i, z, hf, hl, hz, hcl⟩ := (hclash x y).mp hxy
    obtain ⟨tx, ty, htx, hty, hfx, hfy⟩ := hplaces.apart x y reg hxy (hoccurs hf hl hz hcl.occurs).1
      (hoccurs hf hl hz hcl.symm.occurs).1 hx hy
    rw [hlike.operands.tag?] at htx hty
    exact hcl.doubles hc hr hlone hz htx hty hfx hfy
  · exact hplaces.resolved y ((hA.mem_order_iff hlike hr' y).mpr ⟨i, z, hf, hl, hz, hy⟩) (hoccurs hf hl hz hy).2
  · have hocc : c.Occurs r.flow i z y := by
      rcases hy with hdiv | ⟨hw, -⟩
      · exact Or.inr (Or.inl (Instr.mem_reads_of_divisor hdiv))
      · exact Or.inr (Or.inr hw)
    obtain ⟨hnone, hsome⟩ := hoccurs hf hl hz hocc
    obtain ⟨w, hw, hop, hexp⟩ := hA.exists_exposed hlike hf hl hz hy
    obtain ⟨tag, htag, hfix⟩ := hplaces.spared w hw y reg hnone hexp hsome (hop ▸ hclob) hreg
    rw [hlike.operands.tag?] at htag
    have := not_fixed_of_spared hc hr hlone hz hclob hy htag
    rw [Convention.isFixed_of_fixed? hfix] at this
    cases this

end Allocate

end MiddleEnd
