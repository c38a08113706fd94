import MiddleEnd.Proofs.Allocation.Arena
import MiddleEnd.Proofs.Liveness.Analysis

/-! Code that differs only in what analysis and allocation note on it. It has the same flow graphs, and the
same values are wanted at the same places. -/

namespace MiddleEnd

/-- Two tables differ at most in live-out sets, locations and restrictions. -/
structure Code.Like (c d : Code) : Prop where
  operands : c.operands.Like d.operands
  instrs : ∀ i : Nat, d.instrs[i]?.map Instr.bare = c.instrs[i]?.map Instr.bare

namespace Code

theorem Like.refl (c : Code) : c.Like c := ⟨.refl _, fun _ => rfl⟩

theorem Like.symm {c d : Code} (h : c.Like d) : d.Like c := ⟨h.operands.symm, fun i => (h.instrs i).symm⟩

theorem Like.trans {c d e : Code} (h : c.Like d) (k : d.Like e) : c.Like e :=
  ⟨h.operands.trans k.operands, fun i => (k.instrs i).trans (h.instrs i)⟩

theorem Alike.like {c d : Code} (h : c.Alike d) : c.Like d := by
  refine ⟨h.operands ▸ .refl _, fun i => ?_⟩
  cases hc : c.instrs[i]? with
  | none =>
    have hge : c.instrs.size ≤ i := by simpa using hc
    rw [Array.getElem?_eq_none (h.size ▸ hge)]
  | some x =>
    obtain ⟨live, hd⟩ := h.instrs i x hc
    rw [hd]
    rfl

variable {c d : Code}

theorem Like.instr (h : c.Like d) {i : Nat} {z : Instr} (hz : c.instrs[i]? = some z) :
    ∃ live, d.instrs[i]? = some { z with liveOut := live } := by
  have hi := h.instrs i
  rw [hz, Option.map_some, Option.map_eq_some_iff] at hi
  obtain ⟨w, hw, hbare⟩ := hi
  simp only [Instr.bare, Instr.mk.injEq] at hbare
  obtain ⟨h1, h2, h3, h4, h5, h6, -⟩ := hbare
  exact ⟨w.liveOut, by rw [hw, ← h1, ← h2, ← h3, ← h4, ← h5, ← h6]⟩

theorem Like.size (h : c.Like d) : d.instrs.size = c.instrs.size := by
  have key : ∀ {c d : Code}, c.Like d → c.instrs.size ≤ d.instrs.size := by
    intro c d h
    rcases Nat.lt_or_ge d.instrs.size c.instrs.size with hlt | hge
    · obtain ⟨live, hd⟩ := h.instr (Array.getElem?_eq_getElem hlt)
      simp at hd
    · exact hge
  exact Nat.le_antisymm (key h.symm) (key h)

theorem Like.reads (h : c.Like d) (z : Instr) : z.reads d.operands = z.reads c.operands :=
  z.reads_congr (funext h.operands.isValue)

theorem Like.writes? (h : c.Like d) (z : Instr) : z.writes? d.operands = z.writes? c.operands :=
  z.writes?_congr (funext h.operands.isValue)

theorem Like.breaks (h : c.Like d) {pos : Nat} (hb : c.Breaks pos) : d.Breaks pos := by
  rcases hb with ⟨x, hx, hop⟩ | ⟨before, x, hpos, hx, hop⟩
  · obtain ⟨live, hd⟩ := h.instr hx
    exact Or.inl ⟨_, hd, hop⟩
  · obtain ⟨live, hd⟩ := h.instr hx
    exact Or.inr ⟨before, _, hpos, hd, hop⟩

theorem Like.places (h : c.Like d) (label : OperandId) (pos : Nat) : d.places label pos = c.places label pos := by
  have key : ∀ {c d : Code}, c.Like d → c.places label pos = true → d.places label pos = true := by
    intro c d h hp
    obtain ⟨x, hx, hop, hl⟩ := (places_iff c label pos).mp hp
    obtain ⟨live, hd⟩ := h.instr hx
    exact (places_iff d label pos).mpr ⟨_, hd, hop, hl⟩
  exact Bool.eq_iff_iff.mpr ⟨key h.symm, key h⟩

theorem Like.labelAt? (h : c.Like d) (first last : Nat) (label : OperandId) :
    d.labelAt? first last label = c.labelAt? first last label := by
  unfold Code.labelAt?
  rw [show d.places label = c.places label from funext (h.places label)]

theorem Like.next (h : c.Like d) {first last i j : Nat} (hn : c.Next first last i j) : d.Next first last i j := by
  obtain ⟨hb, x, hx, hstep⟩ := hn
  obtain ⟨live, hd⟩ := h.instr hx
  refine ⟨hb, _, hd, hstep.imp id ?_⟩
  rintro ⟨label, ht, hl⟩
  exact ⟨label, ht, h.labelAt? first last label ▸ hl⟩

theorem Like.built (h : c.Like d) {r : Routine} (hr : r.Built c) : r.Built d := by
  refine ⟨hr.first_le, h.size ▸ hr.last_lt, ?_, hr.tiles, hr.head, hr.fresh, fun k b hk => ?_, hr.succ_ne_zero,
    fun i j hn => hr.follows i j (h.symm.next hn)⟩
  · obtain ⟨x, hx, hop⟩ := hr.header
    obtain ⟨live, hd⟩ := h.instr hx
    exact ⟨_, hd, hop⟩
  · exact (hr.breaks k b hk).imp id h.breaks

end Code

theorem Wanted.of_like {c d : Code} (h : c.Like d) {g : FlowGraph} {x : OperandId} {i : Nat} (hw : Wanted c g x i) :
    Wanted d g x i := by
  induction hw with
  | read hstep hz hx =>
    obtain ⟨live, hd⟩ := h.instr hz
    exact .read hstep hd (h.reads _ ▸ hx)
  | pass hstep hz hx _ ih =>
    obtain ⟨live, hd⟩ := h.instr hz
    exact .pass hstep hd (h.writes? _ ▸ hx) ih

theorem wanted_like_iff {c d : Code} (h : c.Like d) {g : FlowGraph} {x : OperandId} {i : Nat} :
    Wanted d g x i ↔ Wanted c g x i := ⟨.of_like h.symm, .of_like h⟩

theorem WantedAt.of_like {c d : Code} (h : c.Like d) {g : FlowGraph} {x : OperandId} {i : Nat}
    (hw : WantedAt c g x i) : WantedAt d g x i := by
  obtain ⟨z, hz, hx⟩ := hw
  obtain ⟨live, hd⟩ := h.instr hz
  refine ⟨_, hd, hx.imp (h.reads z ▸ ·) fun ⟨hne, hw⟩ => ⟨h.writes? z ▸ hne, hw.of_like h⟩⟩

end MiddleEnd
