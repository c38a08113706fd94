import MiddleEnd.Compile
import MiddleEnd.Proofs.Allocation.Function

/-! What allocation of a function touches. Every phase changes one operand at a time, in a way that depends on
that operand alone or on its neighbours; so an allocation is a chain of such changes, and all of them fall on
values that the function mentions. -/

namespace MiddleEnd

/-! ### Changes of the arena -/

namespace Arena

theorem assign_eq {a : Arena} {x : OperandId} (reg : Register) (hx : a.isResolved x = false) :
    a.assign x reg = .ok (a.modify x fun o => { o with location := some (.register reg) }) :=
  assign_outside_frame reg fun _ ho => inFrame_of_unresolved hx ho

end Arena

/-- A change of an operand that gives it a place or keeps it out of registers, and takes no place away. -/
structure Operand.Notes (f : Operand → Operand) : Prop where
  bare : ∀ o, (f o).bare = o.bare
  kept : ∀ o, o.isResolved = true → (f o).isResolved = true

/-- `b` is `a` after such changes of operands of which `P` holds. -/
structure Arena.Amends (P : OperandId → Prop) (a b : Arena) : Prop where
  like : a.Like b
  interned : b.interned = a.interned
  outside : ∀ y, ¬ P y → b.get? y = a.get? y
  kept : ∀ y, a.isResolved y = true → b.isResolved y = true

namespace Arena

variable {P : OperandId → Prop} {a b d : Arena}

theorem Amends.refl (P : OperandId → Prop) (a : Arena) : a.Amends P a :=
  ⟨.refl a, rfl, fun _ _ => rfl, fun _ h => h⟩

theorem Amends.trans (h : a.Amends P b) (k : b.Amends P d) : a.Amends P d :=
  ⟨h.like.trans k.like, k.interned.trans h.interned, fun y hy => (k.outside y hy).trans (h.outside y hy),
    fun y hy => k.kept y (h.kept y hy)⟩

theorem Amends.mono (h : a.Amends P b) {Q : OperandId → Prop} (hPQ : ∀ y, P y → Q y) : a.Amends Q b :=
  ⟨h.like, h.interned, fun y hy => h.outside y fun hP => hy (hPQ y hP), h.kept⟩

theorem amends_modify {x : OperandId} {f : Operand → Operand} (hf : Operand.Notes f)
    (hx : P x ∨ ∀ o, a.get? x = some o → f o = o) : a.Amends P (a.modify x f) := by
  have hget := a.get?_modify x f
  rcases hx with hx | hx
  · refine ⟨fun y => ?_, rfl, fun y hy => ?_, fun y hy => ?_⟩
    · rw [hget]
      split
      · rw [Option.map_map]
        exact congrArg (fun g => (a.get? y).map g) (funext hf.bare)
      · rfl
    · rw [hget, if_neg]
      rintro rfl
      exact hy hx
    · rw [isResolved, hget]
      split
      · cases ho : a.get? y with
        | none =>
          rw [isResolved, ho] at hy
          cases hy
        | some o =>
          rw [isResolved, ho] at hy
          exact hf.kept o hy
      · exact hy
  · rw [modify_eq_self hx]
    exact .refl P a

theorem amends_foldl {α : Type} {f : Arena → α → Arena} {l : List α}
    (h : ∀ b, a.Amends P b → ∀ z ∈ l, b.Amends P (f b z)) : a.Amends P (l.foldl f a) := by
  induction l generalizing a with
  | nil => exact .refl P a
  | cons z l ih =>
    have hz := h a (.refl P a) z (by simp)
    exact hz.trans (ih fun b hb w hw => h b (hz.trans hb) w (by simp [hw]))

end Arena

/-! ### The phases without failure -/

namespace Convention

/-- What pinning makes of one operand. -/
def pinOperand (conv : Convention) (o : Operand) : Operand :=
  if o.isResolved then o else (o.tag?.bind conv.fixed?).elim o fun loc => { o with location := some loc }

theorem pin_eq (conv : Convention) (a : Arena) (x : OperandId) :
    conv.pin a x = .ok (a.modify x conv.pinOperand) := by
  unfold pin
  cases ho : a.get? x with
  | none =>
    have hself : a.modify x conv.pinOperand = a := Arena.modify_eq_self fun o h => by rw [ho] at h; cases h
    simp only [Arena.isResolved, Arena.tag?, ho, hself]
    rfl
  | some o =>
    cases hres : o.isResolved with
    | true =>
      have hself : a.modify x conv.pinOperand = a := Arena.modify_eq_self fun p h => by
        rw [ho] at h
        cases h
        rw [pinOperand, if_pos hres]
      rw [if_pos (by rw [Arena.isResolved, ho]; exact hres), hself]
    | false =>
      have hx : a.isResolved x = false := by rw [Arena.isResolved, ho]; exact hres
      have htag : a.tag? x = o.tag? := by rw [Arena.tag?, ho]; rfl
      rw [if_neg (by rw [hx]; exact Bool.false_ne_true), htag]
      -- the operand at `x` is the only one that pinning looks at
      have hpin : ∀ f : Operand → Operand, conv.pinOperand o = f o → a.modify x f = a.modify x conv.pinOperand :=
        fun f hf => Arena.modify_congr fun p h => by rw [ho] at h; cases h; exact hf.symm
      cases hloc : o.tag?.bind conv.fixed? with
      | none =>
        refine congrArg Except.ok (Arena.modify_eq_self fun p h => ?_).symm
        rw [ho] at h
        cases h
        simp [pinOperand, hres, hloc]
      | some loc =>
        cases loc with
        | register reg =>
          refine (Arena.assign_eq reg hx).trans (congrArg Except.ok (hpin _ ?_))
          simp [pinOperand, hres, hloc]
        | frame =>
          refine congrArg Except.ok (hpin Operand.spill ?_)
          simp [pinOperand, hres, hloc, Operand.spill]

/-- What pinning makes of the arena at one instruction. -/
def pinAll (conv : Convention) (a : Arena) (z : Instr) : Arena :=
  conv.spillParam (z.mentions.foldl (fun a x => a.modify x conv.pinOperand) a) z

theorem pinInstr_eq (conv : Convention) (a : Arena) (z : Instr) : conv.pinInstr a z = .ok (conv.pinAll a z) := by
  have hpin : conv.pin = fun a x => pure (a.modify x conv.pinOperand) := funext fun a => funext (conv.pin_eq a)
  rw [pinInstr, hpin, List.foldlM_pure]
  rfl

theorem foldlM_pinInstr (conv : Convention) (is : List Instr) (a : Arena) :
    is.foldlM conv.pinInstr a = .ok (is.foldl conv.pinAll a) := by
  have hpin : conv.pinInstr = fun a z => pure (conv.pinAll a z) := funext fun a => funext (conv.pinInstr_eq a)
  rw [hpin, List.foldlM_pure]
  rfl

end Convention

namespace Interference

/-- The place that colouring chooses for an operand. -/
def choice (g : Interference) (registers : List Register) (a : Arena) (x : OperandId) : Location :=
  (g.free? a registers x).elim .frame .register

/-- What the turn of one operand makes of the arena and the choices. -/
def turn (g : Interference) (registers : List Register) (s : Coloring) (x : OperandId) : Coloring :=
  if s.operands.isResolved x then s
  else
    { operands := s.operands.modify x fun o => { o with location := some (g.choice registers s.operands x) }
      choices := s.choices ++ [(x, g.choice registers s.operands x)] }

theorem colorOne_eq (g : Interference) (registers : List Register) (s : Coloring) (x : OperandId) :
    g.colorOne registers s x = .ok (g.turn registers s x) := by
  unfold colorOne turn choice
  split
  case isTrue => rfl
  case isFalse hx =>
    split
    case h_1 reg hreg =>
      rw [Arena.assign_eq reg (by simpa using hx), hreg]
      rfl
    case h_2 hreg =>
      rw [hreg]
      rfl

theorem foldlM_colorOne (g : Interference) (registers : List Register) (l : List OperandId) (s : Coloring) :
    l.foldlM (g.colorOne registers) s = .ok (l.foldl (g.turn registers) s) := by
  have hturn : g.colorOne registers = fun s x => pure (g.turn registers s x) :=
    funext fun s => funext (g.colorOne_eq registers s)
  rw [hturn, List.foldlM_pure]
  rfl

theorem color_eq (g : Interference) (registers : List Register) (a : Arena) :
    g.color registers a = .ok (g.order.foldl (g.turn registers) { operands := a }) :=
  foldlM_colorOne g registers g.order _

end Interference

/-- The arena that a function is coloured in: places that the convention fixes are taken, and registers that
instructions overwrite are ruled out. -/
def Routine.prepare (conv : Convention) (r : Routine) (an : Analysis) : Arena :=
  let is := an.code.slice r.first r.last
  is.foldl conv.restrictInstr (is.foldl conv.pinAll an.code.operands)

/-- What allocation makes of a function that has been analyzed. -/
def Routine.place (conv : Convention) (r : Routine) (an : Analysis) : Allocation :=
  let g := an.code.interference an.flow
  let coloring := g.order.foldl (g.turn conv.registers) { operands := r.prepare conv an }
  { code := { an.code with operands := coloring.operands }
    routine := { r with flow := an.flow, interference := g, spilled := coloring.spilled }
    passes := an.passes
    choices := coloring.choices }

theorem Routine.allocate_eq_place {conv : Convention} {r : Routine} {c : Code} {an : Analysis}
    (h : c.analyze r.flow = .ok an) : r.allocate conv c = .ok (r.place conv an) := by
  unfold allocate
  rw [h]
  simp only [bind, Except.bind, Convention.foldlM_pinInstr, Interference.color_eq]
  rfl

/-! ### The footprint of an allocation -/

/-- The values that a function mentions. -/
def Routine.Owns (r : Routine) (c : Code) (y : OperandId) : Prop := c.operands.isValue y = true ∧ r.Mentions c y

section Phases

variable {conv : Convention} {P : OperandId → Prop} {a b : Arena}

theorem Convention.notes_pinOperand (conv : Convention) : Operand.Notes conv.pinOperand := by
  refine ⟨fun o => ?_, fun o ho => ?_⟩
  · unfold pinOperand
    split
    · rfl
    · cases o.tag?.bind conv.fixed? <;> rfl
  · rw [pinOperand, if_pos ho]
    exact ho

theorem Convention.amends_spillParam {z : Instr} (hz : ∀ x ∈ z.mentions, a.isValue x = true → P x) :
    a.Amends P (conv.spillParam a z) := by
  unfold spillParam
  split
  case h_1 pos x hop hres =>
    split
    case isTrue hc =>
      simp only [Bool.and_eq_true] at hc
      exact Arena.amends_modify ⟨fun _ => rfl, fun _ _ => rfl⟩ (Or.inl (hz x (by simp [Instr.mentions, hres]) hc.2))
    case isFalse => exact .refl P a
  case h_2 => exact .refl P a

theorem Convention.amends_pinAll {z : Instr} (ha : a.TempsAreValues)
    (hz : ∀ x ∈ z.mentions, a.isValue x = true → P x) : a.Amends P (conv.pinAll a z) := by
  have hpin : a.Amends P (z.mentions.foldl (fun a x => a.modify x conv.pinOperand) a) := by
    refine Arena.amends_foldl fun b hb x hx => Arena.amends_modify conv.notes_pinOperand ?_
    by_cases hval : a.isValue x = true
    · exact Or.inl (hz x hx hval)
    · -- what is no value is no temporary, and no place is fixed for it
      refine Or.inr fun o ho => ?_
      have htag : o.tag? = none := by
        cases ht : o.tag? with
        | none => rfl
        | some tag =>
          refine absurd (ha x tag ?_) hval
          rw [← hb.like.tag? x, Arena.tag?, ho]
          exact ht
      simp [pinOperand, htag]
  exact hpin.trans (amends_spillParam fun x hx hval => hz x hx (hpin.like.isValue x ▸ hval))

theorem Operand.notes_restrict (regs : List Register) : Operand.Notes (·.restrict regs) :=
  ⟨fun _ => rfl, fun _ h => h⟩

theorem Convention.amends_restrictInstr {z : Instr}
    (hz : ∀ x, z.divisor? a = some x ∨ x ∈ z.exposed → P x) : a.Amends P (conv.restrictInstr a z) := by
  refine Arena.amends_foldl fun b _ x hx => Arena.amends_modify (Operand.notes_restrict _) (Or.inl (hz x ?_))
  rw [List.mem_append, Option.mem_toList, Std.ExtTreeSet.mem_toList] at hx
  exact hx

theorem Interference.amends_turn {g : Interference} {registers : List Register} {s : Coloring} {x : OperandId}
    (hx : P x) : s.operands.Amends P (g.turn registers s x).operands := by
  unfold turn
  split
  · exact .refl P _
  · exact Arena.amends_modify ⟨fun _ => rfl, fun _ _ => rfl⟩ (Or.inl hx)

theorem Interference.amends_turns {g : Interference} {registers : List Register} {l : List OperandId} {s : Coloring}
    (hl : ∀ x ∈ l, P x) : s.operands.Amends P (l.foldl (g.turn registers) s).operands := by
  induction l generalizing s with
  | nil => exact .refl P _
  | cons x l ih =>
    exact (amends_turn (hl x (by simp))).trans (ih fun y hy => hl y (by simp [hy]))

end Phases

section Allocate

variable {conv : Convention} {c d : Code} {r : Routine} {an : Analysis}

theorem Analyzed.owns_of_exposed (hr : r.Built c) (hlike : c.Like d) (h : Analyzed d r an) {w : Instr}
    (hw : w ∈ an.code.slice r.first r.last) {x : OperandId} (hx : w.divisor? d.operands = some x ∨ x ∈ w.exposed) :
    r.Owns c x := by
  obtain ⟨i, hf, hl, hw⟩ := (Code.mem_slice _ _ _ _).mp hw
  obtain ⟨live, hz⟩ := (hlike.trans h.alike.like).symm.instr hw
  have hocc : c.Occurs r.flow i { w with liveOut := live } x := by
    rcases hx with hdiv | hexp
    · refine Or.inr (Or.inl (Instr.mem_reads_of_divisor ?_))
      exact (Convention.divisor?_of_like hlike.operands.symm w).trans hdiv
    · exact Or.inr (Or.inr (((h.mem_liveOut hlike hf hl hw hz).2 x).mp (Instr.mem_exposed.mp hexp).1))
  exact hocc.mentions hr hf hl hz

theorem Routine.prepare_amends (conv : Convention) (hr : r.Built c) (hlike : c.Like d)
    (htemps : c.operands.TempsAreValues) (h : Analyzed d r an) : d.operands.Amends (r.Owns c) (r.prepare conv an) := by
  have hvalue : ∀ {b : Arena} {x}, d.operands.Amends (r.Owns c) b → b.isValue x = c.operands.isValue x :=
    fun hb => (hb.like.isValue _).trans (hlike.operands.isValue _)
  have hpin : d.operands.Amends (r.Owns c)
      ((an.code.slice r.first r.last).foldl conv.pinAll an.code.operands) := by
    rw [h.alike.operands]
    refine Arena.amends_foldl fun b hb w hw => Convention.amends_pinAll
      ((htemps.of_like hlike.operands).of_like hb.like) fun x hx hval => ⟨hvalue hb ▸ hval, ?_⟩
    obtain ⟨i, hf, hl, hw⟩ := (Code.mem_slice _ _ _ _).mp hw
    obtain ⟨live, hz⟩ := (hlike.trans h.alike.like).symm.instr hw
    exact ⟨i, _, hf, hl, hz, hx⟩
  refine hpin.trans (Arena.amends_foldl fun b hb w hw => Convention.amends_restrictInstr fun x hx => ?_)
  rw [Convention.divisor?_of_like (hpin.trans hb).like] at hx
  exact h.owns_of_exposed hr hlike hw hx

theorem Analyzed.owns_of_mem_order (hr : r.Built c) (hlike : c.Like d) (h : Analyzed d r an) {x : OperandId}
    (hx : x ∈ (an.code.interference an.flow).order) : r.Owns c x := by
  obtain ⟨i, z, hf, hl, hz, hocc⟩ := (h.mem_order_iff hlike (hlike.built hr) x).mp hx
  exact hocc.mentions hr hf hl hz

theorem Routine.place_amends (conv : Convention) (hr : r.Built c) (hlike : c.Like d)
    (htemps : c.operands.TempsAreValues) (h : Analyzed d r an) :
    d.operands.Amends (r.Owns c) (r.place conv an).code.operands :=
  (prepare_amends conv hr hlike htemps h).trans
    (Interference.amends_turns (s := { operands := _ }) fun _ hx => h.owns_of_mem_order hr hlike hx)

theorem Routine.place_resolves (hr : r.Built c) (hlike : c.Like d) (htemps : c.operands.TempsAreValues)
    (h : Analyzed d r an) {i : Nat} {z : Instr} {y : OperandId} (hf : r.first ≤ i) (hl : i ≤ r.last)
    (hz : c.instrs[i]? = some z) (hy : c.Occurs r.flow i z y) :
    (r.place conv an).code.operands.isResolved y = true := by
  have hmem := (h.mem_order_iff hlike (hlike.built hr) y).mpr ⟨i, z, hf, hl, hz, hy⟩
  refine Interference.color_resolved (Interference.color_eq _ conv.registers (r.prepare conv an)) hmem ?_
  have hval := (hy.mentions hr hf hl hz).1
  rw [← hlike.operands.isValue, ← (prepare_amends conv hr hlike htemps h).like.isValue] at hval
  exact Option.isSome_of_any hval

end Allocate

end MiddleEnd
