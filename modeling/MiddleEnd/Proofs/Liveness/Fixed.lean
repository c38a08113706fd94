import MiddleEnd.Proofs.Liveness.Analysis
import MiddleEnd.Proofs.Lowering.Sound

/-! How long the temporaries live that a calling convention fixes. Each is read right behind the straight
line of instructions that supplies it, so it is wanted along that line only; and two of them that are in
each other's way are two arguments of one call or two parameters of one function. -/

namespace MiddleEnd

/-- Control goes on from the instruction and comes to it from the one before only. -/
def Opcode.isStraight : Opcode → Bool
  | .label | .jump | .branch | .ret => false
  | _ => true

/-- How far before the instruction `z` the line starts that supplies an operand with a tag. -/
def Tag.reach (z : Instr) : Tag → Nat
  | .param k => k + 1
  | .arg k => z.args.length - k
  | _ => 1

/-- A straight line from `s` to `j` that starts with a header or by writing `y`. -/
structure Code.Line (c : Code) (y : OperandId) (s j : Nat) : Prop where
  lt : s < j
  straight : ∀ m, s ≤ m → m < j → ∃ x, c.instrs[m]? = some x ∧ x.op.isStraight = true
  start : ∃ x, c.instrs[s]? = some x ∧ (x.op = .header ∨ x.dest? = some y)

theorem Code.SetBefore.line {c : Code} {pos : Nat} {op : Opcode} {y : OperandId} (h : c.SetBefore pos op y)
    (hop : op.isStraight = true) (hne : op ≠ .header) : c.Line y (pos - 1) pos := by
  obtain ⟨s, x, rfl, hx, rfl, hres⟩ := h
  refine ⟨by omega, fun m hm hlt => ?_, x, hx, Or.inr ?_⟩
  · obtain rfl : m = s := by omega
    exact ⟨x, hx, hop⟩
  · unfold Instr.dest?
    split
    case h_1 h => exact absurd h hne
    case h_2 => exact hres

theorem Code.MayRead.line {c : Code} {pos : Nat} {z : Instr} {y : OperandId} {tag : Tag}
    (h : c.MayRead pos z y tag) (hfixed : tag.isFixed = true) : c.Line y (pos - tag.reach z) pos := by
  cases tag with
  | param k =>
    obtain ⟨s, rfl, ⟨x, hx, hop⟩, hparams, -⟩ := h
    rw [show s + 1 + k - Tag.reach z (.param k) = s by simp only [Tag.reach]; omega]
    refine ⟨by omega, fun m hm hlt => ?_, x, hx, Or.inl hop⟩
    rcases Nat.eq_or_lt_of_le hm with rfl | hm
    · exact ⟨x, hx, by rw [hop]; rfl⟩
    · obtain ⟨w, hw, hop⟩ := hparams (m - (s + 1)) (by omega)
      rw [show s + 1 + (m - (s + 1)) = m by omega] at hw
      exact ⟨w, hw, by rw [hop]; rfl⟩
  | arg k =>
    obtain ⟨s, rfl, -, hk, hargs⟩ := h
    have hlt : k < z.args.length := (List.getElem?_eq_some_iff.mp hk).1
    rw [show s + z.args.length - Tag.reach z (.arg k) = s + k by simp only [Tag.reach]; omega]
    refine ⟨by omega, fun m hm hlt => ?_, ?_⟩
    · obtain ⟨w, hw, hop, -⟩ := hargs (m - s) (by omega)
      rw [show s + (m - s) = m by omega] at hw
      exact ⟨w, hw, by rw [hop]; rfl⟩
    · obtain ⟨w, hw, hop, hres⟩ := hargs k hlt
      exact ⟨w, hw, Or.inr (by rw [Instr.dest?, hop]; exact hres.trans hk)⟩
  | callResult => exact h.2.line rfl (by simp)
  | returnValue => exact h.2.line rfl (by simp)
  | _ => cases hfixed

theorem Routine.Built.eq_succ_or_breaks {c : Code} {r : Routine} (hr : r.Built c) {i j : Nat}
    (h : r.flow.Follows i j) : j = i + 1 ∨ (r.first < j ∧ c.Breaks j) := by
  rcases h with ⟨k, b, hk, h1, h2, rfl⟩ | ⟨k, l, b, d, hk, rfl, hl, hd, rfl⟩
  · exact Or.inl rfl
  · have hne := hr.succ_ne_zero k l b hk hl
    obtain ⟨e, he⟩ : ∃ e, r.flow.blocks[0]? = some e :=
      ⟨_, List.getElem?_eq_getElem (by
        have := (List.getElem?_eq_some_iff.mp ((FlowGraph.blocks_getElem? r.flow l).trans hd)).1
        omega)⟩
    have hlt := hr.tiles.ordered (Nat.pos_of_ne_zero hne) he ((FlowGraph.blocks_getElem? r.flow l).trans hd)
    have hb := hr.tiles.bounds he
    rcases hr.breaks l d hd with heq | hbreaks
    · omega
    · exact Or.inr ⟨by omega, hbreaks⟩

theorem Wanted.isValue {c : Code} {g : FlowGraph} {x : OperandId} {i : Nat} (h : Wanted c g x i) :
    c.operands.isValue x = true := by
  induction h with
  | read _ _ hx => exact (List.mem_filter.mp hx).2
  | pass _ _ _ _ ih => exact ih

section Fixed

variable {symbols : SymbolTable} {c : Code} {r : Routine} {y : OperandId} {tag : Tag} {i : Nat}

theorem Code.Line.not_breaks {s j m : Nat} (h : c.Line y s j) (hm : s < m) (hmj : m ≤ j)
    (hj : ∀ z, c.instrs[j]? = some z → z.op ≠ .label) : ¬ c.Breaks m := by
  rintro (⟨x, hx, hop⟩ | ⟨before, x, rfl, hx, hop⟩)
  · rcases Nat.eq_or_lt_of_le hmj with rfl | hlt
    · exact hj x hx hop
    · obtain ⟨w, hw, hs⟩ := h.straight m (by omega) hlt
      rw [hx] at hw
      cases hw
      rw [hop] at hs
      cases hs
  · obtain ⟨w, hw, hs⟩ := h.straight before (by omega) (by omega)
    rw [hx] at hw
    cases hw
    rcases hop with hop | hop | hop <;> · rw [hop] at hs; cases hs

theorem Code.MayRead.op_ne_label {z : Instr} {pos : Nat} (h : c.MayRead pos z y tag) (hfixed : tag.isFixed = true) :
    z.op ≠ .label := by
  cases tag with
  | param k => obtain ⟨-, -, -, -, hop, -⟩ := h; simp [hop]
  | arg k => obtain ⟨-, -, hop, -⟩ := h; simp [hop]
  | callResult => simp [h.1]
  | returnValue => simp [h.1]
  | _ => cases hfixed

/-- A function has no header but at its start. -/
def Routine.Lone (r : Routine) (c : Code) : Prop :=
  ∀ (m : Nat) (x : Instr), r.first < m → m ≤ r.last → c.instrs[m]? = some x → x.op ≠ .header

/-- A value that is read at the ends of lines only is wanted along these lines only. -/
theorem Wanted.on_line (hr : r.Built c) (hlone : r.Lone c) {P : Nat → Nat → Instr → Prop}
    (hlines : ∀ j z, c.instrs[j]? = some z → y ∈ z.sources → z.op ≠ .label ∧ ∃ s, P s j z ∧ c.Line y s j)
    (h : Wanted c r.flow y i) :
    ∃ s j z, c.instrs[j]? = some z ∧ z.op ≠ .label ∧ P s j z ∧ c.Line y s j ∧ s ≤ i ∧ i < j := by
  have hend : ∀ {j : Nat} {z : Instr}, c.instrs[j]? = some z → z.op ≠ .label →
      ∀ w, c.instrs[j]? = some w → w.op ≠ .label := by
    intro j z hz hop w hw
    rw [hz] at hw
    cases hw
    exact hop
  induction h with
  | @read i j z hstep hz hy =>
    obtain ⟨hop, s, hs, hline⟩ := hlines j z hz (List.mem_filter.mp hy).1
    have hlt := hline.lt
    rcases hr.eq_succ_or_breaks hstep with rfl | ⟨-, hbreaks⟩
    · exact ⟨s, i + 1, z, hz, hop, hs, hline, by omega, by omega⟩
    · exact absurd hbreaks (hline.not_breaks hlt (Nat.le_refl _) (hend hz hop))
  | @pass i j w hstep hw hwrite hwant ih =>
    obtain ⟨s, k, z, hz, hop, hs, hline, hsj, hjk⟩ := ih
    obtain ⟨⟨hfi, -⟩, -, hjl⟩ := hr.follows_bounds hstep
    -- the line does not start here, since the instruction neither writes the operand nor is the header
    have hne : r.first < j → s ≠ j := by
      rintro hj rfl
      obtain ⟨x, hx, hstart⟩ := hline.start
      rw [hw] at hx
      cases hx
      rcases hstart with hop | hdest
      · exact hlone s w hj hjl hw hop
      · exact hwrite (by rw [Instr.writes?, hdest, Option.filter_some, if_pos hwant.isValue])
    rcases hr.eq_succ_or_breaks hstep with rfl | ⟨hj, hbreaks⟩
    · have := hne (by omega)
      exact ⟨s, k, z, hz, hop, hs, hline, by omega, by omega⟩
    · have := hne hj
      exact absurd hbreaks (hline.not_breaks (by omega) (by omega) (hend hz hop))

theorem Wanted.fixed (hc : c.Sound symbols) (hr : r.Built c) (hlone : r.Lone c)
    (htag : c.operands.tag? y = some tag) (hfixed : tag.isFixed = true) (h : Wanted c r.flow y i) :
    ∃ j z, c.instrs[j]? = some z ∧ c.MayRead j z y tag ∧ j - tag.reach z ≤ i ∧ i < j := by
  obtain ⟨s, j, z, hz, -, ⟨hmay, rfl⟩, -, hsi, hij⟩ := h.on_line hr hlone
    (P := fun s j z => c.MayRead j z y tag ∧ s = j - tag.reach z) fun j z hz hy => by
      have hmay := (hc.fits j z hz).sources y hy tag htag
      exact ⟨hmay.op_ne_label hfixed, _, ⟨hmay, rfl⟩, hmay.line hfixed⟩
  exact ⟨j, z, hz, hmay, hsi, hij⟩

theorem Wanted.fixed_cases (hc : c.Sound symbols) (hr : r.Built c) (hlone : r.Lone c)
    (htag : c.operands.tag? y = some tag) (hfixed : tag.isFixed = true) (h : Wanted c r.flow y i) {x : Instr}
    (hx : c.instrs[i]? = some x) :
    (∃ k z, tag = .param k ∧ x.op = .header ∧ c.instrs[i + 1 + k]? = some z ∧ z.sources = [y]) ∨
      (∃ k m, tag = .param k ∧ x.op = .param m) ∨
      (∃ k m, ∃ args : List OperandId, tag = .arg k ∧ x.op = .arg m ∧ args[k]? = some y ∧ x.result = args[m]?) ∨
      (tag = .callResult ∧ x.op = .call ∧ x.result = some y) ∨
      (tag = .returnValue ∧ x.op = .assign ∧ x.result = some y) := by
  obtain ⟨j, z, hz, hmay, hsi, hij⟩ := h.fixed hc hr hlone htag hfixed
  cases tag with
  | param k =>
    obtain ⟨s, rfl, ⟨w, hw, hop⟩, hparams, -, hsources⟩ := hmay
    simp only [Tag.reach] at hsi
    rcases Nat.eq_or_lt_of_le (show s ≤ i by omega) with rfl | hlt
    · rw [hx] at hw
      cases hw
      exact Or.inl ⟨k, z, rfl, hop, hz, hsources⟩
    · obtain ⟨w, hw, hop⟩ := hparams (i - (s + 1)) (by omega)
      rw [show s + 1 + (i - (s + 1)) = i by omega, hx] at hw
      cases hw
      exact Or.inr (Or.inl ⟨k, _, rfl, hop⟩)
  | arg k =>
    obtain ⟨s, rfl, -, hk, hargs⟩ := hmay
    have hlt : k < z.args.length := (List.getElem?_eq_some_iff.mp hk).1
    simp only [Tag.reach] at hsi
    obtain ⟨w, hw, hop, hres⟩ := hargs (i - s) (by omega)
    rw [show s + (i - s) = i by omega, hx] at hw
    cases hw
    exact Or.inr (Or.inr (Or.inl ⟨k, _, z.args, rfl, hop, hk, hres⟩))
  | callResult =>
    obtain ⟨-, s, w, rfl, hw, hop, hres⟩ := hmay
    simp only [Tag.reach] at hsi
    obtain rfl : i = s := by omega
    rw [hx] at hw
    cases hw
    exact Or.inr (Or.inr (Or.inr (Or.inl ⟨rfl, hop, hres⟩)))
  | returnValue =>
    obtain ⟨-, s, w, rfl, hw, hop, hres⟩ := hmay
    simp only [Tag.reach] at hsi
    obtain rfl : i = s := by omega
    rw [hx] at hw
    cases hw
    exact Or.inr (Or.inr (Or.inr (Or.inr ⟨rfl, hop, hres⟩)))
  | _ => cases hfixed

/-- Two tags that every convention keeps apart, if its argument registers differ. -/
def Tag.Apart (s t : Tag) : Prop :=
  ∃ k l, k ≠ l ∧ ((s = .arg k ∧ t = .arg l) ∨ (s = .param k ∧ t = .param l))

theorem Wanted.apart_of_writes (hc : c.Sound symbols) (hr : r.Built c) (hlone : r.Lone c)
    (htag : c.operands.tag? y = some tag) (hfixed : tag.isFixed = true) (h : Wanted c r.flow y i) {z : Instr}
    (hz : c.instrs[i]? = some z) {x : OperandId} {tag' : Tag} (hx : z.writes? c.operands = some x)
    (htag' : c.operands.tag? x = some tag') (hfixed' : tag'.isFixed = true) (hne : x ≠ y) : tag'.Apart tag := by
  have hdest : z.dest? = some x := by
    rw [Instr.writes?, Option.filter_eq_some_iff] at hx
    exact hx.1
  have hset := (hc.fits i z hz).dest x hdest tag' htag'
  have hresult : z.op ≠ .header → z.result = some x := by
    intro hop
    unfold Instr.dest? at hdest
    split at hdest
    · cases hdest
    · exact hdest
  rcases h.fixed_cases hc hr hlone htag hfixed hz with ⟨k, w, rfl, hop, -⟩ | ⟨k, m, rfl, hop⟩ |
    ⟨k, m, w, rfl, hop, hk, hm⟩ | ⟨rfl, hop, hres⟩ | ⟨rfl, hop, hres⟩
  · rw [Instr.dest?, hop] at hdest
    cases hdest
  · rw [hop] at hset
    cases tag' <;> simp [Opcode.MaySet, Tag.isFixed] at hset hfixed'
  · rw [hop] at hset
    rw [hresult (by simp [hop])] at hm
    cases tag' with
    | arg l =>
      obtain rfl : m = l := by simpa [Opcode.MaySet] using hset
      refine ⟨m, k, ?_, Or.inl ⟨rfl, rfl⟩⟩
      rintro rfl
      rw [hk] at hm
      exact hne (Option.some.inj hm)
    | _ => simp [Opcode.MaySet, Tag.isFixed] at hset hfixed'
  · rw [hresult (by simp [hop])] at hres
    exact absurd (Option.some.inj hres) hne
  · rw [hresult (by simp [hop])] at hres
    exact absurd (Option.some.inj hres) hne

theorem Wanted.apart_of_header (hc : c.Sound symbols) (hr : r.Built c) (hlone : r.Lone c) {x : OperandId}
    {tag' : Tag} (htag : c.operands.tag? y = some tag) (hfixed : tag.isFixed = true) (h : Wanted c r.flow y i)
    (htag' : c.operands.tag? x = some tag') (hfixed' : tag'.isFixed = true) (h' : Wanted c r.flow x i) {z : Instr}
    (hz : c.instrs[i]? = some z) (hop : z.op = .header) (hne : x ≠ y) : tag'.Apart tag := by
  -- after a header a fixed temporary is a parameter
  have hparam : ∀ {y tag}, c.operands.tag? y = some tag → tag.isFixed = true → Wanted c r.flow y i →
      ∃ k w, tag = .param k ∧ c.instrs[i + 1 + k]? = some w ∧ w.sources = [y] := by
    intro y tag htag hfixed h
    rcases h.fixed_cases hc hr hlone htag hfixed hz with ⟨k, w, rfl, -, hw, hs⟩ | ⟨k, m, -, hop'⟩ |
      ⟨k, m, w, -, hop', -⟩ | ⟨-, hop', -⟩ | ⟨-, hop', -⟩
    · exact ⟨k, w, rfl, hw, hs⟩
    all_goals
      rw [hop] at hop'
      cases hop'
  obtain ⟨k, w, rfl, hw, hs⟩ := hparam htag' hfixed' h'
  obtain ⟨l, v, rfl, hv, hs'⟩ := hparam htag hfixed h
  refine ⟨k, l, ?_, Or.inr ⟨rfl, rfl⟩⟩
  rintro rfl
  rw [hw] at hv
  cases hv
  rw [hs] at hs'
  exact hne (List.cons.inj hs').1

end Fixed

end MiddleEnd
