import MiddleEnd.Proofs.Liveness.Fixed
import MiddleEnd.Proofs.Lowering.Extent
import MiddleEnd.Proofs.Lowering.Stepwise

/-! Temporaries are used once. An expression leaves its value in a temporary that was made for it, and whatever
takes the value takes it before the next label or branch. So while code is made, a temporary is written by one
instruction and read by one, along a straight line from the first to the second; only the one for the return
value is written at every return. -/

namespace MiddleEnd

open Builder

/-- The operand is read at a position. -/
def Code.ReadsAt (c : Code) (y : OperandId) (i : Nat) : Prop := ∃ z, c.instrs[i]? = some z ∧ y ∈ z.sources

/-- The operand is written at a position. -/
def Code.WritesAt (c : Code) (y : OperandId) (i : Nat) : Prop := ∃ z, c.instrs[i]? = some z ∧ z.dest? = some y

/-- An instruction computes what the temporaries with this tag hold; the caller has left a parameter. -/
def Tag.isComputed : Tag → Bool
  | .param _ | .returnValue => false
  | _ => true

/-- A temporary other than that of a return value. -/
def Arena.isSingle (a : Arena) (y : OperandId) : Bool := (a.tag? y).any (· ≠ .returnValue)

def Arena.isComputed (a : Arena) (y : OperandId) : Bool := (a.tag? y).any Tag.isComputed

/-- The next instruction may read the operand. If it is a temporary, nothing has read it yet, and a straight line
goes on from where it was written. -/
structure Code.Available (c : Code) (y : OperandId) : Prop where
  known : y < c.operands.size
  unread : c.operands.isSingle y = true → ∀ i, ¬ c.ReadsAt y i
  carried : c.operands.isComputed y = true → ∃ s, c.WritesAt y s ∧ c.Line y s c.instrs.size

/-- What holds of temporaries while code is made. -/
structure Code.Linear (c : Code) : Prop where
  known : ∀ y i, c.ReadsAt y i ∨ c.WritesAt y i → y < c.operands.size
  interned : ∀ (id : SymbolId) (y : OperandId), c.operands.interned[id]? = some y →
    y < c.operands.size ∧ c.operands.tag? y = none
  label : ∀ (i : Nat) (z : Instr), c.instrs[i]? = some z → z.op = .label → z.sources = []
  writes : ∀ y, c.operands.isSingle y = true → ∀ i j, c.WritesAt y i → c.WritesAt y j → i = j
  reads : ∀ y, c.operands.isSingle y = true → ∀ i j, c.ReadsAt y i → c.ReadsAt y j → i = j
  supplied : ∀ y, c.operands.isComputed y = true → ∀ i, c.ReadsAt y i → ∃ s, c.WritesAt y s ∧ c.Line y s i

namespace Code

variable {c d : Code} {z : Instr} {y : OperandId} {n i s : Nat}

/-! ### What one more operand or instruction changes -/

theorem exists_instr_addInstr {P : Instr → Prop} : (∃ x, (c.addInstr z).instrs[i]? = some x ∧ P x) ↔
    (i = c.instrs.size ∧ P z) ∨ ∃ x, c.instrs[i]? = some x ∧ P x := by
  rw [getElem?_addInstr]
  split
  case isTrue hi => simp [hi]
  case isFalse hi => simp [hi]

theorem readsAt_addInstr : (c.addInstr z).ReadsAt y i ↔ (i = c.instrs.size ∧ y ∈ z.sources) ∨ c.ReadsAt y i :=
  exists_instr_addInstr

theorem writesAt_addInstr : (c.addInstr z).WritesAt y i ↔ (i = c.instrs.size ∧ z.dest? = some y) ∨ c.WritesAt y i :=
  exists_instr_addInstr

theorem Line.of_grows (h : c.Line y s i) (hg : c.Grows d) : d.Line y s i := by
  refine ⟨h.lt, fun m hsm hmi => ?_, ?_⟩
  · obtain ⟨x, hx, hop⟩ := h.straight m hsm hmi
    exact ⟨x, hg.instrs m x hx, hop⟩
  · obtain ⟨x, hx, hop⟩ := h.start
    exact ⟨x, hg.instrs s x hx, hop⟩

theorem Line.addInstr (h : c.Line y s c.instrs.size) (hz : z.op.isStraight = true) :
    (c.addInstr z).Line y s (c.instrs.size + 1) := by
  have hg := h.of_grows (c.grows_addInstr z)
  refine ⟨by have := h.lt; omega, fun m hsm hm => ?_, hg.start⟩
  rcases Nat.lt_succ_iff_lt_or_eq.mp hm with hm | rfl
  · exact hg.straight m hsm hm
  · exact ⟨z, (c.getElem?_addInstr z _).trans (if_pos rfl), hz⟩

theorem Grows.isSingle (hg : c.Grows d) (hy : y < c.operands.size) :
    d.operands.isSingle y = c.operands.isSingle y := by
  rw [Arena.isSingle, Arena.isSingle, hg.tag? hy]

theorem Grows.isComputed (hg : c.Grows d) (hy : y < c.operands.size) :
    d.operands.isComputed y = c.operands.isComputed y := by
  rw [Arena.isComputed, Arena.isComputed, hg.tag? hy]

theorem Available.of_operands (h : c.Available y) (hg : c.Grows d) (hinstrs : d.instrs = c.instrs) :
    d.Available y := by
  refine ⟨Nat.lt_of_lt_of_le h.known hg.size_operands, fun hs i => ?_, fun hs => ?_⟩
  · rw [ReadsAt, hinstrs]
    exact h.unread (hg.isSingle h.known ▸ hs) i
  · obtain ⟨s, hw, hline⟩ := h.carried (hg.isComputed h.known ▸ hs)
    rw [hinstrs]
    exact ⟨s, by rwa [WritesAt, hinstrs], hline.of_grows hg⟩

theorem Linear.of_operands (h : c.Linear) (hg : c.Grows d) (hinstrs : d.instrs = c.instrs)
    (hinterned : ∀ (id : SymbolId) (y : OperandId), d.operands.interned[id]? = some y →
      y < d.operands.size ∧ d.operands.tag? y = none) : d.Linear := by
  have hreads : ∀ {y i}, d.ReadsAt y i → c.ReadsAt y i := fun h => by rwa [ReadsAt, hinstrs] at h
  have hwrites : ∀ {y i}, d.WritesAt y i → c.WritesAt y i := fun h => by rwa [WritesAt, hinstrs] at h
  have hknown : ∀ y i, d.ReadsAt y i ∨ d.WritesAt y i → y < c.operands.size :=
    fun y i hy => h.known y i (hy.imp hreads hwrites)
  refine ⟨fun y i hy => Nat.lt_of_lt_of_le (hknown y i hy) hg.size_operands, hinterned,
    fun i z hz => h.label i z (hinstrs ▸ hz), fun y hs i j hi hj => ?_, fun y hs i j hi hj => ?_, fun y hs i hi => ?_⟩
  · exact h.writes y (hg.isSingle (hknown y i (Or.inr hi)) ▸ hs) i j (hwrites hi) (hwrites hj)
  · exact h.reads y (hg.isSingle (hknown y i (Or.inl hi)) ▸ hs) i j (hreads hi) (hreads hj)
  · obtain ⟨s, hw, hline⟩ := h.supplied y (hg.isComputed (hknown y i (Or.inl hi)) ▸ hs) i (hreads hi)
    exact ⟨s, by rwa [WritesAt, hinstrs], hline.of_grows hg⟩

theorem Linear.interned_of_grows (h : c.Linear) (hg : c.Grows d) {id : SymbolId}
    (hy : c.operands.interned[id]? = some y) : y < d.operands.size ∧ d.operands.tag? y = none := by
  obtain ⟨hlt, htag⟩ := h.interned id y hy
  exact ⟨Nat.lt_of_lt_of_le hlt hg.size_operands, (hg.tag? hlt).trans htag⟩

theorem Linear.addOperand (h : c.Linear) (o : Operand) : (c.addOperand o).Linear :=
  have hg := c.grows_addOperand o
  h.of_operands hg rfl fun _ _ hy => h.interned_of_grows hg hy

theorem Linear.addSymbol (h : c.Linear) (id : SymbolId) (sym : Symbol) : (c.addSymbol id sym).Linear := by
  have hg := c.grows_addSymbol id sym
  refine h.of_operands hg rfl fun t y hy => ?_
  obtain ⟨x, -, he⟩ | ⟨-, -, hget, hint⟩ := c.operands.symbol_cases id sym
  · rw [operands_addSymbol, he] at hy
    exact h.interned_of_grows hg hy
  · rw [operands_addSymbol, hint] at hy
    split at hy
    · cases hy
      have hself := (hget c.operands.size).trans (if_pos rfl)
      exact ⟨Arena.lt_size_of_get? hself, by rw [Arena.tag?, operands_addSymbol, hself]; rfl⟩
    · exact h.interned_of_grows hg hy

theorem Available.addInstr (h : c.Available y) (hz : z.op.isStraight = true)
    (hy : y ∈ z.sources → c.operands.tag? y = none) : (c.addInstr z).Available y := by
  refine ⟨h.known, fun hs i hi => ?_, fun hs => ?_⟩
  · rcases readsAt_addInstr.mp hi with ⟨-, hmem⟩ | hi
    · have hs : c.operands.isSingle y = true := hs
      rw [Arena.isSingle, hy hmem] at hs
      cases hs
    · exact h.unread hs i hi
  · obtain ⟨s, hw, hline⟩ := h.carried hs
    rw [size_addInstr]
    exact ⟨s, writesAt_addInstr.mpr (Or.inr hw), hline.addInstr hz⟩

theorem Linear.addInstr (h : c.Linear) (hsources : ∀ y ∈ z.sources, c.Available y)
    (hdest : ∀ y, z.dest? = some y → y < c.operands.size ∧ (c.operands.isSingle y = true → ∀ i, ¬ c.WritesAt y i))
    (hlabel : z.op = .label → z.sources = []) : (c.addInstr z).Linear := by
  refine ⟨fun y i hy => ?_, h.interned, fun i x hx hop => ?_, fun y hs i j hi hj => ?_, fun y hs i j hi hj => ?_,
    fun y hs i hi => ?_⟩
  · rw [readsAt_addInstr, writesAt_addInstr] at hy
    rcases hy with (⟨-, hy⟩ | hy) | (⟨-, hy⟩ | hy)
    · exact (hsources y hy).known
    · exact h.known y i (Or.inl hy)
    · exact (hdest y hy).1
    · exact h.known y i (Or.inr hy)
  · rw [getElem?_addInstr] at hx
    split at hx
    · cases hx
      exact hlabel hop
    · exact h.label i x hx hop
  · rcases writesAt_addInstr.mp hi with ⟨hi, hy⟩ | hi <;> rcases writesAt_addInstr.mp hj with ⟨hj, hy'⟩ | hj
    · exact hi.trans hj.symm
    · exact absurd hj ((hdest y hy).2 hs j)
    · exact absurd hi ((hdest y hy').2 hs i)
    · exact h.writes y hs i j hi hj
  · rcases readsAt_addInstr.mp hi with ⟨hi, hy⟩ | hi <;> rcases readsAt_addInstr.mp hj with ⟨hj, hy'⟩ | hj
    · exact hi.trans hj.symm
    · exact absurd hj ((hsources y hy).unread hs j)
    · exact absurd hi ((hsources y hy').unread hs i)
    · exact h.reads y hs i j hi hj
  · have hkeep : ∀ {s i}, c.WritesAt y s ∧ c.Line y s i → (c.addInstr z).WritesAt y s ∧ (c.addInstr z).Line y s i :=
      fun hs => ⟨writesAt_addInstr.mpr (Or.inr hs.1), hs.2.of_grows (c.grows_addInstr z)⟩
    rcases readsAt_addInstr.mp hi with ⟨rfl, hy⟩ | hi
    · obtain ⟨s, hs⟩ := (hsources y hy).carried hs
      exact ⟨s, hkeep hs⟩
    · obtain ⟨s, hs⟩ := h.supplied y hs i hi
      exact ⟨s, hkeep hs⟩

/-! ### Where a temporary is used -/

theorem isSingle_of_tag {tag : Tag} (htag : c.operands.tag? y = some tag) (hne : tag ≠ .returnValue) :
    c.operands.isSingle y = true := by
  simp [Arena.isSingle, htag, hne]

theorem Linear.writesAt_iff (h : c.Linear) (hy : c.operands.isSingle y = true) (hi : c.WritesAt y i) (q : Nat) :
    c.WritesAt y q ↔ q = i :=
  ⟨fun hq => h.writes y hy q i hq hi, fun hq => hq ▸ hi⟩

theorem Linear.readsAt_iff (h : c.Linear) (hy : c.operands.isSingle y = true) (hi : c.ReadsAt y i) (q : Nat) :
    c.ReadsAt y q ↔ q = i :=
  ⟨fun hq => h.reads y hy q i hq hi, fun hq => hq ▸ hi⟩

/-! ### What lowering an expression does -/

/-- The operand is available, and if it is a temporary it was made when there were `n` operands or more. -/
def Made (n : Nat) (c : Code) (y : OperandId) : Prop := c.Available y ∧ (c.operands.tag? y = none ∨ n ≤ y)

/-- Code that was made of `c` and has left available what was so among the first `n` operands. -/
structure Extends (n : Nat) (c d : Code) : Prop where
  grows : c.Grows d
  linear : d.Linear
  kept : ∀ y < n, c.Available y → d.Available y

theorem Extends.refl (hc : c.Linear) : Extends n c c := ⟨.refl c, hc, fun _ _ h => h⟩

theorem Extends.trans {e : Code} (h : Extends n c d) (k : Extends n d e) : Extends n c e :=
  ⟨h.grows.trans k.grows, k.linear, fun y hy ha => k.kept y hy (h.kept y hy ha)⟩

theorem Extends.mono {m : Nat} (h : Extends n c d) (hm : m ≤ n) : Extends m c d :=
  ⟨h.grows, h.linear, fun y hy => h.kept y (Nat.lt_of_lt_of_le hy hm)⟩

theorem Extends.size_le (h : Extends n c d) : c.operands.size ≤ d.operands.size := h.grows.size_operands

theorem Made.mono {m : Nat} (h : Made n c y) (hm : m ≤ n) : Made m c y := ⟨h.1, h.2.imp id (Nat.le_trans hm)⟩

theorem Made.kept (h : Made n c y) (he : Extends c.operands.size c d) : Made n d y :=
  ⟨he.kept y h.1.known h.1, h.2.imp (he.grows.tag? h.1.known).trans id⟩

end Code

open Code

section Builder

variable {b b' : Builder} {n : Nat}

theorem extends_withInt (hb : b.code.Linear) (v : Int64) : Extends n b.code (b.withInt v).code :=
  ⟨grows_addOperand _ _, hb.addOperand _, fun _ _ h => h.of_operands (grows_addOperand _ _) rfl⟩

theorem extends_withSymbol (hb : b.code.Linear) (id : SymbolId) (s : Symbol) :
    Extends n b.code (b.withSymbol id s).code :=
  ⟨grows_addSymbol _ id s, hb.addSymbol id s, fun _ _ h => h.of_operands (grows_addSymbol _ id s) rfl⟩

theorem made_of_tag {c : Code} {y : OperandId} (hy : y < c.operands.size) (htag : c.operands.tag? y = none) :
    Made n c y := by
  refine ⟨⟨hy, fun h => ?_, fun h => ?_⟩, Or.inl htag⟩
  · rw [Arena.isSingle, htag] at h
    cases h
  · rw [Arena.isComputed, htag] at h
    cases h

theorem made_withInt (v : Int64) : Made n (b.withInt v).code b.code.operands.size := by
  have hget := get?_addOperand_self b.code { kind := .int v, isValue := false }
  exact made_of_tag (Arena.lt_size_of_get? hget) (by rw [Arena.tag?, withInt, hget]; rfl)

theorem made_symbol (hb : b.code.Linear) (id : SymbolId) (s : Symbol) :
    Made n (b.withSymbol id s).code (b.code.operands.symbol id s).1 := by
  obtain ⟨hlt, htag⟩ := (hb.addSymbol id s).interned id _ (b.code.operands.interned_symbol id s)
  exact made_of_tag hlt htag

theorem symbol_not_single (hb : b.code.Linear) (id : SymbolId) (s : Symbol) :
    (b.code.operands.symbol id s).1 < (b.withSymbol id s).code.operands.size ∧
      (b.withSymbol id s).code.operands.isSingle (b.code.operands.symbol id s).1 = false := by
  obtain ⟨hlt, htag⟩ := (hb.addSymbol id s).interned id _ (b.code.operands.interned_symbol id s)
  refine ⟨hlt, ?_⟩
  rw [Arena.isSingle]
  exact htag ▸ rfl

variable {op : Opcode} {result left right : Option OperandId} {args : List OperandId}

theorem linear_withInstr (hb : b.code.Linear) (hargs : op = .label → args = [])
    (hsources : ∀ y ∈ (b.instr op result left right args).sources, b.code.Available y)
    (hresult : ∀ y, result = some y → y < b.code.operands.size ∧ b.code.operands.isSingle y = false) :
    (b.withInstr op result left right args).code.Linear := by
  refine hb.addInstr hsources (fun y hy => ?_) fun hlabel => ?_
  · have hres : result = some y := by
      unfold Instr.dest? at hy
      split at hy
      · cases hy
      · exact hy
    obtain ⟨hlt, hsingle⟩ := hresult y hres
    exact ⟨hlt, fun hs => by rw [hsingle] at hs; cases hs⟩
  · have hop : op = .label := hlabel
    simp [Instr.sources, instr, hop, hargs hop]

theorem extends_withInstr (hb : b.code.Linear) (hop : op.isStraight = true)
    (hsources : ∀ y ∈ (b.instr op result left right args).sources, Made n b.code y)
    (hresult : ∀ y, result = some y → y < b.code.operands.size ∧ b.code.operands.isSingle y = false) :
    Extends n b.code (b.withInstr op result left right args).code := by
  refine ⟨grows_addInstr _ _, linear_withInstr hb (fun h => ?_) (fun y hy => (hsources y hy).1) hresult, fun y hy h =>
    h.addInstr hop fun hmem => (hsources y hmem).2.resolve_right (Nat.not_le.mpr hy)⟩
  rw [h] at hop
  cases hop

theorem available_compute {tag : Tag} {y : OperandId} (h : b.code.Available y) (hop : op.isStraight = true)
    (hy : y ∈ (b.instr op (some b.code.operands.size) left right args).sources → b.code.operands.tag? y = none) :
    ((b.withTemp tag).withInstr op (some b.code.operands.size) left right args).code.Available y :=
  have hg := b.code.grows_addOperand { kind := .temp b.names.temp.1 tag, isValue := true }
  (h.of_operands (d := (b.withTemp tag).code) hg rfl).addInstr hop fun hmem => (hg.tag? h.known).trans (hy hmem)

theorem compute_linear (tag : Tag) (op : Opcode) (left right : Option OperandId) (args : List OperandId)
    (hb : b.code.Linear) (hop : op.isStraight = true ∧ op ≠ .header)
    (hsources : ∀ y ∈ (b.instr op (some b.code.operands.size) left right args).sources, b.code.Available y) :
    ((b.withTemp tag).withInstr op (some b.code.operands.size) left right args).code.Linear ∧
      ((b.withTemp tag).withInstr op (some b.code.operands.size) left right args).code.Available
        b.code.operands.size := by
  have hg := b.code.grows_addOperand { kind := .temp b.names.temp.1 tag, isValue := true }
  have hsize : b.code.operands.size < (b.withTemp tag).code.operands.size :=
    Arena.lt_size_of_get? (get?_addOperand_self b.code _)
  -- the new temporary has not been mentioned
  have hnew : ∀ i, ¬ (b.code.ReadsAt b.code.operands.size i ∨ b.code.WritesAt b.code.operands.size i) :=
    fun i h => Nat.lt_irrefl _ (hb.known _ i h)
  have hresult : ((b.withTemp tag).instr op (some b.code.operands.size) left right args).dest? =
      some b.code.operands.size := Instr.dest?_eq_result hop.2
  have hinstr := instrs_withInstr (b.withTemp tag) op (some b.code.operands.size) left right args
  refine ⟨(hb.addOperand _).addInstr (fun y hy => (hsources y hy).of_operands hg rfl) (fun y hy => ?_) (fun h => ?_),
    hsize, fun _ i hi => ?_, fun _ => ⟨(b.withTemp tag).code.instrs.size, ?_, ?_⟩⟩
  · obtain rfl := Option.some.inj (hresult.symm.trans hy)
    exact ⟨hsize, fun _ i hi => hnew i (Or.inr hi)⟩
  · have hlabel := hop.1
    rw [show op = .label from h] at hlabel
    cases hlabel
  · rcases readsAt_addInstr.mp hi with ⟨-, hmem⟩ | hi
    · exact Nat.lt_irrefl _ (hsources _ hmem).known
    · exact hnew i (Or.inl hi)
  · exact writesAt_addInstr.mpr (Or.inl ⟨rfl, hresult⟩)
  · refine (size_addInstr _ _).symm ▸ ⟨Nat.lt_succ_self _, fun m hm hlt => ?_, _, hinstr, Or.inr hresult⟩
    obtain rfl : m = (b.withTemp tag).code.instrs.size := Nat.le_antisymm (Nat.le_of_lt_succ hlt) hm
    exact ⟨_, hinstr, hop.1⟩

theorem extends_compute (tag : Tag) (op : Opcode) (left right : Option OperandId) (args : List OperandId)
    (hb : b.code.Linear) (hn : n ≤ b.code.operands.size) (hop : op.isStraight = true ∧ op ≠ .header)
    (hsources : ∀ y ∈ (b.instr op (some b.code.operands.size) left right args).sources, Made n b.code y) :
    Extends n b.code ((b.withTemp tag).withInstr op (some b.code.operands.size) left right args).code ∧
      Made n ((b.withTemp tag).withInstr op (some b.code.operands.size) left right args).code
        b.code.operands.size := by
  obtain ⟨hlinear, hresult⟩ := compute_linear tag op left right args hb hop fun y hy => (hsources y hy).1
  refine ⟨⟨grows_temp .., hlinear, fun y hy h => ?_⟩, hresult, Or.inr hn⟩
  exact available_compute h hop.1 fun hmem => (hsources y hmem).2.resolve_right (Nat.not_le.mpr hy)

end Builder

section Expr

variable {symbols : SymbolTable} {b b' : Builder} {n : Nat}

theorem marshal_linear {pos : Nat} {values args : List OperandId} (h : marshal pos values b = .ok args b')
    (hb : b.code.Linear) (hvalues : ∀ v ∈ values, b.code.Available v)
    (hapart : values.Pairwise fun v w => v = w → b.code.operands.tag? v = none) :
    b'.code.Linear ∧ (∀ y, (y ∈ values → b.code.operands.tag? y = none) → b.code.Available y → b'.code.Available y) ∧
      ∀ a ∈ args, b'.code.Available a ∧ b.code.operands.size ≤ a := by
  induction values generalizing pos b args with
  | nil =>
    obtain ⟨rfl, rfl⟩ := marshal_nil h
    exact ⟨hb, fun _ _ h => h, by simp⟩
  | cons value values ih =>
    obtain ⟨rest, rfl, hrest⟩ := marshal_cons h
    obtain ⟨hvalue, hvalues⟩ := List.forall_mem_cons.mp hvalues
    obtain ⟨hapart₁, hapart₂⟩ := List.pairwise_cons.mp hapart
    have hsources : ∀ y ∈ (b.instr (.arg pos) (some b.code.operands.size) (some value) none []).sources, y = value := by
      intro y hy
      simpa [instr, Instr.sources] using hy
    obtain ⟨hlinear, hresult⟩ := compute_linear (.arg pos) (.arg pos) (some value) none [] hb ⟨rfl, by simp⟩ fun y hy =>
      hsources y hy ▸ hvalue
    have hg := grows_temp b (.arg pos) (.arg pos) (some b.code.operands.size) (some value) none []
    have hkept : ∀ y, (y = value → b.code.operands.tag? y = none) → b.code.Available y → ((b.withTemp
        (.arg pos)).withInstr (.arg pos) (some b.code.operands.size) (some value) none []).code.Available y :=
      fun y hy ha => available_compute ha rfl fun hmem => hy (hsources y hmem)
    obtain ⟨hlinear', hkept', hargs⟩ := ih hrest hlinear
      (fun v hv => hkept v (fun he => he ▸ hapart₁ v hv he.symm) (hvalues v hv))
      (hapart₂.imp_of_mem fun {v w} hv _ hvw he => (hg.tag? (hvalues v hv).known).trans (hvw he))
    refine ⟨hlinear', fun y hy ha => ?_, ?_⟩
    · exact hkept' y (fun hmem => (hg.tag? ha.known).trans (hy (List.mem_cons_of_mem _ hmem)))
        (hkept y (fun he => hy (he ▸ List.mem_cons_self)) ha)
    · refine List.forall_mem_cons.mpr ⟨⟨hkept' _ (fun hmem => ?_) hresult, Nat.le_refl _⟩, fun a ha => ?_⟩
      · exact absurd (hvalues _ hmem).known (Nat.lt_irrefl _)
      · exact ⟨(hargs a ha).1, Nat.le_trans hg.size_operands (hargs a ha).2⟩

theorem lowerCall_extends {callee : SymbolId} {values : List OperandId} {ty : Ty} {o : Option OperandId}
    (h : lowerCall symbols callee values ty b = .ok o b') (hb : b.code.Linear) (hn : n ≤ b.code.operands.size)
    (hvalues : ∀ v ∈ values, Made n b.code v)
    (hapart : values.Pairwise fun v w => v = w → b.code.operands.tag? v = none) :
    Extends n b.code b'.code ∧ ∀ v, o = some v → Made n b'.code v := by
  -- the arguments, as the call finds them behind the operand of the callee
  have hmarshal : ∀ {args b₁ s}, marshal 0 values b = .ok args b₁ → Extends n b.code (b₁.withSymbol callee s).code ∧
      ∀ y, y = (b₁.code.operands.symbol callee s).1 ∨ y ∈ args → Made n (b₁.withSymbol callee s).code y := by
    intro args b₁ s hargs
    obtain ⟨hlinear, hkept, hmade⟩ := marshal_linear hargs hb (fun v hv => (hvalues v hv).1) hapart
    have hsym : ∀ {m}, Extends m b₁.code (b₁.withSymbol callee s).code := extends_withSymbol hlinear callee s
    refine ⟨Extends.trans ⟨adds_marshal 0 values hargs, hlinear, fun y hy ha => hkept y (fun hmem => ?_) ha⟩ hsym, ?_⟩
    · exact (hvalues y hmem).2.resolve_right (Nat.not_le.mpr hy)
    · rintro y (rfl | hy)
      · exact made_symbol hlinear callee s
      · exact Made.kept ⟨(hmade y hy).1, Or.inr (Nat.le_trans hn (hmade y hy).2)⟩ hsym
  by_cases hty : ty = .void
  · obtain ⟨args, b₁, s, hargs, -, rfl, hb'⟩ := lowerCall_void hty h
    obtain ⟨he₁, hsources⟩ := hmarshal (s := s) hargs
    rw [hb']
    refine ⟨he₁.trans (extends_withInstr he₁.linear rfl (fun y hy => hsources y ?_) nofun), nofun⟩
    simpa [instr, Instr.sources] using hy
  · obtain ⟨args, b₁, s, b₂, b₃, hargs, -, hb₂, hb₃, rfl, hb'⟩ := lowerCall_value hty h
    obtain ⟨he₁, hsources⟩ := hmarshal (s := s) hargs
    rw [← hb₂] at he₁ hsources
    have hn₂ := Nat.le_trans hn he₁.size_le
    obtain ⟨he₂, hreturned⟩ := extends_compute .callResult .call (some (b₁.code.operands.symbol callee s).1) none args
      he₁.linear hn₂ ⟨rfl, by simp⟩ fun y hy => hsources y (by simpa [instr, Instr.sources] using hy)
    rw [← hb₃] at he₂ hreturned
    obtain ⟨he₃, hcopy⟩ := extends_compute .copy .assign (some b₂.code.operands.size) none [] he₂.linear
      (Nat.le_trans hn₂ he₂.size_le) ⟨rfl, by simp⟩ fun y hy => by
        obtain rfl : y = b₂.code.operands.size := by simpa [instr, Instr.sources] using hy
        exact hreturned
    rw [hb']
    refine ⟨he₁.trans (he₂.trans he₃), fun v hv => ?_⟩
    cases hv
    exact hcopy

theorem lowerAddress_extends {array : SymbolId} {size : Nat} {pos address : OperandId}
    (h : lowerAddress symbols array size pos b = .ok address b') (hb : b.code.Linear) (hn : n ≤ b.code.operands.size)
    (hpos : Made n b.code pos) : Extends n b.code b'.code ∧ Made n b'.code address := by
  obtain ⟨s, b₁, b₂, -, hb₁, hb₂, rfl, rfl⟩ := lowerAddress_eq_ok h
  have hint : ∀ {m}, Extends m b.code (b.withInt (Int64.ofNat size)).code := extends_withInt hb _
  have hn₁ : n ≤ (b.withInt (Int64.ofNat size)).code.operands.size :=
    Nat.le_trans hn (hint (m := n)).size_le
  obtain ⟨he₁, hoffset⟩ := extends_compute .offset (.binary (.arith .mul)) (some pos) (some b.code.operands.size) []
    (hint (m := n)).linear hn₁ ⟨rfl, by simp⟩ fun y hy => by
      obtain rfl | rfl : y = pos ∨ y = b.code.operands.size := by simpa [instr, Instr.sources] using hy
      · exact hpos.kept hint
      · exact made_withInt _
  rw [← hb₁] at he₁ hoffset
  have hsym : ∀ {m}, Extends m b₁.code b₂.code := hb₂ ▸ extends_withSymbol he₁.linear array s
  have hbase : Made n b₂.code (b₁.code.operands.symbol array s).1 := hb₂ ▸ made_symbol he₁.linear array s
  obtain ⟨he₂, haddress⟩ := extends_compute .address .address (some (b₁.code.operands.symbol array s).1)
    (some (b.withInt (Int64.ofNat size)).code.operands.size) [] (hsym (m := n)).linear
    (Nat.le_trans (Nat.le_trans hn₁ he₁.size_le) (hsym (m := n)).size_le) ⟨rfl, by simp⟩ fun y hy => by
      obtain rfl | rfl : y = (b₁.code.operands.symbol array s).1 ∨
        y = (b.withInt (Int64.ofNat size)).code.operands.size := by simpa [instr, Instr.sources] using hy
      · exact hbase
      · exact hoffset.kept hsym
  exact ⟨hint.trans (he₁.trans (hsym.trans he₂)), haddress⟩

mutual
/-- An expression makes the temporaries it takes, and leaves its value in one that is still to be taken. -/
theorem lowerExpr_extends : ∀ (e : Expr) {b : Builder} {o : Option OperandId} {b' : Builder},
    lowerExpr symbols e b = .ok o b' → b.code.Linear →
      Extends b.code.operands.size b.code b'.code ∧ ∀ v, o = some v → Made b.code.operands.size b'.code v
  | .literal lit ty, b, o, b', h, hb => by
    obtain ⟨rfl, rfl⟩ := lowerExpr_literal h
    refine ⟨extends_withInt hb _, fun v hv => ?_⟩
    cases hv
    exact made_withInt _
  | .name id ty, b, o, b', h, hb => by
    obtain ⟨s, -, rfl, rfl⟩ := lowerExpr_name h
    refine ⟨extends_withSymbol hb id s, fun v hv => ?_⟩
    cases hv
    exact made_symbol hb id s
  | .binary op lhs rhs ty, b, o, b', h, hb => by
    obtain ⟨l, b₁, r, b₂, hl, hr, rfl, rfl⟩ := lowerExpr_binary h
    obtain ⟨he₁, hl⟩ := lowerExpr_extends lhs hl hb
    obtain ⟨he₂, hr⟩ := lowerExpr_extends rhs hr he₁.linear
    obtain ⟨he₃, hresult⟩ := extends_compute (.binary op) (.binary op) (some l) (some r) [] he₂.linear
      (Nat.le_trans he₁.size_le he₂.size_le) ⟨rfl, by simp⟩ fun y hy => by
        obtain rfl | rfl : y = l ∨ y = r := by simpa [instr, Instr.sources] using hy
        · exact (hl y rfl).kept he₂
        · exact (hr y rfl).mono he₁.size_le
    refine ⟨he₁.trans ((he₂.mono he₁.size_le).trans he₃), fun v hv => ?_⟩
    cases hv
    exact hresult
  | .unary op arg ty, b, o, b', h, hb => by
    obtain ⟨a, b₁, ha, rfl, rfl⟩ := lowerExpr_unary h
    obtain ⟨he₁, ha⟩ := lowerExpr_extends arg ha hb
    obtain ⟨he₂, hresult⟩ := extends_compute (.unary op) (.unary op) (some a) none [] he₁.linear he₁.size_le
      ⟨rfl, by simp⟩ fun y hy => by
        obtain rfl : y = a := by simpa [instr, Instr.sources] using hy
        exact ha y rfl
    refine ⟨he₁.trans he₂, fun v hv => ?_⟩
    cases hv
    exact hresult
  | .call callee args ty, b, o, b', h, hb => by
    obtain ⟨values, b₁, hargs, hcall⟩ := lowerExpr_call h
    obtain ⟨he₁, hvalues, hapart⟩ := lowerArgs_extends args hargs hb
    obtain ⟨he₂, ho⟩ := lowerCall_extends hcall he₁.linear he₁.size_le hvalues hapart
    exact ⟨he₁.trans he₂, ho⟩
  | .index array pos ty, b, o, b', h, hb => by
    obtain ⟨s, size, p, b₁, address, b₂, -, -, hp, haddr, rfl, rfl⟩ := lowerExpr_index h
    obtain ⟨he₁, hp⟩ := lowerExpr_extends pos hp hb
    obtain ⟨he₂, haddr⟩ := lowerAddress_extends haddr he₁.linear he₁.size_le (hp p rfl)
    obtain ⟨he₃, hresult⟩ := extends_compute .load .load (some address) none [] he₂.linear
      (Nat.le_trans he₁.size_le he₂.size_le) ⟨rfl, by simp⟩ fun y hy => by
        obtain rfl : y = address := by simpa [instr, Instr.sources] using hy
        exact haddr
    refine ⟨he₁.trans (he₂.trans he₃), fun v hv => ?_⟩
    cases hv
    exact hresult

theorem lowerArgs_extends : ∀ (es : List Expr) {b : Builder} {values : List OperandId} {b' : Builder},
    lowerArgs symbols es b = .ok values b' → b.code.Linear →
      Extends b.code.operands.size b.code b'.code ∧ (∀ v ∈ values, Made b.code.operands.size b'.code v) ∧
        values.Pairwise fun v w => v = w → b'.code.operands.tag? v = none
  | [], b, values, b', h, hb => by
    obtain ⟨rfl, rfl⟩ := lowerArgs_nil h
    exact ⟨.refl hb, by simp, .nil⟩
  | e :: es, b, values, b', h, hb => by
    obtain ⟨v, b₁, vs, rfl, hv, hvs⟩ := lowerArgs_cons h
    obtain ⟨he₁, hv⟩ := lowerExpr_extends e hv hb
    obtain ⟨he₂, hvs, hapart⟩ := lowerArgs_extends es hvs he₁.linear
    refine ⟨he₁.trans (he₂.mono he₁.size_le), List.forall_mem_cons.mpr ⟨(hv v rfl).kept he₂, fun w hw =>
      (hvs w hw).mono he₁.size_le⟩, List.pairwise_cons.mpr ⟨?_, hapart⟩⟩
    -- a temporary among the later values was made after the first value was
    rintro w hw rfl
    exact (hvs v hw).2.resolve_right (Nat.not_le.mpr (hv v rfl).1.known)
end

end Expr

section Stmt

variable {symbols : SymbolTable} {b b' : Builder}

theorem Code.Grows.tagged {c d : Code} (hg : c.Grows d) {y : OperandId} {tag : Tag}
    (h : c.operands.tag? y = some tag) : d.operands.tag? y = some tag := by
  obtain ⟨o, ho, htag⟩ := Option.bind_eq_some_iff.mp h
  rw [Arena.tag?, hg.operands y o ho]
  exact htag

/-- A function around leaves its value in a temporary of its own. -/
def Scope.ReturnsIn (scope : Scope) (c : Code) : Prop :=
  ∀ f, scope.function = some f → c.operands.tag? f.returnValue = some .returnValue

theorem Scope.ReturnsIn.mono {scope : Scope} {c d : Code} (h : scope.ReturnsIn c) (hg : c.Grows d) :
    scope.ReturnsIn d := fun f hf => hg.tagged (h f hf)

theorem returnValue_available {c : Code} {y : OperandId} (h : c.operands.tag? y = some .returnValue) :
    c.Available y ∧ c.operands.isSingle y = false := by
  obtain ⟨o, ho, -⟩ := Option.bind_eq_some_iff.mp h
  have hsingle : c.operands.isSingle y = false := by simp [Arena.isSingle, h]
  refine ⟨⟨Arena.lt_size_of_get? ho, fun hs => ?_, fun hc => ?_⟩, hsingle⟩
  · rw [hsingle] at hs
    cases hs
  · rw [Arena.isComputed, h] at hc
    cases hc

theorem linear_place (hb : b.code.Linear) (y : OperandId) :
    (b.withInstr .label none (some y) none []).code.Linear :=
  linear_withInstr hb (fun _ => rfl) (fun _ hy => by cases hy) nofun

theorem linear_jump (hb : b.code.Linear) (y : OperandId) : (b.withInstr .jump none (some y) none []).code.Linear :=
  linear_withInstr hb (fun _ => rfl) (fun _ hy => by cases hy) nofun

theorem linear_branch (hb : b.code.Linear) {t : OperandId} (ht : b.code.Available t) (y : OperandId) :
    (b.withInstr .branch none (some t) (some y) []).code.Linear := by
  refine linear_withInstr hb (fun _ => rfl) (fun x hx => ?_) nofun
  obtain rfl : x = t := by simpa [instr, Instr.sources] using hx
  exact ht

theorem assign_linear {id : SymbolId} {s : Symbol} {value : Expr} {v : OperandId} {b₁ : Builder}
    (hv : lowerExpr symbols value b = .ok (some v) b₁) (hb : b.code.Linear) :
    ((b₁.withSymbol id s).withInstr .assign (some (b₁.code.operands.symbol id s).1) (some v) none []).code.Linear := by
  obtain ⟨he, hv⟩ := lowerExpr_extends value hv hb
  have hsym : ∀ {m}, Extends m b₁.code (b₁.withSymbol id s).code := extends_withSymbol he.linear id s
  refine linear_withInstr (hsym (m := 0)).linear (fun _ => rfl) (fun y hy => ?_) fun y hy => ?_
  · obtain rfl : y = v := by simpa [instr, Instr.sources] using hy
    exact ((hv y rfl).kept hsym).1
  · cases hy
    exact symbol_not_single he.linear id s

theorem lowersTest_linear {exit : OperandId} {test : Option Expr} (h : LowersTest symbols exit b test b')
    (hb : b.code.Linear) : b'.code.Linear ∧ b.code.Grows b'.code := by
  cases test with
  | none =>
    obtain rfl := h
    exact ⟨hb, .refl _⟩
  | some test =>
    obtain ⟨t, b₁, ht, rfl⟩ := h
    obtain ⟨he, ht⟩ := lowerExpr_extends test ht hb
    exact ⟨linear_branch he.linear (ht t rfl).1 exit, he.grows.trans (grows_withInstr ..)⟩

mutual
theorem lowerStmt_linear : ∀ (st : Stmt) {scope : Scope} {b : Builder} {u : Unit} {b' : Builder},
    lowerStmt scope st b = .ok u b' → b.code.Linear →
      scope.ReturnsIn b.code → b'.code.Linear
  | .skip, scope, b, u, b', h, hb, _ => by
    simp only [lowerStmt] at h
    obtain ⟨-, rfl⟩ := LowerM.pure_eq_ok.mp h
    exact hb
  | .seq first second, scope, b, u, b', h, hb, hrv => by
    obtain ⟨b₁, h₁, h₂⟩ := lowerStmt_seq h
    exact lowerStmt_linear second h₂ (lowerStmt_linear first h₁ hb hrv) (hrv.mono (adds_lowerStmt scope first h₁))
  | .declare id none, scope, b, u, b', h, hb, _ => by
    simp only [lowerStmt] at h
    obtain ⟨-, rfl⟩ := LowerM.pure_eq_ok.mp h
    exact hb
  | .declare id (some init), scope, b, u, b', h, hb, _ => by
    obtain ⟨v, b₁, s, hv, -, rfl⟩ := lowerStmt_declare h
    exact assign_linear hv hb
  | .assign id value, scope, b, u, b', h, hb, _ => by
    obtain ⟨v, b₁, s, hv, -, rfl⟩ := lowerStmt_assign h
    exact assign_linear hv hb
  | .store array pos value, scope, b, u, b', h, hb, _ => by
    obtain ⟨v, b₁, s, size, p, b₂, address, b₃, hv, -, -, hp, haddr, rfl⟩ := lowerStmt_store h
    obtain ⟨he₁, hv⟩ := lowerExpr_extends value hv hb
    obtain ⟨he₂, hp⟩ := lowerExpr_extends pos hp he₁.linear
    obtain ⟨he₃, haddr⟩ := lowerAddress_extends haddr he₂.linear he₂.size_le (hp p rfl)
    refine linear_withInstr he₃.linear (fun _ => rfl) (fun y hy => ?_) nofun
    obtain rfl | rfl : y = address ∨ y = v := by simpa [instr, Instr.sources] using hy
    · exact haddr.1
    · exact ((hv y rfl).kept (he₂.trans he₃)).1
  | .eval expr, scope, b, u, b', h, hb, _ => by
    obtain ⟨o, ho⟩ := lowerStmt_eval h
    exact (lowerExpr_extends expr ho hb).1.linear
  | .cond chain, scope, b, u, b', h, hb, hrv => by
    obtain ⟨b₁, hchain, rfl⟩ := lowerStmt_cond h
    exact linear_place (lowerChain_linear chain hchain (hb.addOperand _) (hrv.mono (grows_addOperand _ _))) _
  | .loop init test update body, scope, b, u, b', h, hb, hrv => by
    obtain ⟨b₁, b₂, b₃, b₄, b₅, start, next, exit, hinit, -, -, -, hb₂, htest, hbody, hupdate, rfl⟩ := lowerStmt_loop h
    have hlinear₁ := lowerStmt_linear init hinit hb hrv
    have hlinear₂ : b₂.code.Linear := by
      rw [hb₂]
      exact linear_place (((hlinear₁.addOperand _).addOperand _).addOperand _) start
    have hgrows₂ : b₁.code.Grows b₂.code := by
      rw [hb₂]
      exact (((grows_addOperand _ _).trans (grows_addOperand _ _)).trans (grows_addOperand _ _)).trans
        (grows_addInstr _ _)
    obtain ⟨hlinear₃, hgrows₃⟩ := lowersTest_linear htest hlinear₂
    have hrv₃ := hrv.mono (((adds_lowerStmt scope init hinit).trans hgrows₂).trans hgrows₃)
    have hlinear₄ := lowerStmt_linear body hbody hlinear₃ hrv₃
    have hgrows₄ := (adds_lowerStmt _ body hbody).trans (grows_withInstr b₄ .label none (some next) none [])
    exact linear_place (linear_jump (lowerStmt_linear update hupdate (linear_place hlinear₄ next)
      (hrv₃.mono hgrows₄)) start) exit
  | .leave, scope, b, u, b', h, hb, _ => by
    obtain ⟨labels, -, rfl⟩ := lowerStmt_leave h
    exact linear_jump hb _
  | .next, scope, b, u, b', h, hb, _ => by
    obtain ⟨labels, -, rfl⟩ := lowerStmt_next h
    exact linear_jump hb _
  | .ret none, scope, b, u, b', h, hb, _ => by
    rw [lowerStmt_ret_none h]
    exact linear_withInstr hb (fun _ => rfl) (fun _ hy => by cases hy) nofun
  | .ret (some value), scope, b, u, b', h, hb, hrv => by
    obtain ⟨f, v, b₁, hf, hv, rfl⟩ := lowerStmt_ret h
    obtain ⟨he, hv⟩ := lowerExpr_extends value hv hb
    obtain ⟨havail, hsingle⟩ := returnValue_available (he.grows.tagged (hrv f hf))
    have hset : (b₁.withInstr .assign (some f.returnValue) (some v) none []).code.Linear := by
      refine linear_withInstr he.linear (fun _ => rfl) (fun y hy => ?_) fun y hy => ?_
      · obtain rfl : y = v := by simpa [instr, Instr.sources] using hy
        exact (hv y rfl).1
      · cases hy
        exact ⟨havail.known, hsingle⟩
    refine linear_withInstr hset (fun _ => rfl) (fun y hy => ?_) nofun
    obtain rfl : y = f.returnValue := by simpa [instr, Instr.sources] using hy
    exact (returnValue_available ((grows_withInstr ..).tagged (he.grows.tagged (hrv f hf)))).1

theorem lowerChain_linear : ∀ (ch : Chain) {scope : Scope} {exit : OperandId} {b : Builder} {u : Unit} {b' : Builder},
    lowerChain scope exit ch b = .ok u b' → b.code.Linear →
      scope.ReturnsIn b.code → b'.code.Linear
  | .done, scope, exit, b, u, b', h, hb, _ => by
    simp only [lowerChain] at h
    obtain ⟨-, rfl⟩ := LowerM.pure_eq_ok.mp h
    exact hb
  | .otherwise body, scope, exit, b, u, b', h, hb, hrv => by
    simp only [lowerChain] at h
    exact lowerStmt_linear body h hb hrv
  | .arm test body rest, scope, exit, b, u, b', h, hb, hrv => by
    cases hdone : rest.isDone with
    | true =>
      obtain ⟨t, b₁, ht, hbody⟩ := lowerChain_last hdone h
      obtain ⟨he, ht⟩ := lowerExpr_extends test ht hb
      exact lowerStmt_linear body hbody (linear_branch he.linear (ht t rfl).1 exit)
        (hrv.mono (he.grows.trans (grows_withInstr ..)))
    | false =>
      obtain ⟨t, b₁, b₂, b₃, ht, hbody, hb₃, hrest⟩ := lowerChain_arm hdone h
      have hlabel : b.code.Grows b.withLabel.code := grows_addOperand _ _
      obtain ⟨he, ht⟩ := lowerExpr_extends test ht (hb.addOperand _)
      have hrv₁ := hrv.mono ((hlabel.trans he.grows).trans (grows_withInstr b₁ .branch none (some t)
        (some b.code.operands.size) []))
      have hlinear₂ := lowerStmt_linear body hbody (linear_branch he.linear (ht t rfl).1 _) hrv₁
      have hrv₂ := hrv₁.mono (adds_lowerStmt scope body hbody)
      have hnext : b₃.code.Linear ∧ scope.ReturnsIn b₃.code := by
        rw [hb₃]
        split
        · exact ⟨hlinear₂, hrv₂⟩
        · exact ⟨linear_jump hlinear₂ exit, hrv₂⟩
      exact lowerChain_linear rest hrest (linear_place hnext.1 _) hnext.2
end

end Stmt

section Program

variable {symbols : SymbolTable} {b b' : Builder} {u : Unit}

theorem lowerParams_linear {params : List SymbolId} {pos : Nat} (h : lowerParams symbols pos params b = .ok u b')
    (hb : b.code.Linear) : b'.code.Linear := by
  induction params generalizing b pos with
  | nil =>
    simp only [lowerParams] at h
    obtain ⟨-, rfl⟩ := LowerM.pure_eq_ok.mp h
    exact hb
  | cons id params ih =>
    obtain ⟨s, b₁, -, hb₁, hrest⟩ := lowerParams_cons h
    have hlinear₁ : b₁.code.Linear := hb₁ ▸ hb.addOperand _
    have hincoming : b₁.code.Available b.code.operands.size := by
      have hget := get?_addOperand_self b.code { kind := .temp b.names.temp.1 (.param pos), isValue := true }
      rw [hb₁]
      refine ⟨Arena.lt_size_of_get? hget, fun _ i hi => Nat.lt_irrefl _ (hb.known _ i (Or.inl hi)), fun hc => ?_⟩
      rw [Arena.isComputed, Arena.tag?, withTemp, hget] at hc
      cases hc
    have hsym := b₁.code.grows_addSymbol id s
    refine ih hrest (linear_withInstr (hlinear₁.addSymbol id s) (fun _ => rfl) (fun y hy => ?_) fun y hy => ?_)
    · obtain rfl : y = b.code.operands.size := by simpa [instr, Instr.sources] using hy
      exact hincoming.of_operands hsym rfl
    · cases hy
      exact symbol_not_single hlinear₁ id s

theorem lowerFunction_linear {id : SymbolId} {params : List SymbolId} {body : Stmt}
    (h : lowerFunction symbols id params body b = .ok u b') (hb : b.code.Linear) : b'.code.Linear := by
  obtain ⟨s, b₁, b₂, b₃, -, hb₁, hparams, hbody, hb'⟩ := lowerFunction_eq_ok h
  have hlinear₁ : b₁.code.Linear := by
    rw [hb₁]
    refine linear_withInstr (hb.addSymbol id s) (fun _ => rfl) (fun _ hy => by cases hy) fun y hy => ?_
    cases hy
    exact symbol_not_single hb id s
  have hlinear₂ := lowerParams_linear hparams hlinear₁
  have hrv : (b₂.withTemp .returnValue).code.operands.tag? b₂.code.operands.size = some .returnValue := by
    rw [Arena.tag?, withTemp, get?_addOperand_self]
    rfl
  have hlinear₃ := lowerStmt_linear body hbody (hlinear₂.addOperand _) fun f hf => Option.some.inj hf ▸ hrv
  rw [hb']
  split
  · exact hlinear₃
  · exact linear_withInstr hlinear₃ (fun _ => rfl) (fun _ hy => by cases hy) nofun

theorem lowerDecls_linear {ds : List Decl} (h : lowerDecls symbols ds b = .ok u b') (hb : b.code.Linear) :
    b'.code.Linear := by
  induction ds generalizing b with
  | nil =>
    simp only [lowerDecls] at h
    obtain ⟨-, rfl⟩ := LowerM.pure_eq_ok.mp h
    exact hb
  | cons d ds ih =>
    simp only [lowerDecls, LowerM.bind_eq_ok] at h
    obtain ⟨_, b₁, hd, hds⟩ := h
    apply ih hds
    cases d with
    | function id params body => exact lowerFunction_linear hd hb
    | global id init =>
      rw [lowerGlobal_eq_ok hd]
      exact hb

theorem Program.lower_linear {p : Program} {l : Lowered} (h : p.lower = .ok l) : l.code.Linear := by
  obtain ⟨b, hb, hcode⟩ := lowerProgram_eq_ok h
  rw [hcode]
  refine lowerDecls_linear hb ⟨fun y i hy => ?_, fun id y hy => ?_, fun i z hz => ?_, fun y hs i j hi => ?_,
    fun y hs i j hi => ?_, fun y hs i hi => ?_⟩
  · simp [ReadsAt, WritesAt] at hy
  · simp at hy
  · simp at hz
  · simp [WritesAt] at hi
  · simp [ReadsAt] at hi
  · simp [ReadsAt] at hi

end Program

end MiddleEnd
