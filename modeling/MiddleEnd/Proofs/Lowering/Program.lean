import MiddleEnd.Proofs.Lowering.Stepwise

/-! The code of a program. Functions stand one after the other, each behind its header, and a value that two
instructions mention has no header between them. -/

namespace MiddleEnd

open Builder Code

/-- The symbol of a declared function. -/
def Decl.function? : Decl → Option SymbolId
  | .function s _ _ => some s
  | .global _ _ => none

/-- Every declared function has a symbol of function type. -/
def Program.FunctionsTyped (p : Program) : Prop :=
  ∀ d ∈ p.decls, ∀ id s, d.function? = some id → p.symbols.get? id = some s → s.ty.isFunction = true

instance (p : Program) : Decidable p.FunctionsTyped :=
  decidable_of_iff (∀ d ∈ p.decls, (d.function?.bind p.symbols.get?).all (·.ty.isFunction) = true) (by
    simp only [Program.FunctionsTyped, Option.all_eq_true, Option.bind_eq_some_iff]
    grind)

/-- No symbol of a local variable or a parameter is mentioned by two functions. -/
def Program.LocalsApart (p : Program) : Prop :=
  p.decls.Pairwise fun d e => ∀ id ∈ d.mentions, id ∈ e.mentions →
    ∀ s, p.symbols.get? id = some s → s.kind ≠ .localVar ∧ s.kind ≠ .param

instance (p : Program) : Decidable p.LocalsApart :=
  haveI (id : SymbolId) : Decidable (∀ s, p.symbols.get? id = some s → s.kind ≠ .localVar ∧ s.kind ≠ .param) :=
    decidable_of_iff ((p.symbols.get? id).all (fun s => s.kind ≠ .localVar ∧ s.kind ≠ .param) = true) (by
      simp only [Option.all_eq_true, decide_eq_true_eq])
  inferInstanceAs (Decidable (p.decls.Pairwise _))

/-- Code that ends in a header at `s` and the first `k` parameters behind it. -/
structure Code.Receives (c : Code) (s k : Nat) : Prop where
  size : c.instrs.size = s + 1 + k
  header : ∃ x, c.instrs[s]? = some x ∧ x.op = .header
  params : ∀ m < k, ∃ x, c.instrs[s + 1 + m]? = some x ∧ x.op = .param m

theorem Code.Receives.of_grows {c d : Code} {s k : Nat} (h : c.Receives s k) (hg : c.Grows d)
    (hsize : d.instrs.size = c.instrs.size) : d.Receives s k := by
  refine ⟨hsize.trans h.size, ?_, fun m hm => ?_⟩
  · obtain ⟨x, hx, hop⟩ := h.header
    exact ⟨x, hg.instrs _ _ hx, hop⟩
  · obtain ⟨x, hx, hop⟩ := h.params m hm
    exact ⟨x, hg.instrs _ _ hx, hop⟩

section Function

variable {sh : Share} {b b' : Builder}

theorem steps_receive (floor : Nat) {s pos : Nat} {y x : OperandId} (hr : b.code.Receives s pos)
    (hx : sh.Tagged b.code.operands x (.param pos)) (hy : sh.Plain b.code.operands y) :
    Steps sh floor b.code (b.withInstr (.param pos) (some y) (some x) none []).code ∧
      (b.withInstr (.param pos) (some y) (some x) none []).code.Receives s (pos + 1) := by
  have hhas : ∀ v ∈ (b.instr (.param pos) (some y) (some x) none []).mentions, sh.Has b.code.operands v := by
    intro v hv
    obtain rfl | rfl : v = y ∨ v = x := by simpa [instr, Instr.mentions] using hv
    · exact hy.1
    · exact hx.1
  have hstep : Steps sh floor b.code (b.withInstr (.param pos) (some y) (some x) none []).code := by
    refine steps_withInstr (by simp) (by simp) ⟨fun v hv => (hhas v hv).lt, ?_, ?_, Bool.noConfusion⟩ hhas
    · intro v hv tag htag
      obtain rfl : v = x := by simpa [instr, Instr.sources] using hv
      rw [hx.2] at htag
      cases htag
      exact ⟨s, hr.size, hr.header, hr.params, rfl, rfl⟩
    · intro v hv tag htag
      obtain rfl : y = v := by simpa [instr, Instr.dest?] using hv
      exact Opcode.maySet_of_not_fixed _ (hy.2 tag htag)
  refine ⟨hstep, (size_addInstr _ _).trans (by rw [hr.size]; omega), ?_, fun m hm => ?_⟩
  · obtain ⟨h, hh, hop⟩ := hr.header
    exact ⟨h, hstep.grows.instrs _ _ hh, hop⟩
  · rcases Nat.lt_succ_iff_lt_or_eq.mp hm with hm | rfl
    · obtain ⟨p, hp, hop⟩ := hr.params m hm
      exact ⟨p, hstep.grows.instrs _ _ hp, hop⟩
    · exact ⟨_, hr.size ▸ instrs_withInstr _ _ _ _ _ _, rfl⟩

theorem lowerParams_steps (floor : Nat) {params : List SymbolId} {pos s : Nat} {u : Unit}
    (h : lowerParams sh.symbols pos params b = .ok u b') (hm : params ⊆ sh.mentions) (hb : sh.Ready b.code)
    (hr : b.code.Receives s pos) : Steps sh floor b.code b'.code := by
  induction params generalizing b pos with
  | nil =>
    simp only [lowerParams] at h
    obtain ⟨-, rfl⟩ := LowerM.pure_eq_ok.mp h
    exact .refl
  | cons id params ih =>
    obtain ⟨t, b₁, ht, hb₁, hrest⟩ := lowerParams_cons h
    obtain ⟨hid, hm⟩ := List.cons_subset.mp hm
    have htemp : Steps sh floor b.code b₁.code := hb₁ ▸ b.steps_withTemp _
    have hincoming : sh.Tagged b₁.code.operands b.code.operands.size (.param pos) := hb₁ ▸ tagged_withTemp hb _
    have hready₁ := htemp.ready hb
    have hsym : Steps sh floor b₁.code (b₁.withSymbol id t).code := b₁.steps_withSymbol ht hid
    have hr₁ : (b₁.withSymbol id t).code.Receives s pos :=
      hr.of_grows (htemp.grows.trans hsym.grows) (hb₁ ▸ rfl)
    obtain ⟨hemit, hr₂⟩ := steps_receive floor hr₁ (hincoming.mono hsym.grows) (plain_symbol hready₁ ht hid)
    have hsteps := htemp.trans (hsym.trans hemit)
    exact hsteps.trans (ih hrest hm (hsteps.ready hb) hr₂)

theorem lowerFunction_steps {symbols : SymbolTable} {id : SymbolId} {params : List SymbolId} {body : Stmt} {u : Unit}
    (h : lowerFunction symbols id params body b = .ok u b') (hb : b.code.Sound symbols) :
    ∃ c s, symbols.get? id = some s ∧ b.code.Grows c ∧ c.Sound symbols ∧ c.instrs.size = b.code.instrs.size + 1 ∧
      (∃ x y, c.instrs[b.code.instrs.size]? = some x ∧ x.op = .header ∧ x.mentions = [y] ∧ x.result = some y ∧
        x.sources = [] ∧ c.operands.get? y = some (s.operand id)) ∧
      Steps ⟨symbols, (Decl.function id params body).mentions, b.code.operands.size⟩ 0 c b'.code := by
  obtain ⟨s, b₁, b₂, b₃, hs, hb₁, hparams, hbody, hb'⟩ := lowerFunction_eq_ok h
  generalize hsh : (⟨symbols, (Decl.function id params body).mentions, b.code.operands.size⟩ : Share) = sh
  have hid : id ∈ sh.mentions := by simp [← hsh, Decl.mentions]
  have hmparams : params ⊆ sh.mentions := by simp [← hsh, Decl.mentions]
  have hmbody : body.mentions ⊆ sh.mentions := by simp [← hsh, Decl.mentions]
  obtain rfl : sh.symbols = symbols := by rw [← hsh]
  have hready : sh.Ready b.code := ⟨hb, Nat.le_of_eq (by rw [← hsh])⟩
  have hsym : Steps sh 0 b.code (b.withSymbol id s).code := b.steps_withSymbol hs hid
  have hget := get?_symbol hb hs
  -- the header itself is no step, since a step never starts a function
  have hfits : (b.withSymbol id s).code.Fits b.code.instrs.size
      ((b.withSymbol id s).instr .header (some (b.code.operands.symbol id s).1) none none []) := by
    refine fits_plain sh Bool.noConfusion fun y hy => ?_
    obtain rfl : y = (b.code.operands.symbol id s).1 := by simpa [instr, Instr.mentions] using hy
    exact plain_symbol hready hs hid
  have hsound₁ : b₁.code.Sound sh.symbols := by
    rw [hb₁]
    exact (hsym.sound hb).addInstr rfl hfits (by simp [instr])
  have hgrows₁ : (b.withSymbol id s).code.Grows b₁.code := by
    rw [hb₁]
    exact grows_addInstr _ _
  have hheader : b₁.code.instrs[b.code.instrs.size]? =
      some ((b.withSymbol id s).instr .header (some (b.code.operands.symbol id s).1) none none []) := by
    rw [hb₁]
    exact instrs_withInstr _ _ _ _ _ _
  have hsize₁ : b₁.code.instrs.size = b.code.instrs.size + 1 := by
    rw [hb₁]
    exact size_addInstr _ _
  have hready₁ : sh.Ready b₁.code := ⟨hsound₁, Nat.le_trans hready.base_le (hsym.grows.trans hgrows₁).size_operands⟩
  refine ⟨b₁.code, s, hs, hsym.grows.trans hgrows₁, hsound₁, hsize₁,
    ⟨_, _, hheader, rfl, rfl, rfl, rfl, hgrows₁.operands _ _ hget⟩, ?_⟩
  have hs₂ : Steps sh 0 b₁.code b₂.code :=
    lowerParams_steps 0 hparams hmparams hready₁ ⟨by omega, ⟨_, hheader, rfl⟩, by omega⟩
  have hready₂ := hs₂.ready hready₁
  have htemp : Steps sh 0 b₂.code _ := b₂.steps_withTemp .returnValue
  have hs₃ := lowerStmt_steps body 0 hbody hmbody (htemp.ready hready₂)
    ⟨rfl, fun f hf => by cases hf; exact tagged_withTemp hready₂ _, fun labels hl => by cases hl⟩ (Nat.zero_le _)
  have hs₄ : Steps sh 0 b₃.code b'.code := by
    rw [hb']
    split
    · exact .refl
    · exact steps_silent 0 .ret (by simp) (.empty _ _) (.empty _ _)
  exact hs₂.trans (htemp.trans (hs₃.trans hs₄))

end Function

theorem lowerDecl_sound {symbols : SymbolTable} {d : Decl} {b b' : Builder} {u : Unit}
    (h : lowerDecl symbols d b = .ok u b') (hb : b.code.Sound symbols) :
    b.code.Grows b'.code ∧ b'.code.Sound symbols := by
  cases d with
  | global id init =>
    rw [lowerGlobal_eq_ok h]
    exact ⟨.refl _, hb⟩
  | function id params body =>
    obtain ⟨c, s, -, hgrows, hsound, -, -, hsteps⟩ := lowerFunction_steps h hb
    exact ⟨hgrows.trans hsteps.grows, hsteps.sound hsound⟩

theorem lowerDecls_sound {symbols : SymbolTable} {ds : List Decl} {b b' : Builder} {u : Unit}
    (h : lowerDecls symbols ds b = .ok u b') (hb : b.code.Sound symbols) :
    b.code.Grows b'.code ∧ b'.code.Sound symbols := by
  induction ds generalizing b with
  | nil =>
    simp only [lowerDecls] at h
    obtain ⟨-, rfl⟩ := LowerM.pure_eq_ok.mp h
    exact ⟨.refl _, hb⟩
  | cons d ds ih =>
    simp only [lowerDecls, LowerM.bind_eq_ok] at h
    obtain ⟨_, b₁, hd, hds⟩ := h
    obtain ⟨hgrows, hb₁⟩ := lowerDecl_sound hd hb
    obtain ⟨hgrows', hb'⟩ := ih hds hb₁
    exact ⟨hgrows.trans hgrows', hb'⟩

/-- The code of the declarations `ds`. -/
structure Code.Laid (symbols : SymbolTable) (ds : List Decl) (c : Code) : Prop where
  sound : c.Sound symbols
  header : ∀ (i : Nat) (z : Instr), c.instrs[i]? = some z → z.op = .header → ∃ d ∈ ds, ∃ id s y,
    d.function? = some id ∧ symbols.get? id = some s ∧ z.result = some y ∧ z.sources = [] ∧
    c.operands.get? y = some (s.operand id)
  owner : ∀ (i : Nat) (z : Instr), c.instrs[i]? = some z → ∀ y ∈ z.mentions, ∀ id s,
    c.operands.get? y = some (Symbol.operand id s) → ∃ d ∈ ds, id ∈ d.mentions
  apart : ∀ (i j : Nat) (z w : Instr), c.instrs[i]? = some z → c.instrs[j]? = some w → ∀ y, y ∈ z.mentions →
    y ∈ w.mentions → c.operands.isValue y → ∀ m, i < m → m ≤ j → ∀ x, c.instrs[m]? = some x → x.op ≠ .header

theorem Symbol.kind_of_isRegisterCandidate {s : Symbol} (h : s.isRegisterCandidate = true) :
    s.kind = .localVar ∨ s.kind = .param := by
  simp only [isRegisterCandidate, Bool.and_eq_true, Bool.or_eq_true, decide_eq_true_eq] at h
  exact h.1

theorem Code.Sound.get?_of_grows {symbols : SymbolTable} {c d : Code} (hc : c.Sound symbols) (h : c.Grows d) {i : Nat}
    {z : Instr} (hz : c.instrs[i]? = some z) {y : OperandId} (hy : y ∈ z.mentions) :
    d.operands.get? y = c.operands.get? y := by
  obtain ⟨o, ho⟩ := Arena.exists_of_lt_size ((hc.fits i z hz).known y hy)
  rw [ho, h.operands y o ho]

/-- A function adds one header, where it starts, and mentions what is its own. -/
theorem lowerFunction_new {symbols : SymbolTable} {id : SymbolId} {params : List SymbolId} {body : Stmt}
    {b b' : Builder} {u : Unit} (h : lowerFunction symbols id params body b = .ok u b') (hb : b.code.Sound symbols)
    {i : Nat} {z : Instr} (hz : b'.code.instrs[i]? = some z) (hi : b.code.instrs.size ≤ i) :
    (z.op = .header → i = b.code.instrs.size ∧ ∃ s y, symbols.get? id = some s ∧ z.result = some y ∧ z.sources = [] ∧
      b'.code.operands.get? y = some (s.operand id)) ∧
    ∀ y ∈ z.mentions,
      Share.Has ⟨symbols, (Decl.function id params body).mentions, b.code.operands.size⟩ b'.code.operands y := by
  obtain ⟨c, s, hs, hgrows, hsound, hsize, ⟨x, y, hx, hop, hmx, hres, hsrc, hget⟩, hsteps⟩ := lowerFunction_steps h hb
  rcases Nat.eq_or_lt_of_le hi with rfl | hi
  · obtain rfl : x = z := by simpa [hsteps.grows.instrs _ x hx] using hz
    refine ⟨fun _ => ⟨rfl, s, y, hs, hres, hsrc, hsteps.grows.operands _ _ hget⟩, fun v hv => ?_⟩
    obtain rfl : v = y := by simpa [hmx] using hv
    exact ⟨_, hsteps.grows.operands _ _ hget, Or.inl ⟨id, by simp [Decl.mentions], rfl⟩⟩
  · obtain ⟨hne, hhas⟩ := hsteps.instr_of_size_le hz (by omega)
    exact ⟨fun h => absurd h hne, hhas⟩

theorem lowerDecl_laid {symbols : SymbolTable} {ds : List Decl} {d : Decl} {b b' : Builder} {u : Unit}
    (h : lowerDecl symbols d b = .ok u b') (hb : b.code.Laid symbols ds)
    (hapart : ∀ e ∈ ds, ∀ id ∈ e.mentions, id ∈ d.mentions → ∀ s, symbols.get? id = some s →
      s.kind ≠ .localVar ∧ s.kind ≠ .param) : b'.code.Laid symbols (ds ++ [d]) := by
  obtain ⟨hgrows, hsound⟩ := lowerDecl_sound h hb.sound
  cases d with
  | global id init =>
    rw [lowerGlobal_eq_ok h]
    refine ⟨hb.sound, fun i z hz hop => ?_, fun i z hz y hy id s hs => ?_, hb.apart⟩
    · obtain ⟨d, hd, hrest⟩ := hb.header i z hz hop
      exact ⟨d, by simp [hd], hrest⟩
    · obtain ⟨d, hd, hrest⟩ := hb.owner i z hz y hy id s hs
      exact ⟨d, by simp [hd], hrest⟩
  | function id params body =>
    refine ⟨hsound, fun i z hz hop => ?_, fun i z hz v hv t r hr => ?_,
      fun i j z w hz hw v hvz hvw hval m him hmj q hq hqop => ?_⟩
    · rcases Nat.lt_or_ge i b.code.instrs.size with hi | hi
      · obtain ⟨d, hd, t, r, v, h₁, h₂, h₃, h₄, h₅⟩ := hb.header i z (hgrows.instr_of_lt hz hi) hop
        exact ⟨d, by simp [hd], t, r, v, h₁, h₂, h₃, h₄, hgrows.operands _ _ h₅⟩
      · obtain ⟨-, s, y, hs, hres, hsrc, hget⟩ := (lowerFunction_new h hb.sound hz hi).1 hop
        exact ⟨.function id params body, by simp, id, s, y, rfl, hs, hres, hsrc, hget⟩
    · rcases Nat.lt_or_ge i b.code.instrs.size with hi | hi
      · have hz' := hgrows.instr_of_lt hz hi
        obtain ⟨d, hd, hmem⟩ := hb.owner i z hz' v hv t r (hb.sound.get?_of_grows hgrows hz' hv ▸ hr)
        exact ⟨d, by simp [hd], hmem⟩
      · obtain ⟨o, ho, hshare⟩ := (lowerFunction_new h hb.sound hz hi).2 v hv
        rw [hr] at ho
        cases ho
        rcases hshare with ⟨t', ht', hsym⟩ | ⟨hsym, -⟩
        · cases hsym
          exact ⟨.function id params body, by simp, ht'⟩
        · cases hsym
    · rcases Nat.lt_or_ge i b.code.instrs.size with hi | hi
      · have hz' := hgrows.instr_of_lt hz hi
        have hget := hb.sound.get?_of_grows hgrows hz' hvz
        rcases Nat.lt_or_ge j b.code.instrs.size with hj | hj
        · refine hb.apart i j z w hz' (hgrows.instr_of_lt hw hj) v hvz hvw ?_ m him hmj q
            (hgrows.instr_of_lt hq (by omega)) hqop
          rw [Arena.isValue, hget] at hval
          exact hval
        · -- an old value that the function mentions would be a local variable of two functions
          obtain ⟨o, ho, hshare⟩ := (lowerFunction_new h hb.sound hw hj).2 v hvw
          rcases hshare with ⟨t, ht, hsym⟩ | ⟨-, hle⟩
          · rcases hb.sound.fresh.operand v o (hget ▸ ho) with hfresh | ⟨t', r, hr, -, rfl⟩
            · rw [hfresh.symbol?_eq_none] at hsym
              cases hsym
            · cases hsym
              obtain ⟨e, he, hte⟩ := hb.owner i z hz' v hvz t r (hget ▸ ho)
              obtain ⟨hlocal, hparam⟩ := hapart e he t hte ht r hr
              have hcand : r.isRegisterCandidate = true := by simpa [Arena.isValue, ho, Symbol.operand] using hval
              exact (Symbol.kind_of_isRegisterCandidate hcand).elim hlocal hparam
          · exact absurd ((hb.sound.fits i z hz').known v hvz) (Nat.not_lt.mpr hle)
      · exact absurd ((lowerFunction_new h hb.sound hq (by omega)).1 hqop).1 (by omega)

theorem lowerDecls_laid {symbols : SymbolTable} {ds es : List Decl} {b b' : Builder} {u : Unit}
    (h : lowerDecls symbols es b = .ok u b') (hb : b.code.Laid symbols ds)
    (hapart : (ds ++ es).Pairwise fun d e => ∀ id ∈ d.mentions, id ∈ e.mentions →
      ∀ s, symbols.get? id = some s → s.kind ≠ .localVar ∧ s.kind ≠ .param) :
    b'.code.Laid symbols (ds ++ es) := by
  induction es generalizing ds b with
  | nil =>
    simp only [lowerDecls] at h
    obtain ⟨-, rfl⟩ := LowerM.pure_eq_ok.mp h
    rwa [List.append_nil]
  | cons e es ih =>
    simp only [lowerDecls, LowerM.bind_eq_ok] at h
    obtain ⟨_, b₁, he, hes⟩ := h
    rw [List.append_cons] at hapart ⊢
    refine ih hes (lowerDecl_laid he hb fun d hd id hid hid' s hs => ?_) hapart
    exact (List.pairwise_append.mp (List.pairwise_append.mp hapart).1).2.2 d hd e (by simp) id hid hid' s hs

theorem Program.lower_laid {p : Program} {l : Lowered} (h : p.lower = .ok l) (hapart : p.LocalsApart) :
    l.code.Laid p.symbols p.decls := by
  obtain ⟨b, hb, hcode⟩ := lowerProgram_eq_ok h
  have hempty : Code.Laid p.symbols [] {} :=
    ⟨.empty p.symbols, fun i z hz => by simp at hz, fun i z hz => by simp at hz, fun i j z w hz => by simp at hz⟩
  rw [hcode]
  exact lowerDecls_laid hb hempty hapart

end MiddleEnd
