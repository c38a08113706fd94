import MiddleEnd.Proofs.Lowering.Program
import MiddleEnd.Proofs.Simulation.Stmt

/-! Lowering preserves the meaning of functions: where the body of a function ends, the code that was emitted
for the function comes to a return, with the value and in the store that the body ends with. -/

namespace MiddleEnd

open Builder

/-- What a function whose body ends this way returns. -/
def Outcome.result : Outcome → Option Word
  | .returned v => v
  | _ => none

def Code.Incoming (c : Code) (first last : Nat) (args : List Word) (st : Virtual) : Prop :=
  ∀ pos z y k v, c.fetch first last pos = some z → y ∈ z.sources → c.operands.tag? y = some (.param k) →
    args[k]? = some v → st.values y = v

/-- A state in which the variables and the parameters are as given. -/
def Code.entry (c : Code) (s : Store) (args : List Word) : Virtual where
  values y :=
    match c.operands.symbol? y, c.operands.tag? y with
    | some id, _ => s.vars id
    | none, some (.param k) => args.getD k 0
    | none, _ => 0
  world := ⟨s.vars, s.memory⟩

def Code.HeaderAt (c : Code) (pos : Nat) (id : SymbolId) : Prop :=
  ∃ z y, c.instrs[pos]? = some z ∧ z.op = .header ∧ z.result = some y ∧ c.operands.symbol? y = some id

/-- Executed from its first instruction on, the function that stands from `first` to `last` returns the value, in
a state that stands for the store. -/
def Code.Returns (F : Effects) (c : Code) (first last : Nat) (st : Virtual) (v : Option Word) (s : Store) : Prop :=
  ∃ n pc st', run (fun _ => .virtual) F.meaning c first last (.running first st) n = some (.running pc st') ∧
    run (fun _ => .virtual) F.meaning c first last (.running first st) (n + 1) = some (.returned v st'.world) ∧
    c.Holds s st'

section Function

variable {symbols : SymbolTable} {F : Effects} {c : Code} {first last : Nat} {b b' : Builder} {st st' : Virtual}
  {s : Store} {args : List Word} {u : Unit}

theorem Moves.returns {pc : Nat} {v : Option Word} (h : Moves F c first last (first, st) (pc, st'))
    (hret : F.step c first last pc st' = some (.returned v st'.world)) (hst : c.Holds s st') :
    c.Returns F first last st v s := by
  obtain ⟨n, hn⟩ := h.exists_run
  refine ⟨n, pc, st', hn, ?_, hst⟩
  rw [run, hn]
  exact hret

theorem Code.Sound.holds_entry (hc : c.Sound symbols) (s : Store) (args : List Word) : c.Holds s (c.entry s args) := by
  refine ⟨rfl, fun y id hy => ?_⟩
  obtain ⟨t, -, -, hget⟩ := hc.symbol?_eq_some.mp hy
  have hval : (c.entry s args).values y = s.vars id := by simp only [Code.entry, hy]
  rw [word_symbol hget, hval, Code.entry, ite_self]

theorem Code.incoming_entry (c : Code) (first last : Nat) (s : Store) (args : List Word) :
    c.Incoming first last args (c.entry s args) := by
  intro pos z y k v _ _ htag hv
  simp [Code.entry, Arena.symbol?_of_tag htag, htag, hv]

theorem lowerParams_moves (hc : c.Sound symbols) {params : List SymbolId} {pos : Nat}
    (h : lowerParams symbols pos params b = .ok u b') (hp : c.Part first last b.code b'.code) (hst : c.Holds s st)
    (hin : c.Incoming first last args st) (hargs : args.length = pos + params.length) :
    ∃ st', Moves F c first last (b.code.instrs.size, st) (b'.code.instrs.size, st') ∧
      c.Holds ⟨receive params (args.drop pos) s.vars, s.memory⟩ st' ∧ b.code.Open b'.code := by
  induction params generalizing b pos st s with
  | nil =>
    simp only [lowerParams] at h
    obtain ⟨-, rfl⟩ := LowerM.pure_eq_ok.mp h
    exact ⟨st, .refl _, by simpa [receive] using hst, Or.inl rfl⟩
  | cons id params ih =>
    obtain ⟨t, b₁, ht, hb₁, hrest⟩ := lowerParams_cons h
    have hg₁ : b.code.Grows b₁.code := hb₁ ▸ Code.grows_addOperand _ _
    have hg₂ : b₁.code.Grows (b₁.withSymbol id t).code := Code.grows_addSymbol _ _ _
    have hg₃ := grows_withInstr (b₁.withSymbol id t) (.param pos) (some (b₁.code.operands.symbol id t).1)
      (some b.code.operands.size) none []
    have hg₄ := adds_lowerParams symbols _ _ hrest
    have hfetch := Code.Part.fetch ((hp.left hg₄).right (hg₁.trans hg₂))
    -- the incoming temporary holds the next argument
    have htemp : (b.withTemp (.param pos)).code.Grows c := hb₁ ▸ (hg₂.trans (hg₃.trans hg₄)).trans hp.grows
    have htag : c.operands.tag? b.code.operands.size = some (.param pos) := by
      rw [Arena.tag?, htemp.operands b.code.operands.size _ ((Code.get?_addOperand _ _ _).trans (if_pos rfl))]
      rfl
    obtain ⟨v, hv⟩ : ∃ v, args[pos]? = some v := by
      rw [List.length_cons] at hargs
      exact ⟨_, List.getElem?_eq_getElem (by omega)⟩
    have hvalue := hin _ _ _ _ v hfetch (by simp [instr, Instr.sources]) htag hv
    have hword : c.word st b.code.operands.size = some v := hvalue ▸ word_of_value (temp_of_grows htemp).1
    obtain ⟨st₁, hassign, hst₁, hsame⟩ := hst.assign hc (symbol_of_grows hc ((hg₃.trans hg₄).trans hp.grows)) v
    have hstep := (step_copy (M := F) hfetch (Or.inr ⟨pos, Or.inr rfl⟩) rfl hword).trans (finish_of_assign hassign)
    rw [← size_withInstr] at hstep
    have hsize : b.code.instrs.size = (b₁.withSymbol id t).code.instrs.size := by rw [hb₁]; rfl
    have hin₁ : c.Incoming first last args st₁ := fun pos z y k v hz hy htag hv =>
      (hsame y (Arena.symbol?_of_tag htag)).trans (hin pos z y k v hz hy htag hv)
    obtain ⟨st₂, hmoves, hst₂, hopen⟩ := ih hrest (hp.right (hg₁.trans (hg₂.trans hg₃))) hst₁ hin₁
      (by rw [hargs, List.length_cons]; omega)
    refine ⟨st₂, hsize ▸ (Moves.single hstep).trans hmoves, ?_,
      (Code.open_addInstr _ _ (by simp [instr])).trans hopen hg₄⟩
    rw [List.drop_eq_getElem?_toList_append, hv]
    exact hst₂

theorem lowerFunction_headerAt {id : SymbolId} {params : List SymbolId} {body : Stmt}
    (h : lowerFunction symbols id params body b = .ok u b') (hb : b.code.Sound symbols) (hg : b'.code.Grows c) :
    c.HeaderAt b.code.instrs.size id := by
  obtain ⟨d, t, -, -, -, -, ⟨z, y, hz, hop, -, hresult, -, hy⟩, hsteps⟩ := lowerFunction_steps h hb
  have hgrows := hsteps.grows.trans hg
  exact ⟨z, y, hgrows.instrs _ _ hz, hop, hresult, by rw [Arena.symbol?, hgrows.operands _ _ hy]; rfl⟩

theorem lowerFunction_returns (hc : c.Sound symbols) {id : SymbolId} {params : List SymbolId} {body : Stmt} {s' : Store}
    {o : Outcome} (h : lowerFunction symbols id params body b = .ok u b')
    (hp : c.Part b.code.instrs.size last b.code b'.code)
    (hbody : Exec F symbols body ⟨receive params args s.vars, s.memory⟩ o s') (hargs : args.length = params.length)
    (hst : c.Holds s st) (hin : c.Incoming b.code.instrs.size last args st) :
    c.Returns F b.code.instrs.size last st o.result s' := by
  obtain ⟨t, b₁, b₂, b₃, ht, hb₁, hparams, hlower, hb'⟩ := lowerFunction_eq_ok h
  have hg₀ : b.code.Grows (b.withSymbol id t).code := Code.grows_addSymbol _ _ _
  have hg₁ : (b.withSymbol id t).code.Grows b₁.code := hb₁ ▸ Code.grows_addInstr _ _
  have hg₂ := adds_lowerParams symbols _ _ hparams
  have hgt : b₂.code.Grows (b₂.withTemp .returnValue).code := Code.grows_addOperand _ _
  have hg₃ := adds_lowerStmt _ body hlower
  have hg₄ : b₃.code.Grows b'.code := by
    rw [hb']
    split
    · exact .refl _
    · exact Code.grows_addInstr _ _
  have hpheader := (hp.right hg₀).left (hg₂.trans (hgt.trans (hg₃.trans hg₄)))
  subst hb₁
  have hfetch := Code.Part.fetch hpheader
  have hmoves₁ : Moves F c b.code.instrs.size last (b.code.instrs.size, st) _ := .single (step_pass hfetch (Or.inl rfl))
  rw [← size_withInstr] at hmoves₁
  obtain ⟨st₂, hmoves₂, hst₂, hopen₂⟩ := lowerParams_moves hc hparams
    ((hp.left (hgt.trans (hg₃.trans hg₄))).right (hg₀.trans hg₁)) hst hin (hargs.trans (Nat.zero_add _).symm)
  have hpbody := (hp.left hg₄).right (hg₀.trans (hg₁.trans (hg₂.trans hgt)))
  obtain ⟨hval, hnone⟩ := temp_of_grows ((hg₃.trans hg₄).trans hp.grows)
  obtain ⟨pc, st₃, hmoves₃, harr, hst₃, hopen₃⟩ := hbody.simulates hc hlower rfl
    ⟨fun _ hf => by cases hf; exact ⟨hval, hnone⟩, fun _ hl => by cases hl⟩ hpbody hst₂
  have hmoves := hmoves₁.trans (hmoves₂.trans hmoves₃)
  cases o with
  | normal =>
    cases harr
    -- the code up to here does not end in a return, so one was added
    have hback : b₃.code.instrs.back?.any (·.isTransfer) = false := by
      have hopen := (Code.open_addInstr b.code _ (by simp [instr])).trans hopen₂ hg₂
      refine (hopen.trans (hopen₃ rfl) (hgt.trans hg₃)).resolve_left ?_
      have hsize := (hg₂.trans (hgt.trans hg₃)).size_instrs
      have hsize₀ := hg₀.size_instrs
      rw [size_withInstr] at hsize
      omega
    have hret : ¬ b₃.code.instrs.back?.any (·.op = .ret) = true := by
      cases hz : b₃.code.instrs.back? with
      | none => simp
      | some z =>
        rw [hz, Option.any_some, Instr.isTransfer, Bool.or_eq_false_iff] at hback
        simpa using hback.2
    rw [if_neg hret] at hb'
    have hpret : c.Part b.code.instrs.size last b₃.code (b₃.withInstr .ret none none none []).code :=
      hb' ▸ hp.right (hg₀.trans (hg₁.trans (hg₂.trans (hgt.trans hg₃))))
    exact hmoves.returns (step_ret hpret.fetch rfl rfl) hst₃
  | leave =>
    obtain ⟨labels, hl, -⟩ := harr
    cases hl
  | next =>
    obtain ⟨labels, hl, -⟩ := harr
    cases hl
  | returned v => exact hmoves.returns harr hst₃

end Function

/-- Lowering preserves meaning. In the code of a program each function stands behind the declarations before
it; entered in a state that stands for a store and the arguments, it does what its body does. -/
theorem lowering_preserves_meaning (symbols : SymbolTable) (before after : List Decl) (id : SymbolId)
    (params : List SymbolId) (body : Stmt) (l : Lowered)
    (h : Program.lower ⟨symbols, before ++ .function id params body :: after⟩ = .ok l) :
    ∃ l₀ l₁ : Lowered, Program.lower ⟨symbols, before⟩ = .ok l₀ ∧
      Program.lower ⟨symbols, before ++ [.function id params body]⟩ = .ok l₁ ∧
      l.code.HeaderAt l₀.code.instrs.size id ∧
      ∀ (F : Effects) (s s' : Store) (args : List Word) (o : Outcome) (st : Virtual), args.length = params.length →
        Exec F symbols body ⟨receive params args s.vars, s.memory⟩ o s' → l.code.Holds s st →
        l.code.Incoming l₀.code.instrs.size (l₁.code.instrs.size - 1) args st →
        l.code.Returns F l₀.code.instrs.size (l₁.code.instrs.size - 1) st o.result s' := by
  obtain ⟨b, hb, hcode⟩ := lowerProgram_eq_ok h
  obtain ⟨b₀, hb₀, hrest⟩ := lowerDecls_append.mp hb
  simp only [lowerDecls, LowerM.bind_eq_ok] at hrest
  obtain ⟨_, b₁, hfunction, hafter⟩ := hrest
  have hb₁ : lowerDecls symbols (before ++ [.function id params body]) {} = .ok () b₁ := by
    rw [lowerDecls_append]
    refine ⟨b₀, hb₀, ?_⟩
    simp only [lowerDecls, LowerM.bind_eq_ok]
    exact ⟨(), b₁, hfunction, rfl⟩
  obtain ⟨-, hsound₀⟩ := lowerDecls_sound hb₀ (.empty symbols)
  obtain ⟨-, hsound₁⟩ := lowerDecl_sound hfunction hsound₀
  obtain ⟨hgrows, hsound⟩ := lowerDecls_sound hafter hsound₁
  refine ⟨_, _, lower_of_lowerDecls hb₀, lower_of_lowerDecls hb₁, ?_⟩
  rw [hcode]
  refine ⟨lowerFunction_headerAt hfunction hsound₀ hgrows, fun F s s' args o st hargs hbody hst hin => ?_⟩
  have hp : b.code.Part b₀.code.instrs.size (b₁.code.instrs.size - 1) b₀.code b₁.code :=
    ⟨Nat.le_refl _, by omega, hgrows⟩
  exact lowerFunction_returns hsound hfunction hp hbody hargs hst hin

/-- A loop that fills an array from behind and is left in the middle of a round:

    int a[2];
    int f(int n) {
        int i;
        for (i = n; ; i = i - 1) {
            a[i] = g(i);
            if (i == 0) break; else continue;
        }
        return a[n];
    } -/
def fill : Program where
  symbols.symbols := #[
    { name := "f", kind := .function, ty := .function [.int] .int },
    { name := "n", kind := .param, ty := .int },
    { name := "i", kind := .localVar, ty := .int },
    { name := "a", kind := .globalVar, ty := .array .int 2 },
    { name := "g", kind := .function, ty := .function [.int] .int }]
  decls := [.global 3 none, .function 0 [1] (.seq (.loop (.assign 2 (.name 1 .int)) none
    (.assign 2 (.binary (.arith .sub) (.name 2 .int) (.literal (.int 1) .int) .int))
    (.seq (.store 3 (.name 2 .int) (.call 4 [.name 2 .int] .int))
      (.cond (.arm (.binary (.rel .eq) (.name 2 .int) (.literal (.int 0) .int) .bool) .leave (.otherwise .next)))))
    (.ret (some (.index 3 (.name 1 .int) .int))))]

/-- Some signed arithmetic, and calls that return ten more than the sum of their arguments. -/
def sampleEffects : Effects where
  binary
    | .arith .sub, x, y => some (x - y)
    | .arith .mul, x, y => some (x * y)
    | .rel .eq, x, y => some (if x = y then 1 else 0)
    | _, _, _ => none
  unary _ _ := none
  base _ := 64
  call _ args m := some (args.foldl (· + ·) 10, m)

/-- Called with one, the function fills both elements and returns `g(1)`. -/
theorem fill_returns : ∃ l first last st s, fill.lower = .ok l ∧ l.code.HeaderAt first 0 ∧
    l.code.Holds ⟨fun _ => 0, fun _ => 0⟩ st ∧ l.code.Incoming first last [1] st ∧
    l.code.Returns sampleEffects first last st (some 11) s ∧ s.memory 64 = 10 ∧ s.memory 72 = 11 ∧ s.vars 2 = 0 := by
  cases h : fill.lower with
  | error e =>
    have hok : fill.lower.toOption.isSome = true := by decide +kernel
    rw [h] at hok
    cases hok
  | ok l =>
    obtain ⟨l₀, l₁, -, -, hheader, hreturns⟩ := lowering_preserves_meaning fill.symbols [.global 3 none] [] 0 [1] _ l h
    obtain ⟨b, hb, hcode⟩ := lowerProgram_eq_ok h
    have hsound : l.code.Sound fill.symbols := hcode ▸ (lowerDecls_sound hb (.empty _)).2
    have hst := hsound.holds_entry ⟨fun _ => 0, fun _ => 0⟩ [1]
    have hin := l.code.incoming_entry l₀.code.instrs.size (l₁.code.instrs.size - 1) ⟨fun _ => 0, fun _ => 0⟩ [1]
    -- two rounds, the second of which is left
    have hround := hreturns sampleEffects _ _ [1] _ _ rfl (.seq (.loop (.assign rfl) (.loopAgain rfl
      (.seq (.store rfl rfl rfl) (.cond rfl .next)) (Or.inr rfl) (.assign rfl) (.loopLeave rfl
        (.seq (.store rfl rfl rfl) (.cond rfl .leave))))) (.retValue rfl)) hst hin
    exact ⟨l, _, _, _, _, rfl, hheader, hst, hin, hround, rfl, rfl, rfl⟩

end MiddleEnd
