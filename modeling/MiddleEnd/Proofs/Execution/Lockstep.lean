import MiddleEnd.Proofs.Execution.Machine
import MiddleEnd.Proofs.Lowering.Sound

/-! Two executions of one function, step by step. They keep their values in different ways or start from different
ones; an instruction keeps them together if it reads the same words in both, and if what it leaves behind is
related wherever it goes. -/

namespace MiddleEnd

theorem rel_bind {α β γ : Type} {R : β → γ → Prop} {x y : Option α} (hxy : y = x) {f : α → Option β} {k : α → Option γ}
    (h : ∀ v, x = some v → Option.Rel R (f v) (k v)) : Option.Rel R (x.bind f) (y.bind k) := by
  subst hxy
  cases y with
  | none => exact .none
  | some v => exact h v rfl

theorem mapM_congr {α β : Type} {f k : α → Option β} {l : List α} (h : ∀ x ∈ l, k x = f x) : l.mapM k = l.mapM f := by
  induction l with
  | nil => rfl
  | cons x l ih =>
    obtain ⟨hx, hl⟩ := List.forall_mem_cons.mp h
    rw [List.mapM_cons, List.mapM_cons, hx, ih hl]

section Step

variable {σ τ : Type} {S : Storage σ} {T : Storage τ} {M : Meaning} {c : Code} {first last pc : Nat} {z : Instr}
  {R : Config σ → Config τ → Prop} {st : State σ} {st' : State τ}

/-- The instruction `z` at `pc` keeps two executions in the relation `R`. -/
structure Lockstep (S : Storage σ) (T : Storage τ) (c : Code) (first last : Nat) (R : Config σ → Config τ → Prop)
    (pc : Nat) (z : Instr) (st : State σ) (st' : State τ) : Prop where
  world : st'.world = st.world
  source : ∀ y ∈ z.sources, T.word c st' y = S.word c st y
  /-- The second operand is read after registers were overwritten. -/
  right : ∀ op y, z.op = .binary op → z.right = some y →
    T.word c { st' with values := T.overwrite z.op st'.values } y =
      S.word c { st with values := S.overwrite z.op st.values } y
  /-- Control goes on or to the target, and no value changes. -/
  pass : z.op = .header ∨ z.op.isSilent = true → ∀ pos w,
    (first ≤ pos → pos ≤ last → c.Next first last pc pos) →
      R (.running pos ⟨st.values, w⟩) (.running pos ⟨st'.values, w⟩)
  void : z.op = .call → z.result = none → ∀ w,
    R (.running (pc + 1) ⟨S.overwrite z.op st.values, w⟩) (.running (pc + 1) ⟨T.overwrite z.op st'.values, w⟩)
  result : z.dest? = z.result → z.isTransfer = false → ∀ v,
    Option.Rel R (S.finish c pc st z.result v) (T.finish c pc st' z.result v)
  clobber : z.dest? = z.result → z.isTransfer = false → ∀ w v,
    Option.Rel R (S.finish c pc ⟨S.overwrite z.op st.values, w⟩ z.result v)
      (T.finish c pc ⟨T.overwrite z.op st'.values, w⟩ z.result v)
  ret : ∀ v, R (.returned v st.world) (.returned v st'.world)

theorem Lockstep.goto (h : Lockstep S T c first last R pc z st st') (hz : c.fetch first last pc = some z)
    (hop : z.op.isSilent = true) {label : Option OperandId} (ht : z.target? = label) :
    Option.Rel R (Storage.goto c first last st label) (Storage.goto c first last st' label) := by
  obtain ⟨hf, hl, hi⟩ := Code.fetch_eq_some.mp hz
  obtain ⟨s, w⟩ := st
  obtain ⟨s', w'⟩ := st'
  obtain rfl : w' = w := h.world
  exact rel_bind rfl fun y hy => rel_bind rfl fun pos hpos => .some <| h.pass (Or.inr hop) pos _
    fun hf' hl' => ⟨⟨hf, hl, hf', hl'⟩, z, hi, Or.inr ⟨y, ht.trans hy, hpos⟩⟩

theorem Storage.step_rel (hz : c.fetch first last pc = some z) (h : Lockstep S T c first last R pc z st st') :
    Option.Rel R (S.step M c first last pc st) (T.step M c first last pc st') := by
  obtain ⟨hf, hl, hi⟩ := Code.fetch_eq_some.mp hz
  have hnext : z.isTransfer = false → first ≤ pc + 1 → pc + 1 ≤ last → c.Next first last pc (pc + 1) :=
    fun ht hf' hl' => ⟨⟨hf, hl, hf', hl'⟩, z, hi, Or.inl ⟨rfl, ht⟩⟩
  obtain ⟨s, w⟩ := st
  obtain ⟨s', w'⟩ := st'
  obtain rfl : w' = w := h.world
  have hread : ∀ {y}, y ∈ z.sources → T.word c ⟨s', w'⟩ y = S.word c ⟨s, w'⟩ y := fun hy => h.source _ hy
  unfold Storage.step
  rw [hz]
  simp only [Option.bind_eq_bind, Option.bind_some]
  cases hop : z.op with
  | header => exact .some (h.pass (Or.inl hop) _ _ (hnext (by simp [Instr.isTransfer, hop])))
  | label => exact .some (h.pass (Or.inr (by rw [hop]; rfl)) _ _ (hnext (by simp [Instr.isTransfer, hop])))
  | assign =>
    exact rel_bind rfl fun y hy => rel_bind (hread (by simp [Instr.sources, hop, hy])) fun v _ =>
      h.result (by simp [Instr.dest?, hop]) (by simp [Instr.isTransfer, hop]) v
  | arg k =>
    exact rel_bind rfl fun y hy => rel_bind (hread (by simp [Instr.sources, hop, hy])) fun v _ =>
      h.result (by simp [Instr.dest?, hop]) (by simp [Instr.isTransfer, hop]) v
  | param k =>
    exact rel_bind rfl fun y hy => rel_bind (hread (by simp [Instr.sources, hop, hy])) fun v _ =>
      h.result (by simp [Instr.dest?, hop]) (by simp [Instr.isTransfer, hop]) v
  | unary op =>
    exact rel_bind rfl fun y hy => rel_bind (hread (by simp [Instr.sources, hop, hy])) fun v _ =>
      rel_bind rfl fun v _ => h.result (by simp [Instr.dest?, hop]) (by simp [Instr.isTransfer, hop]) v
  | binary op =>
    refine rel_bind rfl fun x hx => rel_bind (hread (by simp [Instr.sources, hop, hx])) fun l _ =>
      rel_bind rfl fun y hy => ?_
    rw [← hop]
    exact rel_bind (h.right op y hop hy) fun k _ => rel_bind rfl fun v _ =>
      h.clobber (by simp [Instr.dest?, hop]) (by simp [Instr.isTransfer, hop]) _ v
  | address =>
    exact rel_bind rfl fun x hx => rel_bind rfl fun id _ => rel_bind rfl fun y hy =>
      rel_bind (hread (by simp [Instr.sources, hop, hy])) fun v _ =>
        h.result (by simp [Instr.dest?, hop]) (by simp [Instr.isTransfer, hop]) _
  | load =>
    exact rel_bind rfl fun y hy => rel_bind (hread (by simp [Instr.sources, hop, hy])) fun v _ =>
      h.result (by simp [Instr.dest?, hop]) (by simp [Instr.isTransfer, hop]) _
  | store =>
    exact rel_bind rfl fun x hx => rel_bind (hread (by simp [Instr.sources, hop, hx])) fun v _ =>
      rel_bind rfl fun y hy => rel_bind (hread (by simp [Instr.sources, hop, hy])) fun v' _ => .some <|
        h.pass (Or.inr (by rw [hop]; rfl)) _ _ (hnext (by simp [Instr.isTransfer, hop]))
  | call =>
    refine rel_bind rfl fun x hx => rel_bind rfl fun id _ => rel_bind (mapM_congr fun y hy => ?_) fun args _ =>
      rel_bind rfl fun called _ => ?_
    · exact hread (by simp [Instr.sources, hop, hy])
    · rw [← hop]
      have hres := h.clobber (by simp [Instr.dest?, hop]) (by simp [Instr.isTransfer, hop]) called.2 called.1
      cases hy : z.result with
      | none => exact .some (h.void hop hy called.2)
      | some y =>
        rw [hy] at hres
        exact hres
  | branch =>
    refine rel_bind rfl fun y hy => rel_bind (hread (by simp [Instr.sources, hop, hy])) fun v _ => ?_
    have hsilent : z.op.isSilent = true := by rw [hop]; rfl
    split
    · exact h.goto hz hsilent (by simp [Instr.target?, hop])
    · exact .some (h.pass (Or.inr hsilent) _ _ (hnext (by simp [Instr.isTransfer, hop])))
  | jump => exact h.goto hz (by rw [hop]; rfl) (by simp [Instr.target?, hop])
  | ret =>
    cases hleft : z.left with
    | none => exact .some (h.ret none)
    | some y => exact rel_bind (hread (by simp [Instr.sources, hop, hleft])) fun v _ => .some (h.ret (some v))

end Step

end MiddleEnd
