import MiddleEnd.Convention.SysV
import MiddleEnd.Proofs.Allocation.Unit
import MiddleEnd.Proofs.Execution.Lockstep

/-! Execution after allocation. A machine that keeps every value at its location, and loses what calls and
divisions overwrite, goes step by step with an execution in which no value can disturb another, as long as
both start with the same values where it matters. -/

namespace MiddleEnd

/-- The operand is live before the instruction: read by it, or live after it and not written. -/
def Instr.LiveBefore (a : Arena) (z : Instr) (y : OperandId) : Prop :=
  y ∈ z.reads a ∨ (y ∈ z.liveOut ∧ z.writes? a ≠ some y)

/-- The two executions are at the same place in the same world, and what is live there is where the machine
looks for it; or both have returned the same. -/
def Config.Agree (c : Code) (first last : Nat) : Config (OperandId → Word) → Config Physical → Prop
  | .running pc st, .running pc' st' => pc' = pc ∧ st'.world = st.world ∧
      ∀ z, c.fetch first last pc = some z → ∀ y, z.LiveBefore c.operands y →
        st'.values.read c.operands y = some (st.values y)
  | .returned v w, .returned v' w' => v' = v ∧ w' = w
  | _, _ => False

namespace Physical

variable {a : Arena} {s t : Physical} {x y : OperandId} {v : Word}

theorem read_write_self (h : s.write a y v = some t) : t.read a y = some v := by
  obtain ⟨loc, hloc, rfl⟩ := Option.map_eq_some_iff.mp h
  cases loc with
  | register reg => simp [read, hloc]
  | frame => simp [read, hloc]

theorem read_write_of_ne (h : s.write a y v = some t) (hne : x ≠ y)
    (hreg : ∀ reg, a.register? y = some reg → a.register? x ≠ some reg) : t.read a x = s.read a x := by
  obtain ⟨loc, hloc, rfl⟩ := Option.map_eq_some_iff.mp h
  rw [read, read]
  cases hx : a.location x with
  | none => rfl
  | some locx =>
    cases loc with
    | frame =>
      cases locx with
      | register reg => rfl
      | frame => exact congrArg some (Function.update_of_ne hne _ _)
    | register reg =>
      cases locx with
      | frame => rfl
      | register regx =>
        have hregs : regx ≠ reg := by
          rintro rfl
          exact hreg regx (by rw [Arena.register?_eq, hloc]; rfl) (by rw [Arena.register?_eq, hx]; rfl)
        exact congrArg some (Function.update_of_ne hregs _ _)

theorem exists_write (h : a.isResolved y = true) (s : Physical) (v : Word) : ∃ t, s.write a y v = some t := by
  rw [Arena.isResolved_eq, Option.isSome_iff_exists] at h
  obtain ⟨loc, hloc⟩ := h
  exact ⟨_, by rw [write, hloc, Option.map_some]⟩

theorem read_spoil {regs : List Register} {junk : Register → Word}
    (h : ∀ reg ∈ regs, a.register? y ≠ some reg) : (s.spoil regs junk).read a y = s.read a y := by
  rw [read, read]
  cases hy : a.location y with
  | none => rfl
  | some loc =>
    cases loc with
    | frame => rfl
    | register reg =>
      have hreg : reg ∉ regs := fun hm => h reg hm (by rw [Arena.register?_eq, hy]; rfl)
      exact congrArg some (if_neg hreg)

end Physical

theorem Storage.overwrite_physical (conv : Convention) (a : Arena) (junk : Register → Word) (op : Opcode)
    (s : Physical) : (physical conv a junk).overwrite op s = s.spoil (conv.clobbers op) junk := by
  have hnil : s.spoil [] junk = s := by simp [Physical.spoil]
  unfold Convention.clobbers
  split
  · rfl
  · rfl
  · rfl
  · rw [hnil]
    unfold physical
    dsimp only
    split
    · exact absurd rfl (by assumption)
    · exact absurd rfl (by assumption)
    · exact absurd rfl (by assumption)
    · rfl

section Step

variable {conv : Convention} {c : Code} {r : Routine} {g : Interference} {M : Meaning} {junk : Register → Word}
  {pc : Nat} {z : Instr} {st : State (OperandId → Word)} {st' : State Physical}

theorem Storage.word_eq {y : OperandId} (hworld : st'.world = st.world)
    (hy : c.operands.isValue y = true → st'.values.read c.operands y = some (st.values y)) :
    (Storage.physical conv c.operands junk).word c st' y = Storage.virtual.word c st y := by
  unfold Storage.word
  cases ho : c.operands.get? y with
  | none => rfl
  | some o =>
    dsimp only [Option.bind_eq_bind, Option.bind_some]
    split
    case isTrue hval => exact hy (by rw [Arena.isValue, ho]; exact hval)
    case isFalse => rw [hworld]

namespace Routine.Finished

theorem liveBefore_iff (h : r.Finished conv c g) (hz : c.fetch r.first r.last pc = some z) (y : OperandId) :
    z.LiveBefore c.operands y ↔ WantedAt c r.flow y pc := by
  obtain ⟨hf, hl, hz⟩ := Code.fetch_eq_some.mp hz
  have hnoted := h.noted pc z hf hl hz y
  constructor
  · rintro (hy | ⟨hy, hne⟩)
    · exact ⟨z, hz, Or.inl hy⟩
    · exact ⟨z, hz, Or.inr ⟨hne, hnoted.mp hy⟩⟩
  · rintro ⟨w, hw, hy⟩
    obtain rfl : z = w := by simpa [hz] using hw
    exact hy.imp id fun ⟨hne, hy⟩ => ⟨hnoted.mpr hy, hne⟩

theorem agree_running (h : r.Finished conv c g) {pos : Nat}
    (hnext : r.first ≤ pos → pos ≤ r.last → c.Next r.first r.last pc pos) (hworld : st'.world = st.world)
    (hy : ∀ y, Wanted c r.flow y pc → st'.values.read c.operands y = some (st.values y)) :
    Config.Agree c r.first r.last (.running pos st) (.running pos st') := by
  refine ⟨rfl, hworld, fun w hw y hlive => hy y ?_⟩
  obtain ⟨hf, hl, -⟩ := Code.fetch_eq_some.mp hw
  exact ((h.liveBefore_iff hw y).mp hlive).wanted (h.built.follows pc pos (hnext hf hl))

/-- An instruction that writes a result and goes on keeps the executions together, if what is wanted after it
and not written was where the machine looks for it. -/
theorem finish_agree (h : r.Finished conv c g) (hz : c.fetch r.first r.last pc = some z)
    (hdest : z.dest? = z.result) (htransfer : z.isTransfer = false) (hworld : st'.world = st.world)
    (hkept : ∀ y, Wanted c r.flow y pc → z.writes? c.operands ≠ some y →
      st'.values.read c.operands y = some (st.values y)) (v : Word) :
    Option.Rel (Config.Agree c r.first r.last) (Storage.virtual.finish c pc st z.result v)
      ((Storage.physical conv c.operands junk).finish c pc st' z.result v) := by
  obtain ⟨hf, hl, hi⟩ := Code.fetch_eq_some.mp hz
  have hnext : r.first ≤ pc + 1 → pc + 1 ≤ r.last → c.Next r.first r.last pc (pc + 1) :=
    fun hf' hl' => ⟨⟨hf, hl, hf', hl'⟩, z, hi, Or.inl ⟨rfl, htransfer⟩⟩
  unfold Storage.finish
  cases hres : z.result with
  | none => exact .none
  | some y =>
    simp only [Option.bind_eq_bind, Option.bind_some, Storage.assign]
    cases ho : c.operands.get? y with
    | none => exact .none
    | some o =>
      have hwrites : z.writes? c.operands = if o.isValue then some y else none := by
        rw [Instr.writes?, hdest, hres]
        simp [Option.filter, Arena.isValue, ho]
      simp only [Option.bind_some]
      split
      case isTrue hval =>
        rw [if_pos hval] at hwrites
        obtain ⟨t, ht⟩ := Physical.exists_write (h.allotted.located pc z y hf hl hi (Or.inl hwrites)) st'.values v
        have hread : (Storage.physical conv c.operands junk).write st'.values y v = some t := ht
        rw [hread]
        refine .some (h.agree_running hnext hworld fun x hx => ?_)
        by_cases hxy : x = y
        · subst hxy
          rw [Physical.read_write_self ht]
          exact congrArg some (Function.update_self (f := st.values) x v).symm
        · -- the result and `x` interfere here, so they are not in one register
          have hclash : g.interferes y x = true :=
            (h.allotted.clash y x).mpr ⟨pc, z, hf, hl, hi, Ne.symm hxy, Or.inr (Or.inl ⟨hwrites, hx⟩)⟩
          rw [Physical.read_write_of_ne ht hxy fun reg hy => h.allotted.apart y x reg hclash hy]
          have hne : z.writes? c.operands ≠ some x := by
            rw [hwrites]
            exact fun he => hxy (Option.some.inj he).symm
          exact (hkept x hx hne).trans (congrArg some (Function.update_of_ne hxy _ _).symm)
      case isFalse hval =>
        rw [if_neg hval] at hwrites
        have hall : ∀ x, Wanted c r.flow x pc → st'.values.read c.operands x = some (st.values x) :=
          fun x hx => hkept x hx (by simp [hwrites])
        cases o.kind with
        | symbol id => exact .some (h.agree_running hnext (by rw [hworld]) hall)
        | _ => exact .none

theorem read_overwrite (h : r.Finished conv c g) (hz : c.fetch r.first r.last pc = some z) {y : OperandId}
    (hy : z.divisor? c.operands = some y ∨ (Wanted c r.flow y pc ∧ z.writes? c.operands ≠ some y)) (s : Physical) :
    ((Storage.physical conv c.operands junk).overwrite z.op s).read c.operands y = s.read c.operands y := by
  obtain ⟨hf, hl, hi⟩ := Code.fetch_eq_some.mp hz
  rw [Storage.overwrite_physical]
  exact Physical.read_spoil fun reg hreg => h.allotted.spared pc z y reg hf hl hi hreg hy

theorem right_eq (h : r.Finished conv c g) (hz : c.fetch r.first r.last pc = some z) {op : BinaryOp}
    (hop : z.op = .binary op) {y : OperandId} (hy : z.right = some y) (hval : c.operands.isValue y = true)
    (s : Physical) :
    ((Storage.physical conv c.operands junk).overwrite z.op s).read c.operands y = s.read c.operands y := by
  by_cases hdiv : z.divisor? c.operands = some y
  · exact h.read_overwrite hz (Or.inl hdiv) s
  · have hclobbers : conv.clobbers z.op = [] := by
      unfold Convention.clobbers
      unfold Instr.divisor? at hdiv
      split
      case h_1 hcall => rw [hop] at hcall; cases hcall
      case h_2 h' => simp [h', hy, hval] at hdiv
      case h_3 h' => simp [h', hy, hval] at hdiv
      case h_4 => rfl
    rw [Storage.overwrite_physical, hclobbers]
    exact Physical.read_spoil fun reg hreg => absurd hreg List.not_mem_nil

end Routine.Finished

/-- The two executions are about to execute the instruction `z` at `pc`. -/
structure Poised (c : Code) (r : Routine) (pc : Nat) (z : Instr) (st : State (OperandId → Word))
    (st' : State Physical) : Prop where
  fetch : c.fetch r.first r.last pc = some z
  world : st'.world = st.world
  live : ∀ y, z.LiveBefore c.operands y → st'.values.read c.operands y = some (st.values y)

namespace Poised

variable (h : r.Finished conv c g) (hp : Poised c r pc z st st')
include hp

theorem read_eq {y : OperandId} (hy : y ∈ z.sources) (hval : c.operands.isValue y = true) :
    st'.values.read c.operands y = some (st.values y) :=
  hp.live y (Or.inl (Instr.mem_reads.mpr ⟨hy, hval⟩))

theorem word_eq {y : OperandId} (hy : y ∈ z.sources) :
    (Storage.physical conv c.operands junk).word c st' y = Storage.virtual.word c st y :=
  Storage.word_eq hp.world (hp.read_eq hy)

include h

theorem kept {y : OperandId} (hy : Wanted c r.flow y pc) (hne : z.writes? c.operands ≠ some y) :
    st'.values.read c.operands y = some (st.values y) := by
  obtain ⟨hf, hl, hi⟩ := Code.fetch_eq_some.mp hp.fetch
  exact hp.live y (Or.inr ⟨(h.noted pc z hf hl hi y).mpr hy, hne⟩)

theorem kept_overwrite {y : OperandId} (hy : Wanted c r.flow y pc) (hne : z.writes? c.operands ≠ some y) :
    ((Storage.physical conv c.operands junk).overwrite z.op st'.values).read c.operands y = some (st.values y) :=
  (h.read_overwrite hp.fetch (Or.inr ⟨hy, hne⟩) _).trans (hp.kept h hy hne)

theorem lockstep : Lockstep .virtual (.physical conv c.operands junk) c r.first r.last (Config.Agree c r.first r.last)
    pc z st st' := by
  have hi := (Code.fetch_eq_some.mp hp.fetch).2.2
  have hnone : z.op = .header ∨ z.op.isSilent = true → z.dest? = none := by
    rintro (hop | hop)
    · simp [Instr.dest?, hop]
    · rw [Instr.dest?, h.silent pc z hi hop]
      split <;> rfl
  refine ⟨hp.world, fun y hy => hp.word_eq hy, fun op y hop hy => ?_, fun hop pos w hnext => ?_, fun hop hres w => ?_,
    fun hdest ht v => ?_, fun hdest ht w v => ?_, fun v => ⟨rfl, hp.world⟩⟩
  · exact Storage.word_eq hp.world fun hval =>
      (h.right_eq hp.fetch hop hy hval _).trans (hp.read_eq (by simp [Instr.sources, hop, hy]) hval)
  · exact h.agree_running hnext rfl fun y hy => hp.kept h hy (by simp [Instr.writes?, hnone hop])
  · obtain ⟨hf, hl, -⟩ := Code.fetch_eq_some.mp hp.fetch
    refine h.agree_running (fun hf' hl' => ⟨⟨hf, hl, hf', hl'⟩, z, hi, Or.inl ⟨rfl, by simp [Instr.isTransfer, hop]⟩⟩)
      rfl fun y hy => hp.kept_overwrite h hy ?_
    simp [Instr.writes?, Instr.dest?, hop, hres]
  · exact h.finish_agree hp.fetch hdest ht hp.world (fun _ => hp.kept h) v
  · exact h.finish_agree hp.fetch hdest ht rfl (fun _ => hp.kept_overwrite h) v

end Poised

theorem step_agree (h : r.Finished conv c g)
    (hstart : Config.Agree c r.first r.last (.running pc st) (.running pc st')) :
    Option.Rel (Config.Agree c r.first r.last) (Storage.virtual.step M c r.first r.last pc st)
      ((Storage.physical conv c.operands junk).step M c r.first r.last pc st') := by
  obtain ⟨-, hworld, hlive⟩ := hstart
  cases hz : c.fetch r.first r.last pc with
  | none =>
    unfold Storage.step
    rw [hz]
    exact .none
  | some z => exact Storage.step_rel hz (Poised.lockstep h ⟨hz, hworld, hlive z hz⟩)

theorem run_agree (h : r.Finished conv c g) {junk : Nat → Register → Word} {k : Config (OperandId → Word)}
    {k' : Config Physical} (hstart : Config.Agree c r.first r.last k k') (n : Nat) :
    Option.Rel (Config.Agree c r.first r.last) (run (fun _ => .virtual) M c r.first r.last k n)
      (run (fun n => .physical conv c.operands (junk n)) M c r.first r.last k' n) := by
  induction n with
  | zero => exact .some hstart
  | succ n ih =>
    unfold run
    revert ih
    generalize run (fun _ => Storage.virtual) M c r.first r.last k n = o
    generalize run (fun n => Storage.physical conv c.operands (junk n)) M c r.first r.last k' n = o'
    intro ih
    cases ih with
    | none => exact .none
    | @some k k' hk =>
      cases k with
      | running pc st =>
        cases k' with
        | running pc' st' =>
          obtain rfl := hk.1
          exact step_agree h hk
        | returned v' w' => exact hk.elim
      | returned v w =>
        cases k' with
        | running pc' st' => exact hk.elim
        | returned v' w' => exact .some hk

end Step

/-- The value that has been returned, if any. -/
def Config.value? {σ : Type} : Config σ → Option Word
  | .running _ _ => none
  | .returned v _ => v

theorem value?_eq_of_rel {c : Code} {first last : Nat} {o : Option (Config (OperandId → Word))}
    {o' : Option (Config Physical)} (h : Option.Rel (Config.Agree c first last) o o') :
    o'.bind Config.value? = o.bind Config.value? := by
  cases h with
  | none => rfl
  | @some k k' hk =>
    cases k with
    | running pc st =>
      cases k' with
      | running pc' st' => rfl
      | returned v' w' => exact hk.elim
    | returned v w =>
      cases k' with
      | running pc' st' => exact hk.elim
      | returned v' w' => exact hk.1

/-- Allocation preserves execution. In a program that compiles, whose functions have function types and share no
local variable, every function runs on the machine as it does with a variable for every value: whatever
operators and calls mean, and whatever calls and divisions leave in the registers they overwrite, after each
number of steps both executions are stuck, or both are at the same place in the same world with the same live
values, or both have returned the same. They only have to start with the same values live after the header. -/
theorem allocation_preserves_execution (conv : Convention) (hargs : conv.args.Nodup) (p : Program)
    (htyped : p.FunctionsTyped) (hapart : p.LocalsApart) (u : Compiled) (hu : p.compile conv = .ok u) (M : Meaning)
    (junk : Nat → Register → Word) (r : Routine) (hr : r ∈ u.routines) (values : OperandId → Word)
    (machine : Physical) (w : World)
    (hstart : ∀ z, u.code.instrs[r.first]? = some z → ∀ y ∈ z.liveOut,
      machine.read u.code.operands y = some (values y)) :
    ∀ n, Option.Rel (Config.Agree u.code r.first r.last)
      (run (fun _ => .virtual) M u.code r.first r.last (.running r.first ⟨values, w⟩) n)
      (run (fun n => .physical conv u.code.operands (junk n)) M u.code r.first r.last
        (.running r.first ⟨machine, w⟩) n) := by
  obtain ⟨s, hfirst, hlast, hs⟩ := Program.compile_finished hargs htyped hapart hu r hr
  rw [hfirst] at hstart ⊢
  rw [hlast]
  refine run_agree hs ⟨rfl, rfl, fun z hz y hy => ?_⟩
  obtain ⟨-, -, hi⟩ := Code.fetch_eq_some.mp hz
  rcases hy with hy | ⟨hy, -⟩
  · -- the header reads nothing
    rw [Instr.reads, hs.entry z hi] at hy
    cases hy
  · exact hstart z hi y hy

/-- A function whose parameters outlive a division and a call:

    int f(int a, int b) { return g(a / b, a) + b; } -/
def quotient : Program where
  symbols.symbols := #[
    { name := "f", kind := .function, ty := .function [.int, .int] .int },
    { name := "g", kind := .function, ty := .function [.int, .int] .int },
    { name := "a", kind := .param, ty := .int },
    { name := "b", kind := .param, ty := .int }]
  decls := [.function 0 [2, 3] (.ret (some (.binary (.arith .add)
    (.call 1 [.binary (.arith .div) (.name 2 .int) (.name 3 .int) .int, .name 2 .int] .int) (.name 3 .int) .int)))]

/-- Signed arithmetic without a quotient by zero, and calls that add up their arguments. -/
def sampleMeaning : Meaning where
  binary
    | .arith .add, x, y => some (x + y)
    | .arith .div, x, y => if y = 0 then none else some (x / y)
    | _, _, _ => none
  unary _ _ := none
  base _ := 0
  call _ args w := some (args.foldl (· + ·) 0, w)

/-- The first two arguments of a call to the function, and nothing else. -/
def sampleMachine : Physical where
  registers reg := if reg.name = "rdi" then 42 else if reg.name = "rsi" then 6 else 0
  frame _ := 0

/-- Whatever the division and the call leave in their registers, the function returns `(42 / 6 + 42) + 6`. -/
theorem quotient_runs_on_machine : Convention.SysV.convention.args.Nodup ∧ quotient.FunctionsTyped ∧
    quotient.LocalsApart ∧ ∃ u, quotient.compile Convention.SysV.convention = .ok u ∧ ∃ r ∈ u.routines,
      ∃ values : OperandId → Word, (∀ z, u.code.instrs[r.first]? = some z → ∀ y ∈ z.liveOut,
        sampleMachine.read u.code.operands y = some (values y)) ∧
      ∀ junk : Nat → Register → Word,
        (run (fun n => .physical Convention.SysV.convention u.code.operands (junk n)) sampleMeaning u.code r.first
          r.last (.running r.first ⟨sampleMachine, fun _ => 0, fun _ => 0⟩) 12).bind Config.value? = some 55 := by
  have hargs : Convention.SysV.convention.args.Nodup := by decide
  have htyped : quotient.FunctionsTyped := by
    intro d hd id s hid hs
    obtain rfl := List.mem_singleton.mp hd
    cases hid
    cases hs
    rfl
  have hapart : quotient.LocalsApart := List.pairwise_singleton _ _
  have hrun : (quotient.compile Convention.SysV.convention).toOption.any (fun u => decide (∃ r ∈ u.routines,
      (u.code.instrs[r.first]?.all fun z => z.liveOut.toList.all fun y =>
        (sampleMachine.read u.code.operands y).isSome) = true ∧
      (run (fun _ => .virtual) sampleMeaning u.code r.first r.last (.running r.first
        ⟨fun y => (sampleMachine.read u.code.operands y).getD 0, fun _ => 0, fun _ => 0⟩) 12).bind
          Config.value? = some 55)) = true := by
    decide +kernel
  cases hu : quotient.compile Convention.SysV.convention with
  | error e => rw [hu] at hrun; cases hrun
  | ok u =>
    rw [hu] at hrun
    obtain ⟨r, hr, hlive, hv⟩ := of_decide_eq_true hrun
    have hstart : ∀ z, u.code.instrs[r.first]? = some z → ∀ y ∈ z.liveOut, sampleMachine.read u.code.operands y =
        some ((sampleMachine.read u.code.operands y).getD 0) := by
      intro z hz y hy
      rw [hz, Option.all_some, List.all_eq_true] at hlive
      obtain ⟨v, hv⟩ := Option.isSome_iff_exists.mp (hlive y (Std.ExtTreeSet.mem_toList.mpr hy))
      rw [hv, Option.getD_some]
    refine ⟨hargs, htyped, hapart, u, rfl, r, hr, _, hstart, fun junk => ?_⟩
    have hrel := allocation_preserves_execution _ hargs _ htyped hapart u hu sampleMeaning junk r hr _ sampleMachine
      ⟨fun _ => 0, fun _ => 0⟩ hstart 12
    exact (value?_eq_of_rel hrel).trans hv

end MiddleEnd
