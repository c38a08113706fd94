import MiddleEnd.Proofs.Allocation.Like
import MiddleEnd.Proofs.Execution.Lockstep
import MiddleEnd.Proofs.Execution.Virtual
import MiddleEnd.Proofs.Flow.ControlFlow

/-! What liveness promises about executions. Two of them that go on from one place, in the same world and with the
same live values, cannot be told apart: they take the same instructions, pass the same arguments, make the same
stores and return the same. -/

namespace MiddleEnd

/-- What an instruction does that can be seen outside of its function. -/
inductive Action where
  | silent
  | call (callee : SymbolId) (args : List Word)
  | store (address value : Word)
  | ret (value : Option Word)
  deriving DecidableEq

def Code.action (c : Code) (st : Virtual) (z : Instr) : Option Action :=
  match z.op with
  | .call => do return .call (← c.operands.symbol? (← z.left)) (← z.args.mapM (c.word st))
  | .store => do return .store (← c.word st (← z.left)) (← c.word st (← z.right))
  | .ret =>
    match z.left with
    | none => some (.ret none)
    | some y => do return .ret (some (← c.word st y))
  | _ => some .silent

/-- The positions that an execution comes to in so many steps, each with what its instruction does there; nothing
is noted for the position where it gets stuck. -/
def Meaning.trace (M : Meaning) (c : Code) (first last : Nat) : Nat → Nat → Virtual → List (Nat × Option Action)
  | 0, _, _ => []
  | n + 1, pc, st =>
    match M.step c first last pc st with
    | none => [(pc, none)]
    | some (.running pc' st') =>
      (pc, (c.fetch first last pc).bind (c.action st)) :: M.trace c first last n pc' st'
    | some (.returned _ _) => [(pc, (c.fetch first last pc).bind (c.action st))]

/-- An instruction of the function that writes nothing names the value as its result. -/
def Routine.Stray (r : Routine) (c : Code) (y : OperandId) : Prop :=
  ∃ i z, r.first ≤ i ∧ i ≤ r.last ∧ c.instrs[i]? = some z ∧ z.op.isSilent = true ∧ z.writes? c.operands = some y

/-- The two states agree on what an execution from `pc` can depend on. -/
structure Routine.Agrees (r : Routine) (c : Code) (pc : Nat) (st st' : Virtual) : Prop where
  world : st'.world = st.world
  wanted : r.first ≤ pc → pc ≤ r.last → ∀ y, WantedAt c r.flow y pc → st'.values y = st.values y
  stray : ∀ y, r.Stray c y → st'.values y = st.values y

/-- The two executions are at the same place with states that agree, or both have returned the same. -/
def Config.Together (r : Routine) (c : Code) : Config (OperandId → Word) → Config (OperandId → Word) → Prop
  | .running pc st, .running pc' st' => pc' = pc ∧ r.Agrees c pc st st'
  | .returned v w, .returned v' w' => v' = v ∧ w' = w
  | _, _ => False

section Step

variable {c : Code} {r : Routine} {M : Meaning} {pc : Nat} {z : Instr} {st st' : Virtual}

theorem word_eq_of_value {y : OperandId} (hworld : st'.world = st.world)
    (hy : c.operands.isValue y = true → st'.values y = st.values y) : c.word st' y = c.word st y := by
  cases hval : c.operands.isValue y with
  | true => exact word_congr (by rw [hworld]) (hy hval)
  | false =>
    simp only [Code.word, Storage.word, hworld]
    cases ho : c.operands.get? y with
    | none => rfl
    | some o =>
      have ho' : o.isValue = false := by simpa [Arena.isValue, ho] using hval
      simp [ho']

theorem action_congr (h : ∀ y ∈ z.sources, c.word st' y = c.word st y) : c.action st' z = c.action st z := by
  unfold Code.action
  cases hop : z.op with
  | call =>
    have hargs : z.args.mapM (c.word st') = z.args.mapM (c.word st) :=
      mapM_congr fun y hy => h y (by simp [Instr.sources, hop, hy])
    rw [hargs]
  | store =>
    cases hl : z.left with
    | none => rfl
    | some x =>
      cases hr : z.right with
      | none => simp
      | some y => simp [h x (by simp [Instr.sources, hop, hl]), h y (by simp [Instr.sources, hop, hr])]
  | ret =>
    cases hl : z.left with
    | none => rfl
    | some y => simp [h y (by simp [Instr.sources, hop, hl])]
  | _ => rfl

namespace Routine.Agrees

section Fetched

variable (h : r.Agrees c pc st st') (hz : c.fetch r.first r.last pc = some z)
include h hz

theorem word_eq {y : OperandId} (hy : y ∈ z.sources) : c.word st' y = c.word st y := by
  obtain ⟨hf, hl, hi⟩ := Code.fetch_eq_some.mp hz
  exact word_eq_of_value h.world fun hval => h.wanted hf hl y ⟨z, hi, Or.inl (Instr.mem_reads.mpr ⟨hy, hval⟩)⟩

theorem kept {y : OperandId} (hy : Wanted c r.flow y pc) (hne : z.writes? c.operands ≠ some y) :
    st'.values y = st.values y := by
  obtain ⟨hf, hl, hi⟩ := Code.fetch_eq_some.mp hz
  exact h.wanted hf hl y ⟨z, hi, Or.inr ⟨hne, hy⟩⟩

theorem kept_of_silent (hop : z.op = .header ∨ z.op.isSilent = true) {y : OperandId} (hy : Wanted c r.flow y pc) :
    st'.values y = st.values y := by
  by_cases hw : z.writes? c.operands = some y
  · obtain ⟨hf, hl, hi⟩ := Code.fetch_eq_some.mp hz
    rcases hop with hop | hop
    · simp [Instr.writes?, Instr.dest?, hop] at hw
    · exact h.stray y ⟨pc, z, hf, hl, hi, hop, hw⟩
  · exact h.kept hz hy hw

end Fetched

theorem of_wanted (hr : r.Built c) {pos : Nat} (hnext : r.first ≤ pos → pos ≤ r.last → c.Next r.first r.last pc pos)
    (hworld : st'.world = st.world) (hwanted : ∀ y, Wanted c r.flow y pc → st'.values y = st.values y)
    (hstray : ∀ y, r.Stray c y → st'.values y = st.values y) : r.Agrees c pos st st' :=
  ⟨hworld, fun hf hl y hy => hwanted y (hy.wanted (hr.follows pc pos (hnext hf hl))), hstray⟩

theorem finish (hr : r.Built c) (hz : c.fetch r.first r.last pc = some z) (hdest : z.dest? = z.result)
    (ht : z.isTransfer = false) (hworld : st'.world = st.world)
    (hkept : ∀ y, Wanted c r.flow y pc → z.writes? c.operands ≠ some y → st'.values y = st.values y)
    (hstray : ∀ y, r.Stray c y → st'.values y = st.values y) (v : Word) :
    Option.Rel (Config.Together r c) (Storage.virtual.finish c pc st z.result v)
      (Storage.virtual.finish c pc st' z.result v) := by
  obtain ⟨hf, hl, hi⟩ := Code.fetch_eq_some.mp hz
  have hnext : r.first ≤ pc + 1 → pc + 1 ≤ r.last → c.Next r.first r.last pc (pc + 1) :=
    fun hf' hl' => ⟨⟨hf, hl, hf', hl'⟩, z, hi, Or.inl ⟨rfl, ht⟩⟩
  cases hres : z.result with
  | none => exact .none
  | some x =>
    cases hval : c.operands.isValue x with
    | true =>
      have hset : ∀ y, (y ≠ x → st'.values y = st.values y) → (st'.set x v).values y = (st.set x v).values y := by
        intro y hy
        by_cases hyx : y = x
        · simp [State.set, hyx]
        · simp [State.set, hyx, hy hyx]
      rw [finish_value hval, finish_value hval]
      refine .some ⟨rfl, of_wanted hr hnext hworld (fun y hy => hset y fun hne => hkept y hy ?_) fun y hy =>
        hset y fun _ => hstray y hy⟩
      rw [Instr.writes?, hdest, hres, Option.filter_some, if_pos hval]
      exact fun he => hne (Option.some.inj he).symm
    | false =>
      have hnone : z.writes? c.operands = none := by simp [Instr.writes?, hdest, hres, hval]
      have hall : ∀ y, Wanted c r.flow y pc → st'.values y = st.values y := fun y hy => hkept y hy (by simp [hnone])
      simp only [Storage.finish, Storage.assign, Option.bind_eq_bind, Option.bind_some]
      cases ho : c.operands.get? x with
      | none => exact .none
      | some o =>
        have ho' : o.isValue = false := by simpa [Arena.isValue, ho] using hval
        simp only [ho', Option.bind_some, Bool.false_eq_true, if_false]
        cases o.kind with
        | symbol id => exact .some ⟨rfl, of_wanted hr hnext (by rw [hworld]) hall hstray⟩
        | _ => exact .none

theorem lockstep (hr : r.Built c) (h : r.Agrees c pc st st') (hz : c.fetch r.first r.last pc = some z) :
    Lockstep .virtual .virtual c r.first r.last (Config.Together r c) pc z st st' := by
  obtain ⟨hf, hl, hi⟩ := Code.fetch_eq_some.mp hz
  refine ⟨h.world, fun y hy => h.word_eq hz hy, fun op y hop hy => ?_, fun hop pos w hnext => ?_, fun hop hres w => ?_,
    fun hdest ht v => ?_, fun hdest ht w v => ?_, fun v => ⟨rfl, h.world⟩⟩
  · exact h.word_eq hz (by simp [Instr.sources, hop, hy])
  · exact ⟨rfl, of_wanted hr hnext rfl (fun y => h.kept_of_silent hz hop) h.stray⟩
  · have hnext : r.first ≤ pc + 1 → pc + 1 ≤ r.last → c.Next r.first r.last pc (pc + 1) :=
      fun hf' hl' => ⟨⟨hf, hl, hf', hl'⟩, z, hi, Or.inl ⟨rfl, by simp [Instr.isTransfer, hop]⟩⟩
    refine ⟨rfl, of_wanted hr hnext rfl (fun y hy => h.kept hz hy ?_) h.stray⟩
    simp [Instr.writes?, Instr.dest?, hop, hres]
  · exact finish hr hz hdest ht h.world (fun y => h.kept hz) h.stray v
  · refine finish hr hz hdest ht ?_ ?_ ?_ v
    · rfl
    · exact fun y => h.kept hz
    · exact h.stray

theorem step (hr : r.Built c) (h : r.Agrees c pc st st') :
    Option.Rel (Config.Together r c) (M.step c r.first r.last pc st) (M.step c r.first r.last pc st') := by
  cases hz : c.fetch r.first r.last pc with
  | none =>
    unfold Meaning.step Storage.step
    rw [hz]
    exact .none
  | some z => exact Storage.step_rel hz (h.lockstep hr hz)

theorem action_eq (h : r.Agrees c pc st st') : (c.fetch r.first r.last pc).bind (c.action st') =
    (c.fetch r.first r.last pc).bind (c.action st) := by
  cases hz : c.fetch r.first r.last pc with
  | none => rfl
  | some z => exact action_congr fun y hy => h.word_eq hz hy

theorem trace_eq (hr : r.Built c) (h : r.Agrees c pc st st') (n : Nat) :
    M.trace c r.first r.last n pc st' = M.trace c r.first r.last n pc st := by
  induction n generalizing pc st st' with
  | zero => rfl
  | succ n ih =>
    have hstep := h.step hr (M := M)
    rw [Meaning.trace, Meaning.trace, h.action_eq]
    revert hstep
    generalize M.step c r.first r.last pc st = k
    generalize M.step c r.first r.last pc st' = k'
    intro hstep
    cases hstep with
    | none => rfl
    | @some k k' hk =>
      cases k with
      | running pos s =>
        cases k' with
        | running pos' s' =>
          obtain ⟨rfl, hs⟩ := hk
          exact congrArg _ (ih hs)
        | returned v' w' => exact hk.elim
      | returned v w =>
        cases k' with
        | running pos' s' => exact hk.elim
        | returned v' w' => rfl

end Routine.Agrees

end Step

/-- Liveness is sound. Every function of a numbered table is analyzed, and executions that go on from one of its
instructions, in the same world, with the same values in the live-out set of the instruction and in the operands
that instructions without result name as one, have the same traces. -/
theorem live_values_determine_execution (symbols : SymbolTable) (c : Code) (hc : c.Numbered) (rs : List Routine)
    (hrs : c.routines symbols = .ok rs) (r : Routine) (hr : r ∈ rs) :
    ∃ an, c.analyze r.flow = .ok an ∧ ∀ (M : Meaning) (i j : Nat) (z : Instr) (st st' : Virtual),
      an.code.instrs[i]? = some z → an.code.Next r.first r.last i j → st'.world = st.world →
      (∀ x ∈ z.liveOut, st'.values x = st.values x) → (∀ x, r.Stray an.code x → st'.values x = st.values x) →
      ∀ n, M.trace an.code r.first r.last n j st' = M.trace an.code r.first r.last n j st := by
  have hbuilt := Code.routines_built hc hrs r hr
  obtain ⟨an, han, hA⟩ := Code.analyze_eq_ok hbuilt
  have hlike := hA.alike.like
  refine ⟨an, han, fun M i j z st st' hz hnext hworld hlive hstray n => ?_⟩
  have hbuilt' := hlike.built hbuilt
  have hwanted : ∀ y, Wanted an.code r.flow y i → st'.values y = st.values y := fun y hy =>
    hlive y ((hA.liveOut_iff i z hnext.1.1 hnext.1.2.1 hz y).mpr ((wanted_like_iff hlike).mp hy))
  exact (Routine.Agrees.of_wanted hbuilt' (fun _ _ => hnext) hworld hwanted hstray).trace_eq hbuilt' n

/-- A loop whose label names `u` as its result, although a label writes nothing:

    func f:
    L0:
        w = call g(v)
        *v = w
        if !v goto L0
        return u -/
def beacon : Code where
  instrs := #[
    { id := 0, op := .header, result := some 0 },
    { id := 1, op := .label, result := some 1, left := some 4 },
    { id := 2, op := .call, result := some 3, left := some 5, args := [2] },
    { id := 3, op := .store, left := some 2, right := some 3 },
    { id := 4, op := .branch, left := some 2, right := some 4 },
    { id := 5, op := .ret, left := some 1 }]
  operands.operands := #[
    { kind := .symbol 0, isValue := false },
    { kind := .symbol 1, isValue := true },
    { kind := .symbol 2, isValue := true },
    { kind := .symbol 3, isValue := true },
    { kind := .label ⟨0⟩, isValue := false },
    { kind := .symbol 4, isValue := false }]

def beaconSymbols : SymbolTable where
  symbols := #[
    { name := "f", kind := .function, ty := .function [] .int },
    { name := "u", kind := .localVar, ty := .int },
    { name := "v", kind := .localVar, ty := .int },
    { name := "w", kind := .localVar, ty := .int },
    { name := "g", kind := .function, ty := .function [.int] .int }]

def beaconRoutine : Routine where
  symbol := 0
  first := 0
  last := 5
  flow := (FlowGraph.build beacon "f" 0 5).toOption.getD {}

theorem beacon_numbered : beacon.Numbered := by
  intro i x hx
  have hi : i < 6 := (Array.getElem?_eq_some_iff.mp hx).1
  have hall : ∀ i < 6, (beacon.instrs[i]?).all (·.id = i) := by decide +kernel
  simpa [hx] using hall i hi

/-- Calls that return ten times the sum of their arguments. -/
def beaconMeaning : Meaning where
  binary _ _ _ := none
  unary _ _ := none
  base _ := 0
  call _ args w := some (10 * args.foldl (· + ·) 0, w)

/-- The given words in `u`, `v` and `w`. -/
def beaconState (u v w : Word) : Virtual :=
  ⟨fun y => if y = 1 then u else if y = 2 then v else if y = 3 then w else 0, fun _ => 0, fun _ => 0⟩

theorem beaconState_of_ne {u v w w' : Word} {x : OperandId} (hx : x ≠ 3) :
    (beaconState u v w').values x = (beaconState u v w).values x := by
  simp [beaconState, hx]

/-- The live-out set of the header alone does not determine the execution: it holds `v` and not `u`, which the
label counts as written, and `u` is what the function returns. -/
theorem label_result_is_not_live : beacon.Numbered ∧ beacon.routines beaconSymbols = .ok [beaconRoutine] ∧
    ∃ an, beacon.analyze beaconRoutine.flow = .ok an ∧ ∃ z, an.code.instrs[0]? = some z ∧
      an.code.Next 0 5 0 1 ∧ (beaconState 6 1 0).world = (beaconState 5 1 0).world ∧
      (∀ x ∈ z.liveOut, (beaconState 6 1 0).values x = (beaconState 5 1 0).values x) ∧
      beaconMeaning.trace an.code 0 5 5 1 (beaconState 6 1 0) ≠
        beaconMeaning.trace an.code 0 5 5 1 (beaconState 5 1 0) := by
  have hrs : beacon.routines beaconSymbols = .ok [beaconRoutine] := rfl
  refine ⟨beacon_numbered, hrs, ?_⟩
  obtain ⟨an, han, hA⟩ := Code.analyze_eq_ok (Code.routines_built beacon_numbered hrs _ List.mem_cons_self)
  have hrun : (beacon.analyze beaconRoutine.flow).toOption.any (fun an =>
      an.code.instrs[0]?.any (fun z => z.liveOut.toList.all (· = 2)) &&
        decide (beaconMeaning.trace an.code 0 5 5 1 (beaconState 6 1 0) ≠
          beaconMeaning.trace an.code 0 5 5 1 (beaconState 5 1 0))) = true := by
    decide +kernel
  rw [han, Except.toOption, Option.any_some, Bool.and_eq_true, Option.any_eq_true, decide_eq_true_eq] at hrun
  obtain ⟨⟨z, hz, hlive⟩, htrace⟩ := hrun
  refine ⟨an, han, z, hz, hA.alike.like.next ⟨by decide, _, rfl, Or.inl ⟨rfl, rfl⟩⟩, rfl, fun x hx => ?_, htrace⟩
  rw [List.all_eq_true] at hlive
  obtain rfl : x = 2 := of_decide_eq_true (hlive x (Std.ExtTreeSet.mem_toList.mpr hx))
  rfl

/-- With `u` and `v` given, the word that `w` starts with does not matter. -/
theorem beacon_ignores_overwritten : beacon.Numbered ∧ beacon.routines beaconSymbols = .ok [beaconRoutine] ∧
    ∃ an, beacon.analyze beaconRoutine.flow = .ok an ∧ ∀ w,
      beaconMeaning.trace an.code 0 5 5 1 (beaconState 5 1 w) =
        [(1, some .silent), (2, some (.call 4 [1])), (3, some (.store 1 10)), (4, some .silent),
          (5, some (.ret (some 5)))] := by
  have hrs : beacon.routines beaconSymbols = .ok [beaconRoutine] := rfl
  refine ⟨beacon_numbered, hrs, ?_⟩
  obtain ⟨an, han, hsame⟩ :=
    live_values_determine_execution beaconSymbols beacon beacon_numbered _ hrs _ List.mem_cons_self
  have hrun : (beacon.analyze beaconRoutine.flow).toOption.any (fun an =>
      an.code.instrs[0]?.any (fun z => !z.isTransfer && z.liveOut.toList.all (· ≠ 3)) &&
        decide (beaconMeaning.trace an.code 0 5 5 1 (beaconState 5 1 0) =
        [(1, some .silent), (2, some (.call 4 [1])), (3, some (.store 1 10)), (4, some .silent),
          (5, some (.ret (some 5)))]) &&
        an.code.instrs.all (fun z => !z.op.isSilent || z.writes? an.code.operands ≠ some 3)) = true := by
    decide +kernel
  rw [han, Except.toOption, Option.any_some, Bool.and_eq_true, Bool.and_eq_true, Option.any_eq_true,
    decide_eq_true_eq] at hrun
  obtain ⟨⟨⟨z, hz, hlive⟩, htrace⟩, hstray⟩ := hrun
  rw [Bool.and_eq_true, List.all_eq_true] at hlive
  refine ⟨an, han, fun w => ?_⟩
  have hnext : an.code.Next 0 5 0 1 := ⟨by decide, z, hz, Or.inl ⟨rfl, by simpa using hlive.1⟩⟩
  refine (hsame beaconMeaning 0 1 z (beaconState 5 1 0) (beaconState 5 1 w) hz hnext rfl
    (fun x hx => beaconState_of_ne ?_) (fun x hx => beaconState_of_ne ?_) 5).trans htrace
  · exact of_decide_eq_true (hlive.2 x (Std.ExtTreeSet.mem_toList.mpr hx))
  · rintro rfl
    obtain ⟨i, y, -, -, hy, hop, hw⟩ := hx
    have := Array.all_eq_true'.mp hstray y (Array.mem_of_getElem? hy)
    simp [hop, hw] at this

end MiddleEnd
