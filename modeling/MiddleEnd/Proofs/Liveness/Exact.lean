import MiddleEnd.Proofs.Flow.ControlFlow
import MiddleEnd.Proofs.Liveness.Analysis

/-! Liveness is exact at every instruction: what it finds live after a position is what some path along the
flow graph reads before anything on the path writes it. -/

namespace MiddleEnd

/-- Some path along the graph, of one step or more, goes from position `i` to one that reads `x`, and no
position strictly between the two writes `x`. -/
def Code.ReadAhead (c : Code) (g : FlowGraph) (x : OperandId) (i : Nat) : Prop :=
  ∃ between j y, (i :: (between ++ [j])).IsChain g.Follows ∧ c.instrs[j]? = some y ∧ x ∈ y.sources ∧
    ∀ k ∈ between, ∀ z, c.instrs[k]? = some z → z.dest? ≠ some x

/-- A value is wanted after a position exactly if some path reads it before anything writes it. -/
theorem wanted_iff_readAhead {c : Code} {r : Routine} (hr : r.Built c) (x : OperandId) (i : Nat) :
    Wanted c r.flow x i ↔ c.operands.isValue x = true ∧ c.ReadAhead r.flow x i := by
  constructor
  · intro h
    induction h with
    | @read i j z hij hz hx =>
      obtain ⟨hsrc, hval⟩ := Instr.mem_reads.mp hx
      exact ⟨hval, [], j, z, by simpa using hij, hz, hsrc, by simp⟩
    | @pass i j z hij hz hx _ ih =>
      obtain ⟨hval, between, k, y, hchain, hy, hsrc, hno⟩ := ih
      refine ⟨hval, j :: between, k, y, List.isChain_cons_cons.mpr ⟨hij, hchain⟩, hy, hsrc, ?_⟩
      intro m hm w hw
      rcases List.mem_cons.mp hm with rfl | hm
      · obtain rfl : z = w := by simpa [hz] using hw
        exact fun he => hx (Instr.writes?_eq_some.mpr ⟨he, hval⟩)
      · exact hno m hm w hw
  · rintro ⟨hval, between, j, y, hchain, hy, hsrc, hno⟩
    -- along the path, from its start
    induction between generalizing i with
    | nil => exact .read (by simpa using hchain) hy (Instr.mem_reads.mpr ⟨hsrc, hval⟩)
    | cons k between ih =>
      obtain ⟨hik, hchain⟩ := List.isChain_cons_cons.mp hchain
      have hbounds := hr.follows_bounds hik
      have hlast := hr.last_lt
      have hz : c.instrs[k]? = some c.instrs[k] := Array.getElem?_eq_getElem (by omega)
      refine .pass hik hz (fun he => ?_) (ih k hchain fun m hm => hno m (List.mem_cons_of_mem _ hm))
      exact hno k List.mem_cons_self _ hz (Instr.writes?_eq_some.mp he).1

/-- Liveness is exact. For every function of a table, the analysis ends well and changes nothing but live-out
sets. After every instruction of the function it finds exactly the values that some path along the flow
graph reads before anything writes them, and it leaves the instructions outside of the function alone. -/
theorem liveOut_is_exact (symbols : SymbolTable) (c : Code) (hc : c.Numbered) (rs : List Routine)
    (hrs : c.routines symbols = .ok rs) (r : Routine) (hr : r ∈ rs) :
    ∃ an, c.analyze r.flow = .ok an ∧ c.Alike an.code ∧
      (∀ i, r.first ≤ i → i ≤ r.last → ∃ z, an.code.instrs[i]? = some z ∧
        ∀ x, x ∈ z.liveOut ↔ c.operands.isValue x = true ∧ c.ReadAhead r.flow x i) ∧
      ∀ i, i < r.first ∨ r.last < i → an.code.instrs[i]? = c.instrs[i]? := by
  have hbuilt := Code.routines_built hc hrs r hr
  obtain ⟨an, han, h⟩ := Code.analyze_eq_ok hbuilt
  refine ⟨an, han, h.alike, fun i hfi hil => ?_, h.outside⟩
  have hlast := hbuilt.last_lt
  have hsize := h.alike.size
  have hz : an.code.instrs[i]? = some an.code.instrs[i] := Array.getElem?_eq_getElem (by omega)
  exact ⟨_, hz, fun x => (h.liveOut_iff i _ hfi hil hz x).trans (wanted_iff_readAhead hbuilt x i)⟩

/-- The loop of the first function keeps `u` live at its end, which goes back to read it, and the second
function keeps the set that its header came with. -/
theorem detour_liveness : detour.Numbered ∧ detour.routines detourSymbols = .ok detourRoutines ∧
    ∃ r ∈ detourRoutines, ∃ an, detour.analyze r.flow = .ok an ∧
      (∃ z, an.code.instrs[7]? = some z ∧ 1 ∈ z.liveOut) ∧ an.code.instrs[10]? = detour.instrs[10]? := by
  have hrs : detour.routines detourSymbols = .ok detourRoutines := rfl
  refine ⟨detour_numbered, hrs, _, List.mem_cons_self, ?_⟩
  have hbuilt := Code.routines_built detour_numbered hrs _ List.mem_cons_self
  obtain ⟨an, han, -, hlive, houtside⟩ :=
    liveOut_is_exact detourSymbols detour detour_numbered _ hrs _ List.mem_cons_self
  obtain ⟨z, hz, hiff⟩ := hlive 7 (by decide) (by decide)
  refine ⟨an, han, ⟨z, hz, (hiff 1).mpr ⟨rfl, [5], 6, _, ?_, rfl, by decide, ?_⟩⟩, houtside 10 (by decide)⟩
  · have hback := hbuilt.follows 7 5 ⟨by decide, _, rfl, Or.inr ⟨3, rfl, by decide⟩⟩
    have hon := hbuilt.follows 5 6 ⟨by decide, _, rfl, Or.inl ⟨rfl, rfl⟩⟩
    exact List.isChain_cons_cons.mpr ⟨hback, List.isChain_cons_cons.mpr ⟨hon, .singleton 6⟩⟩
  · intro k hk w hw
    obtain rfl := List.mem_singleton.mp hk
    cases hw
    decide

end MiddleEnd
