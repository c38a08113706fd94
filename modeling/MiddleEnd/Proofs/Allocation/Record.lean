import MiddleEnd.Proofs.Allocation.Independence
import MiddleEnd.Proofs.Allocation.Session

/-! What a unit records of its functions. Functions are allocated one after the other, and none of them touches an
instruction of another; so in the code that is left at the end, the live-out sets are what is wanted and the
interference graph of a function is still that of its instructions. This asks nothing of the program but that it
compiles. -/

namespace MiddleEnd

/-- A function that was cut out of the table `c`. -/
structure Routine.CutFrom (c : Code) (r : Routine) : Prop where
  built : r.Built c
  mirrors : r.flow.Mirrors c r.first r.last
  next : ∀ x, c.instrs[r.last + 1]? = some x → x.op = .header

theorem Code.routines_cutFrom {symbols : SymbolTable} {c : Code} (hc : c.Numbered) {rs : List Routine}
    (h : c.routines symbols = .ok rs) {r : Routine} (hr : r ∈ rs) : r.CutFrom c := by
  obtain ⟨⟨x, hx, hop⟩, hfl, hl, -, name, hflow⟩ := mem_routines h hr
  obtain ⟨targets, hparts⟩ := FlowGraph.exists_parts hc hl hflow
  have hplaced := (FlowGraph.exists_build_iff hc name hfl hl).mp ⟨_, hflow⟩
  refine ⟨routines_built hc h r hr, hparts.mirrors hc hfl hl hplaced fun y hy => ?_, fun y => header_after_routine h hr⟩
  obtain rfl : x = y := Option.some.inj (hx.symm.trans hy)
  simp [hop]

namespace Routine.CutFrom

variable {c : Code} {r : Routine} {i k : Nat} {b : Block} {z : Instr}

theorem succ_le_last (h : r.CutFrom c) (hi : i ≤ r.last) (hz : c.instrs[i + 1]? = some z) (hop : z.op ≠ .header) :
    i + 1 ≤ r.last := by
  by_contra hlt
  obtain rfl : i = r.last := by omega
  exact hop (h.next z hz)

theorem succ_le_block (h : r.CutFrom c) (hk : r.flow.block? k = some b) (hbi : b.first ≤ i) (hib : i ≤ b.last)
    (hi : i + 1 ≤ r.last) (hbreaks : ¬ c.Breaks (i + 1)) : i + 1 ≤ b.last := by
  obtain ⟨hfirst, -, -⟩ := h.built.block_bounds hk
  obtain ⟨l, d, hl, h1, h2⟩ := h.built.exists_block (i := i + 1) (by omega) hi
  -- the block of the next position does not start there
  have hd : d.first ≤ i := by
    by_contra hlt
    obtain hstart : d.first = i + 1 := by omega
    rcases h.built.breaks l d hl with heq | hd
    · omega
    · exact hbreaks (hstart ▸ hd)
  obtain rfl : l = k := h.built.tiles.unique ((FlowGraph.blocks_getElem? r.flow l).trans hl)
    ((FlowGraph.blocks_getElem? r.flow k).trans hk) ⟨hd, by omega⟩ ⟨hbi, hib⟩
  rw [hk] at hl
  cases hl
  exact h2

end Routine.CutFrom

/-- The function `r` of the table `c`, as a unit with the code `e` records it in the end. -/
structure Routine.Recorded (c e : Code) (r s : Routine) : Prop where
  first : s.first = r.first
  last : s.last = r.last
  block : ∀ k b, r.flow.block? k = some b → ∃ d, s.flow.block? k = some d ∧ d.first = b.first ∧ d.last = b.last ∧
    ∀ x, x ∈ d.liveIn ↔ WantedAt c r.flow x b.first
  block_of : ∀ k d, s.flow.block? k = some d → ∃ b, r.flow.block? k = some b ∧ d.first = b.first ∧ d.last = b.last
  noted : r.Noted c e
  interference : s.interference = e.interference s.flow

section Allocate

variable {conv : Convention} {c d e : Code}

theorem Routine.recorded_place {r : Routine} (hr : r.Built c) (hlike : c.Like d) {an : Analysis}
    (han : d.analyze r.flow = .ok an) (hA : Analyzed d r an) (hlike' : c.Like e)
    (hsame : ∀ i, r.first ≤ i → i ≤ r.last → e.instrs[i]? = an.code.instrs[i]?) :
    r.Recorded c e (r.place conv an).routine := by
  have hcode : c.Like an.code := hlike.trans hA.alike.like
  refine ⟨rfl, rfl, fun k b hk => ?_, fun k f => hA.block_of, fun i w hf hl hw x => ?_, ?_⟩
  · obtain ⟨f, hf, -⟩ := hA.block k b hk
    obtain ⟨b', hb', hfirst, hlast, hsets⟩ := Code.analyze_block_sets (hlike.built hr) han hf
    obtain rfl : b = b' := Option.some.inj (hk.symm.trans hb')
    exact ⟨f, hf, hfirst, hlast, fun x => (hsets x).2.trans ⟨.of_like hlike.symm, .of_like hlike⟩⟩
  · rw [hsame i hf hl] at hw
    rw [hA.liveOut_iff i w hf hl hw x, wanted_like_iff hlike]
  · have hmatch : an.code.Matches r.first r.last e :=
      ⟨(hcode.symm.trans hlike').size, funext (hcode.symm.trans hlike').operands.isValue, hsame⟩
    refine (hmatch.interference fun k f hk => ?_).symm
    obtain ⟨b, hb, hf, hl⟩ := hA.block_of hk
    rw [hf, hl]
    exact (hlike.built hr).within k b hb

theorem allocateAll_records {rs : List Routine} (hrs : ∀ r ∈ rs, r.Built c)
    (hranges : rs.Pairwise fun r s => r.last < s.first) (hlike : c.Like d) {als : List Allocation}
    (h : allocateAll conv rs d = .ok (e, als)) : c.Like e ∧
      (∀ i, (∀ r ∈ rs, i < r.first ∨ r.last < i) → e.instrs[i]? = d.instrs[i]?) ∧
      List.Forall₂ (fun r al => r.Recorded c e al.routine) rs als := by
  induction rs generalizing d als with
  | nil =>
    obtain ⟨rfl, rfl⟩ : d = e ∧ [] = als := by simpa [allocateAll] using h
    exact ⟨hlike, fun _ _ => rfl, .nil⟩
  | cons r rs ih =>
    obtain ⟨al, hal, h⟩ := Except.bind_eq_ok.mp h
    obtain ⟨⟨e', als'⟩, hrest, h⟩ := Except.bind_eq_ok.mp h
    cases h
    obtain ⟨hbehind, hranges⟩ := List.pairwise_cons.mp hranges
    have hr := hrs r (by simp)
    obtain ⟨an, han, hA⟩ := Code.analyze_eq_ok (hlike.built hr)
    rw [Routine.allocate_eq_place han] at hal
    cases hal
    have hcode := hlike.trans hA.alike.like
    obtain ⟨hlike', houtside, hals⟩ := ih (d := (r.place conv an).code) (fun s hs => hrs s (by simp [hs])) hranges
      ⟨hcode.operands.trans (r.place_like conv an), hcode.instrs⟩ hrest
    refine ⟨hlike', fun i hi => ?_, .cons (Routine.recorded_place hr hlike han hA hlike' fun i hf hl => ?_) hals⟩
    · rw [houtside i fun s hs => hi s (by simp [hs])]
      exact hA.outside i (hi r (by simp))
    · -- the functions behind leave the instructions of this one alone
      exact houtside i fun s hs => Or.inl (by have := hbehind s hs; omega)

end Allocate

theorem Program.compile_records {conv : Convention} {p : Program} {u : Compiled} (h : p.compile conv = .ok u) :
    ∃ l rs, p.lower = .ok l ∧ l.code.Sound p.symbols ∧ l.code.routines p.symbols = .ok rs ∧ l.code.Like u.code ∧
      List.Forall₂ (Routine.Recorded l.code u.code) rs u.routines := by
  obtain ⟨l, hl, h⟩ := Except.bind_eq_ok.mp h
  obtain ⟨rs, hrs, h⟩ := Except.bind_eq_ok.mp h
  obtain ⟨⟨code, als⟩, hals, h⟩ := Except.bind_eq_ok.mp h
  cases h
  have hl := mapError_eq_ok hl
  have hrs := mapError_eq_ok hrs
  obtain ⟨b, hb, hcode⟩ := lowerProgram_eq_ok hl
  have hc : l.code.Sound p.symbols := hcode ▸ (lowerDecls_sound hb (.empty p.symbols)).2
  obtain ⟨hlike, -, hall⟩ := allocateAll_records (Code.routines_built hc.numbered hrs) (Code.routines_ranges hrs)
    (.refl _) (mapError_eq_ok hals)
  exact ⟨l, rs, hl, hc, hrs, hlike, List.forall₂_map_right_iff.mpr hall⟩

end MiddleEnd
