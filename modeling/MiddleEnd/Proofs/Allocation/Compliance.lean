import MiddleEnd.Proofs.Allocation.Unit

/-! Code follows the calling convention it was compiled for. What a function mentions and the convention fixes is
in its place once the function has been pinned. From then on nothing moves it: colouring passes over what has a
place, and the functions behind pin only what is not in place yet. -/

namespace MiddleEnd

namespace Convention

/-- The operands that an instruction mentions are where the convention wants them: arguments and parameters in the
registers for them and in the frame where these run out, results in the register for results, and a variable that
receives a parameter from the frame in the frame. -/
structure Followed (conv : Convention) (a : Arena) (z : Instr) : Prop where
  passed : ∀ y ∈ z.mentions, ∀ pos reg, a.tag? y = some (.arg pos) ∨ a.tag? y = some (.param pos) →
    conv.args[pos]? = some reg → a.location y = some (.register reg)
  stacked : ∀ y ∈ z.mentions, ∀ pos, a.tag? y = some (.arg pos) ∨ a.tag? y = some (.param pos) →
    conv.args.length ≤ pos → a.location y = some .frame
  returned : ∀ y ∈ z.mentions, a.tag? y = some .returnValue ∨ a.tag? y = some .callResult →
    a.location y = some (.register conv.result)
  received : ∀ pos y, z.op = .param pos → conv.args.length ≤ pos → z.result = some y → a.isValue y = true →
    a.location y = some .frame

variable {conv : Convention} {a b d : Arena} {x y : OperandId}

/-- The operand is in the place that is fixed for it, if one is. -/
def Fixes (conv : Convention) (a : Arena) (y : OperandId) : Prop :=
  ∀ tag loc, a.tag? y = some tag → conv.fixed? tag = some loc → a.location y = some loc

/-- No place is fixed for the operand. -/
def Free (conv : Convention) (a : Arena) (y : OperandId) : Prop :=
  ∀ tag, a.tag? y = some tag → conv.fixed? tag = none

/-- No operand that a place is fixed for is anywhere else. -/
def Heeded (conv : Convention) (a : Arena) : Prop :=
  ∀ y tag loc, a.tag? y = some tag → conv.fixed? tag = some loc → a.location y = none ∨ a.location y = some loc

theorem followed_iff {z : Instr} : conv.Followed a z ↔ (∀ y ∈ z.mentions, conv.Fixes a y) ∧
    ∀ pos y, z.op = .param pos → conv.args.length ≤ pos → z.result = some y → a.isValue y = true →
      a.location y = some .frame := by
  constructor
  · intro h
    -- arguments and parameters have the same places
    have hpos : ∀ y ∈ z.mentions, ∀ pos, a.tag? y = some (.arg pos) ∨ a.tag? y = some (.param pos) →
        a.location y = some (conv.args[pos]?.elim .frame .register) := by
      intro y hy pos htag
      cases hreg : conv.args[pos]? with
      | some reg => exact h.passed y hy pos reg htag hreg
      | none => exact h.stacked y hy pos htag (List.getElem?_eq_none_iff.mp hreg)
    refine ⟨fun y hy tag loc htag hloc => ?_, h.received⟩
    cases tag with
    | arg pos => exact hloc ▸ hpos y hy pos (Or.inl htag)
    | param pos => exact hloc ▸ hpos y hy pos (Or.inr htag)
    | returnValue => exact hloc ▸ h.returned y hy (Or.inl htag)
    | callResult => exact hloc ▸ h.returned y hy (Or.inr htag)
    | _ => cases hloc
  · rintro ⟨hfix, hrec⟩
    have hpos : ∀ y ∈ z.mentions, ∀ pos, a.tag? y = some (.arg pos) ∨ a.tag? y = some (.param pos) →
        a.location y = some (conv.args[pos]?.elim .frame .register) := by
      rintro y hy pos (htag | htag)
      · exact hfix y hy _ _ htag rfl
      · exact hfix y hy _ _ htag rfl
    refine ⟨fun y hy pos reg htag hreg => ?_, fun y hy pos htag hlen => ?_, fun y hy htag => ?_, hrec⟩
    · rw [hpos y hy pos htag, hreg]
      rfl
    · rw [hpos y hy pos htag, List.getElem?_eq_none hlen]
      rfl
    · rcases htag with htag | htag
      · exact hfix y hy _ _ htag rfl
      · exact hfix y hy _ _ htag rfl

/-- What every step of allocation respects: nothing leaves the frame, and an operand that a place is fixed for
stays where it is, or goes to its place if it has none. -/
structure Keeps (conv : Convention) (a b : Arena) : Prop where
  like : a.Like b
  frame : ∀ y, a.location y = some .frame → b.location y = some .frame
  fixed : ∀ y tag loc, a.tag? y = some tag → conv.fixed? tag = some loc →
    b.location y = a.location y ∨ (a.location y = none ∧ b.location y = some loc)

theorem Keeps.refl (a : Arena) : conv.Keeps a a := ⟨.refl a, fun _ h => h, fun _ _ _ _ _ => Or.inl rfl⟩

theorem Keeps.trans (h : conv.Keeps a b) (k : conv.Keeps b d) : conv.Keeps a d := by
  refine ⟨h.like.trans k.like, fun y hy => k.frame y (h.frame y hy), fun y tag loc htag hloc => ?_⟩
  have hk := k.fixed y tag loc (h.like.tag? y ▸ htag) hloc
  rcases h.fixed y tag loc htag hloc with hb | ⟨hnone, hb⟩
  · rwa [hb] at hk
  · rcases hk with hd | ⟨hnone', -⟩
    · exact Or.inr ⟨hnone, hd.trans hb⟩
    · rw [hb] at hnone'
      cases hnone'

theorem Keeps.of_location (hlike : a.Like b) (h : ∀ y, b.location y = a.location y) : conv.Keeps a b :=
  ⟨hlike, fun y hy => (h y).trans hy, fun y _ _ _ _ => Or.inl (h y)⟩

theorem Keeps.heeded (h : conv.Keeps a b) (ha : conv.Heeded a) : conv.Heeded b := by
  intro y tag loc htag hloc
  rw [h.like.tag?] at htag
  rcases h.fixed y tag loc htag hloc with hb | ⟨-, hb⟩
  · exact hb ▸ ha y tag loc htag hloc
  · exact Or.inr hb

theorem Keeps.fixes (h : conv.Keeps a b) (ha : conv.Fixes a y) : conv.Fixes b y := by
  intro tag loc htag hloc
  rw [h.like.tag?] at htag
  have hy := ha tag loc htag hloc
  rcases h.fixed y tag loc htag hloc with hb | ⟨hnone, -⟩
  · exact hb.trans hy
  · rw [hy] at hnone
    cases hnone

theorem Keeps.followed (h : conv.Keeps a b) {z : Instr} (ha : conv.Followed a z) : conv.Followed b z := by
  obtain ⟨hfix, hrec⟩ := followed_iff.mp ha
  refine followed_iff.mpr ⟨fun y hy => h.fixes (hfix y hy), fun pos y hop hlen hres hval => ?_⟩
  exact h.frame y (hrec pos y hop hlen hres (h.like.isValue y ▸ hval))

theorem Keeps.locate {loc : Location} (hloc : a.Locates x loc b) (hframe : a.location x = some .frame → loc = .frame)
    (hfix : ∀ tag l, a.tag? x = some tag → conv.fixed? tag = some l → a.location x = none ∧ l = loc) :
    conv.Keeps a b := by
  have hself : ∀ {o : Operand}, a.get? x = some o → b.location x = some loc := hloc.location_self
  refine ⟨hloc.like, fun y hy => ?_, fun y tag l htag hl => ?_⟩
  · by_cases hxy : x = y
    · subst hxy
      obtain ⟨o, ho, -⟩ := Option.bind_eq_some_iff.mp hy
      rw [hself ho, hframe hy]
    · exact (hloc.location_of_ne hxy).trans hy
  · by_cases hxy : x = y
    · subst hxy
      obtain ⟨o, ho, -⟩ := Option.bind_eq_some_iff.mp htag
      obtain ⟨hnone, rfl⟩ := hfix tag l htag hl
      exact Or.inr ⟨hnone, hself ho⟩
    · exact Or.inl (hloc.location_of_ne hxy)

/-! ### The phases -/

theorem pin_keeps (h : conv.pin a x = .ok b) : conv.Keeps a b ∧ (conv.Heeded a → conv.Fixes b x) := by
  unfold pin at h
  split at h
  case isTrue hx =>
    cases h
    refine ⟨.refl a, fun ha tag loc htag hloc => (ha x tag loc htag hloc).resolve_left fun hnone => ?_⟩
    rw [Arena.isResolved_eq, hnone] at hx
    cases hx
  case isFalse hx =>
    rw [Arena.isResolved_eq, Option.not_isSome_iff_eq_none] at hx
    -- an operand without a place goes where the convention says
    have key : ∀ loc, a.Locates x loc b → (a.tag? x).bind conv.fixed? = some loc →
        conv.Keeps a b ∧ (conv.Heeded a → conv.Fixes b x) := by
      intro loc hloc hfix
      have hsame : ∀ tag l, a.tag? x = some tag → conv.fixed? tag = some l → l = loc := by
        intro tag l htag hl
        rw [htag, Option.bind_some, hl] at hfix
        exact Option.some.inj hfix
      refine ⟨.locate hloc (fun h => by rw [hx] at h; cases h) fun tag l htag hl => ⟨hx, hsame tag l htag hl⟩,
        fun _ tag l htag hl => ?_⟩
      rw [hloc.like.tag?] at htag
      obtain ⟨o, ho, -⟩ := Option.bind_eq_some_iff.mp htag
      rw [hloc.location_self ho, hsame tag l htag hl]
    split at h
    case h_1 reg hfix => exact key _ (Arena.locates_assign h) hfix
    case h_2 hfix =>
      cases h
      exact key _ (Arena.locates_spill a x) hfix
    case h_3 hfix =>
      cases h
      refine ⟨.refl a, fun _ tag l htag hl => ?_⟩
      rw [htag, Option.bind_some, hl] at hfix
      cases hfix

theorem foldlM_keeps {α : Type} {f : Arena → α → Except Fault Arena} {Q : Arena → α → Prop} {l : List α}
    (hstep : ∀ s z t, z ∈ l → a.Like s → f s z = .ok t → conv.Keeps s t ∧ (conv.Heeded s → Q t z))
    (hQ : ∀ s t z, conv.Keeps s t → Q s z → Q t z) (ha : a.Like b) (h : l.foldlM f b = .ok d) :
    conv.Keeps b d ∧ (conv.Heeded b → ∀ z ∈ l, Q d z) := by
  induction l generalizing b with
  | nil =>
    obtain rfl : b = d := by simpa [pure, Except.pure] using h
    exact ⟨.refl b, by simp⟩
  | cons z l ih =>
    rw [List.foldlM_cons, Except.bind_eq_ok] at h
    obtain ⟨e, he, h⟩ := h
    obtain ⟨hbe, hz⟩ := hstep b z e (by simp) ha he
    obtain ⟨hed, hl⟩ := ih (fun s w t hw => hstep s w t (List.mem_cons_of_mem _ hw)) (ha.trans hbe.like) h
    refine ⟨hbe.trans hed, fun hb w hw => ?_⟩
    rcases List.mem_cons.mp hw with rfl | hw
    · exact hQ e d w hed (hz hb)
    · exact hl (hbe.heeded hb) w hw

theorem spillParam_keeps {z : Instr} (hz : ∀ pos y, z.op = .param pos → z.result = some y → conv.Free a y) :
    conv.Keeps a (conv.spillParam a z) ∧ ∀ pos y, z.op = .param pos → conv.args.length ≤ pos → z.result = some y →
      a.isValue y = true → (conv.spillParam a z).location y = some .frame := by
  unfold spillParam
  split
  case h_1 pos x hop hres =>
    split
    case isTrue hc =>
      refine ⟨.locate (a.locates_spill x) (fun _ => rfl) fun tag l htag hl => ?_, fun _ y _ _ hy hval => ?_⟩
      · rw [hz pos x hop hres tag htag] at hl
        cases hl
      · obtain rfl : x = y := Option.some.inj (hres.symm.trans hy)
        obtain ⟨o, ho⟩ := Option.isSome_iff_exists.mp (Option.isSome_of_any hval)
        exact (a.locates_spill x).location_self ho
    case isFalse hc =>
      refine ⟨.refl a, fun p y hop' hlen hy hval => absurd ?_ hc⟩
      obtain rfl : pos = p := Opcode.param.inj (hop.symm.trans hop')
      obtain rfl : x = y := Option.some.inj (hres.symm.trans hy)
      simp [hlen, hval]
  case h_2 hnone => exact ⟨.refl a, fun pos y hop _ hy => (hnone pos y hop hy).elim⟩

theorem pinInstr_keeps {z : Instr} (hz : ∀ pos y, z.op = .param pos → z.result = some y → conv.Free a y)
    (h : conv.pinInstr a z = .ok b) : conv.Keeps a b ∧ (conv.Heeded a → conv.Followed b z) := by
  obtain ⟨e, he, h⟩ := Except.bind_eq_ok.mp h
  cases h
  obtain ⟨hkeep, hfix⟩ := foldlM_keeps (Q := conv.Fixes) (fun s x t _ _ h => pin_keeps h)
    (fun s t x hst hx => hst.fixes hx) (.refl a) he
  obtain ⟨hspill, hrec⟩ := spillParam_keeps (a := e) (z := z) fun pos y hop hy tag htag =>
    hz pos y hop hy tag (hkeep.like.tag? y ▸ htag)
  refine ⟨hkeep.trans hspill, fun ha => followed_iff.mpr ⟨fun y hy => hspill.fixes (hfix ha y hy), ?_⟩⟩
  intro pos y hop hlen hres hval
  exact hrec pos y hop hlen hres (hspill.like.isValue y ▸ hval)

theorem foldlM_pinInstr_keeps {is : List Instr}
    (his : ∀ z ∈ is, ∀ pos y, z.op = .param pos → z.result = some y → conv.Free a y)
    (h : is.foldlM conv.pinInstr a = .ok b) : conv.Keeps a b ∧ (conv.Heeded a → ∀ z ∈ is, conv.Followed b z) := by
  refine foldlM_keeps (Q := conv.Followed) (fun s z t hz hs h => pinInstr_keeps (fun pos y hop hy tag htag => ?_) h)
    (fun s t z hst hz => hst.followed hz) (.refl a) h
  exact his z hz pos y hop hy tag (hs.tag? y ▸ htag)

theorem foldl_restrictInstr_keeps (is : List Instr) (a : Arena) : conv.Keeps a (is.foldl conv.restrictInstr a) :=
  .of_location (conv.foldl_restricted is a).like (conv.foldl_restricted is a).location

theorem foldlM_colorOne_keeps {g : Interference} {registers : List Register} {l : List OperandId} {s t : Coloring}
    (hl : ∀ x ∈ l, conv.Fixes s.operands x) (h : l.foldlM (g.colorOne registers) s = .ok t) :
    conv.Keeps s.operands t.operands := by
  refine foldlM_preserves (P := fun t => conv.Keeps s.operands t.operands) (fun u x t hx hu h => ?_) h (.refl _)
  obtain ⟨-, rfl⟩ | ⟨hnone, loc, hloc, -⟩ := Interference.colorOne_eq_ok h
  · exact hu
  · refine hu.trans (.locate hloc (fun h => by rw [hnone] at h; cases h) fun tag l htag hfix => ?_)
    rw [hu.fixes (hl x hx) tag l htag hfix] at hnone
    cases hnone

end Convention

/-! ### A function -/

/-- The arenas on the way while the operands of the function `r` are put in the places that are fixed for them. -/
inductive Routine.Pinning (conv : Convention) (c : Code) (r : Routine) : Arena → Prop
  | pinning {an : Analysis} {done todo : List Instr} {a : Arena} : c.analyze r.flow = .ok an →
      an.code.slice r.first r.last = done ++ todo → done.foldlM conv.pinInstr an.code.operands = .ok a →
      Pinning conv c r a

/-- The arenas on the way once they are there: while values are kept out of registers, and while the interference
graph is coloured. -/
inductive Routine.Placing (conv : Convention) (c : Code) (r : Routine) : Arena → Prop
  | restricting {an : Analysis} {done todo : List Instr} {pinned : Arena} : c.analyze r.flow = .ok an →
      (an.code.slice r.first r.last).foldlM conv.pinInstr an.code.operands = .ok pinned →
      an.code.slice r.first r.last = done ++ todo → Placing conv c r (done.foldl conv.restrictInstr pinned)
  | coloring {an : Analysis} {done todo : List OperandId} {pinned : Arena} {s : Coloring} :
      c.analyze r.flow = .ok an →
      (an.code.slice r.first r.last).foldlM conv.pinInstr an.code.operands = .ok pinned →
      (an.code.interference an.flow).order = done ++ todo →
      done.foldlM ((an.code.interference an.flow).colorOne conv.registers)
        { operands := (an.code.slice r.first r.last).foldl conv.restrictInstr pinned } = .ok s →
      Placing conv c r s.operands

/-- A parameter is never received in an operand that a place is fixed for. -/
theorem Convention.fixed?_eq_none_of_maySet {conv : Convention} {pos : Nat} {tag : Tag}
    (h : (Opcode.param pos).MaySet tag) : conv.fixed? tag = none := by
  cases tag with
  | arg k => cases h
  | param k => exact h.elim
  | returnValue => cases h
  | callResult => cases h
  | _ => rfl

theorem Routine.Built.analyzed {c : Code} {r : Routine} (hr : r.Built c) {an : Analysis}
    (h : c.analyze r.flow = .ok an) : Analyzed c r an := by
  obtain ⟨an', h', hA⟩ := Code.analyze_eq_ok hr
  cases h.symm.trans h'
  exact hA

section Function

variable {symbols : SymbolTable} {conv : Convention} {c d : Code} {r : Routine} {a : Arena}

theorem Routine.pinned_keeps (hc : c.Sound symbols) (hr : r.Built c) (hlike : c.Like d) {an : Analysis}
    (han : d.analyze r.flow = .ok an) {is : List Instr} (his : ∀ w ∈ is, w ∈ an.code.slice r.first r.last)
    (h : is.foldlM conv.pinInstr an.code.operands = .ok a) :
    conv.Keeps d.operands a ∧ (conv.Heeded d.operands → ∀ w ∈ is, conv.Followed a w) := by
  have hA := (hlike.built hr).analyzed han
  rw [hA.alike.operands] at h
  refine Convention.foldlM_pinInstr_keeps (fun w hw pos y hop hres tag htag => ?_) h
  obtain ⟨i, hf, hl, hw⟩ := (Code.mem_slice _ _ _ _).mp (his w hw)
  obtain ⟨live, hz⟩ := (hlike.trans hA.alike.like).symm.instr hw
  have hdest : Instr.dest? { w with liveOut := live } = some y := by
    rw [Instr.dest?_eq_result (by rw [hop]; nofun)]
    exact hres
  have hset := (hc.fits i _ hz).dest y hdest tag (hlike.operands.tag? y ▸ htag)
  rw [hop] at hset
  exact Convention.fixed?_eq_none_of_maySet hset

theorem Routine.Pinning.keeps (hc : c.Sound symbols) (hr : r.Built c) (hlike : c.Like d) (h : r.Pinning conv d a) :
    conv.Keeps d.operands a := by
  obtain ⟨han, hsplit, hpin⟩ := h
  refine (pinned_keeps hc hr hlike han (fun w hw => ?_) hpin).1
  rw [hsplit]
  exact List.mem_append_left _ hw

theorem Routine.Placing.keeps (hc : c.Sound symbols) (hr : r.Built c) (hlike : c.Like d)
    (hd : conv.Heeded d.operands) (h : r.Placing conv d a) : conv.Keeps d.operands a ∧
      ∀ (i : Nat) (z : Instr), r.first ≤ i → i ≤ r.last → c.instrs[i]? = some z → conv.Followed a z := by
  -- every phase goes on from the pinned arena, in which the instructions of the analysed code are followed
  have key : ∀ {an : Analysis} {pinned : Arena}, d.analyze r.flow = .ok an →
      (an.code.slice r.first r.last).foldlM conv.pinInstr an.code.operands = .ok pinned → conv.Keeps pinned a →
      conv.Keeps d.operands a ∧
        ∀ (i : Nat) (z : Instr), r.first ≤ i → i ≤ r.last → c.instrs[i]? = some z → conv.Followed a z := by
    intro an pinned han hpin ha
    obtain ⟨hkeep, hfollow⟩ := pinned_keeps hc hr hlike han (fun _ h => h) hpin
    refine ⟨hkeep.trans ha, fun i z hf hl hz => ?_⟩
    obtain ⟨live, hw⟩ := (hlike.trans ((hlike.built hr).analyzed han).alike.like).instr hz
    obtain ⟨h1, h2, h3, h4⟩ := ha.followed (hfollow hd _ ((Code.mem_slice _ _ _ _).mpr ⟨i, hf, hl, hw⟩))
    exact ⟨h1, h2, h3, h4⟩
  cases h with
  | restricting han hpin _ => exact key han hpin (Convention.foldl_restrictInstr_keeps _ _)
  | @coloring an done todo pinned s han hpin hsplit hcolor =>
    have hrestrict := conv.foldl_restrictInstr_keeps (an.code.slice r.first r.last) pinned
    refine key han hpin (hrestrict.trans (Convention.foldlM_colorOne_keeps (fun y hy => ?_) hcolor))
    -- what colouring takes is mentioned in the function, so pinning has looked at it
    have hA := (hlike.built hr).analyzed han
    have hmem : y ∈ (an.code.interference an.flow).order := by
      rw [hsplit]
      exact List.mem_append_left _ hy
    obtain ⟨i, z, hf, hl, hz, hocc⟩ := (hA.mem_order_iff hlike (hlike.built hr) y).mp hmem
    obtain ⟨-, j, w, hf, hl, hw, hy⟩ := hocc.mentions hr hf hl hz
    obtain ⟨live, hw⟩ := (hlike.trans hA.alike.like).instr hw
    have hfollow := (pinned_keeps hc hr hlike han (fun _ h => h) hpin).2 hd _
      ((Code.mem_slice _ _ _ _).mpr ⟨j, hf, hl, hw⟩)
    exact hrestrict.fixes ((Convention.followed_iff.mp hfollow).1 y hy)

theorem Routine.placing_of_allocate {al : Allocation} (h : r.allocate conv d = .ok al) :
    r.Placing conv d al.code.operands := by
  obtain ⟨an, han, h⟩ := Except.bind_eq_ok.mp h
  obtain ⟨pinned, hpin, h⟩ := Except.bind_eq_ok.mp h
  obtain ⟨s, hcolor, h⟩ := Except.bind_eq_ok.mp h
  cases h
  exact .coloring han hpin (List.append_nil _).symm hcolor

theorem Routine.allocate_like (hc : c.Sound symbols) (hr : r.Built c) (hlike : c.Like d)
    (hd : conv.Heeded d.operands) {al : Allocation} (h : r.allocate conv d = .ok al) : c.Like al.code := by
  have hr' := hlike.built hr
  have hkeep := ((placing_of_allocate h).keeps hc hr hlike hd).1
  obtain ⟨an, pinned, s, hA, -, -, hcode, -⟩ := allocate_eq_ok hr' h
  refine ⟨hlike.operands.trans hkeep.like, fun i => ?_⟩
  rw [hcode]
  exact (hlike.trans hA.alike.like).instrs i

end Function

/-! ### All functions -/

/-- The arenas on the way while functions are allocated one after the other. -/
inductive Underway (conv : Convention) : List Routine → Code → Arena → Prop
  | pinning {r : Routine} {rs : List Routine} {c : Code} {a : Arena} : r.Pinning conv c a → Underway conv (r :: rs) c a
  | placing {r : Routine} {rs : List Routine} {c : Code} {a : Arena} : r.Placing conv c a → Underway conv (r :: rs) c a
  | next {r : Routine} {rs : List Routine} {c : Code} {al : Allocation} {a : Arena} : r.allocate conv c = .ok al →
      Underway conv rs al.code a → Underway conv (r :: rs) c a

/-- The arenas on the way from when the function `r` has been pinned: while its values are coloured, and while the
functions behind it are allocated. -/
inductive Routine.Since (conv : Convention) (r : Routine) : List Routine → Code → Arena → Prop
  | placing {rs : List Routine} {c : Code} {a : Arena} : r.Placing conv c a → Since conv r (r :: rs) c a
  | behind {rs : List Routine} {c : Code} {al : Allocation} {a : Arena} : r.allocate conv c = .ok al →
      Underway conv rs al.code a → Since conv r (r :: rs) c a
  | next {s : Routine} {rs : List Routine} {c : Code} {al : Allocation} {a : Arena} : s.allocate conv c = .ok al →
      Since conv r rs al.code a → Since conv r (s :: rs) c a

section All

variable {symbols : SymbolTable} {conv : Convention} {c d : Code} {r : Routine} {rs : List Routine} {a : Arena}

theorem Underway.keeps (hc : c.Sound symbols) (hrs : ∀ r ∈ rs, r.Built c) (hlike : c.Like d)
    (hd : conv.Heeded d.operands) (h : Underway conv rs d a) : conv.Keeps d.operands a := by
  induction h with
  | @pinning r => exact Routine.Pinning.keeps hc (hrs r (by simp)) hlike ‹_›
  | @placing r => exact (Routine.Placing.keeps hc (hrs r (by simp)) hlike hd ‹_›).1
  | @next r rs d al a hal _ ih =>
    have hr := hrs r (by simp)
    have hkeep := ((Routine.placing_of_allocate hal).keeps hc hr hlike hd).1
    exact hkeep.trans (ih (fun s hs => hrs s (by simp [hs])) (Routine.allocate_like hc hr hlike hd hal)
      (hkeep.heeded hd))

theorem Routine.Since.followed (hc : c.Sound symbols) (hrs : ∀ s ∈ rs, s.Built c) (hlike : c.Like d)
    (hd : conv.Heeded d.operands) (h : r.Since conv rs d a) {i : Nat} {z : Instr} (hf : r.first ≤ i)
    (hl : i ≤ r.last) (hz : c.instrs[i]? = some z) : conv.Followed a z := by
  induction h with
  | placing hplace => exact (hplace.keeps hc (hrs r (by simp)) hlike hd).2 i z hf hl hz
  | @behind rs d al a hal hunder =>
    have hr := hrs r (by simp)
    obtain ⟨hkeep, hfollow⟩ := (placing_of_allocate hal).keeps hc hr hlike hd
    have hrest := hunder.keeps hc (fun s hs => hrs s (by simp [hs])) (allocate_like hc hr hlike hd hal)
      (hkeep.heeded hd)
    exact hrest.followed (hfollow i z hf hl hz)
  | @next s rs d al a hal _ ih =>
    have hs := hrs s (by simp)
    have hkeep := ((placing_of_allocate hal).keeps hc hs hlike hd).1
    exact ih (fun t ht => hrs t (by simp [ht])) (allocate_like hc hs hlike hd hal) (hkeep.heeded hd)

theorem underway_of_allocateAll (hc : c.Sound symbols) (hrs : ∀ s ∈ rs, s.Built c) (hlike : c.Like d)
    (hd : conv.Heeded d.operands) {e : Code} {als : List Allocation} (h : allocateAll conv rs d = .ok (e, als)) :
    c.Like e ∧ (rs = [] ∧ e = d ∨ Underway conv rs d e.operands) ∧ ∀ r ∈ rs, r.Since conv rs d e.operands := by
  induction rs generalizing d als with
  | nil =>
    obtain ⟨rfl, -⟩ : d = e ∧ [] = als := by simpa [allocateAll] using h
    exact ⟨hlike, Or.inl ⟨rfl, rfl⟩, by simp⟩
  | cons s rs ih =>
    obtain ⟨al, hal, h⟩ := Except.bind_eq_ok.mp h
    obtain ⟨⟨e', als'⟩, hrest, h⟩ := Except.bind_eq_ok.mp h
    cases h
    have hs := hrs s (by simp)
    have hplace := Routine.placing_of_allocate hal
    obtain ⟨hlike', hunder, hsince⟩ := ih (fun t ht => hrs t (by simp [ht]))
      (Routine.allocate_like hc hs hlike hd hal) ((hplace.keeps hc hs hlike hd).1.heeded hd) hrest
    refine ⟨hlike', Or.inr ?_, fun r hr => ?_⟩
    · rcases hunder with ⟨-, rfl⟩ | hunder
      · exact .placing hplace
      · exact .next hal hunder
    · rcases List.mem_cons.mp hr with rfl | hr
      · rcases hunder with ⟨-, rfl⟩ | hunder
        · exact .placing hplace
        · exact .behind hal hunder
      · exact .next hal (hsince r hr)

end All

/-- The arenas that compiling goes through from when the function `r` has been pinned. -/
def Program.SincePinned (conv : Convention) (p : Program) (r : Routine) (a : Arena) : Prop :=
  ∃ l rs, p.lower = .ok l ∧ l.code.routines p.symbols = .ok rs ∧ r.Since conv rs l.code a

/-- Compiled code follows the calling convention. In a program that compiles, whatever the convention, every
instruction belongs to a function such that, from when the function has been pinned until compiling ends, all that
the instruction mentions is where the convention wants it. So it is in the result, and no step of colouring and no
allocation of a later function changes it. -/
theorem compiled_code_follows_convention (conv : Convention) (p : Program) (u : Compiled)
    (hu : p.compile conv = .ok u) : ∀ (i : Nat) (z : Instr), u.code.instrs[i]? = some z →
      conv.Followed u.code.operands z ∧
      ∃ r : Routine, r.first ≤ i ∧ i ≤ r.last ∧ p.SincePinned conv r u.code.operands ∧
        ∀ a, p.SincePinned conv r a → conv.Followed a z := by
  obtain ⟨l, hl, hu⟩ := Except.bind_eq_ok.mp hu
  obtain ⟨rs, hrs, hu⟩ := Except.bind_eq_ok.mp hu
  obtain ⟨⟨code, als⟩, hals, hu⟩ := Except.bind_eq_ok.mp hu
  cases hu
  have hl := mapError_eq_ok hl
  have hrs := mapError_eq_ok hrs
  obtain ⟨b, hb, hcode⟩ := lowerProgram_eq_ok hl
  have hc : l.code.Sound p.symbols := hcode ▸ (lowerDecls_sound hb (.empty p.symbols)).2
  have hbuilt := Code.routines_built hc.numbered hrs
  have hd : conv.Heeded l.code.operands := fun y _ _ _ _ => Or.inl (hc.fresh.location_eq_none y)
  obtain ⟨hlike, -, hsince⟩ := underway_of_allocateAll hc hbuilt (.refl _) hd (mapError_eq_ok hals)
  intro i z hz
  -- the functions leave no position out, so one of them has the instruction
  obtain ⟨live, hz'⟩ := hlike.symm.instr hz
  obtain ⟨range, hmem, hf, hlast⟩ := (Code.routines_spans hrs).cover (Nat.zero_le i)
    (Array.getElem?_eq_some_iff.mp hz').1
  obtain ⟨r, hr, rfl⟩ := List.mem_map.mp hmem
  have hfollow : ∀ a, p.SincePinned conv r a → conv.Followed a z := by
    rintro a ⟨l', rs', hl', hrs', hsince⟩
    obtain rfl : l = l' := Except.ok.inj (hl.symm.trans hl')
    obtain rfl : rs = rs' := Except.ok.inj (hrs.symm.trans hrs')
    obtain ⟨h1, h2, h3, h4⟩ := hsince.followed hc hbuilt (.refl _) hd hf hlast hz'
    exact ⟨h1, h2, h3, h4⟩
  have hend : p.SincePinned conv r code.operands := ⟨l, rs, hl, hrs, hsince r hr⟩
  exact ⟨hfollow _ hend, r, hf, hlast, hend, hfollow⟩

/-- A convention that passes one argument in a register and the others in the frame. -/
def tightConvention : Convention where
  name := "tight"
  registers := [⟨1, "r1"⟩]
  args := [⟨0, "r0"⟩]
  result := ⟨1, "r1"⟩
  callerSaved := [⟨0, "r0"⟩, ⟨1, "r1"⟩]
  divisionClobbers := []

/-- The second parameter is received in the frame and the second argument passed there. -/
theorem swapper_follows_tight_convention : ∃ u, swapper.compile tightConvention = .ok u ∧
    (∃ z, u.code.instrs[2]? = some z ∧ z.op = .param 1 ∧ z.result = some 4 ∧ u.code.operands.isValue 4 = true ∧
      u.code.operands.location 4 = some .frame) ∧
    ∃ z, u.code.instrs[5]? = some z ∧ z.op = .call ∧ z.mentions = [9, 8, 6, 7] ∧
      u.code.operands.tag? 6 = some (.arg 0) ∧ u.code.operands.location 6 = some (.register ⟨0, "r0"⟩) ∧
      u.code.operands.tag? 7 = some (.arg 1) ∧ u.code.operands.location 7 = some .frame ∧
      u.code.operands.tag? 9 = some .callResult ∧ u.code.operands.location 9 = some (.register ⟨1, "r1"⟩) := by
  have hrun : (swapper.compile tightConvention).toOption.any (fun u => decide (
      u.code.instrs[2]?.any (fun z => decide (z.op = .param 1 ∧ z.result = some 4)) = true ∧
      u.code.operands.isValue 4 = true ∧
      u.code.instrs[5]?.any (fun z => decide (z.op = .call ∧ z.mentions = [9, 8, 6, 7])) = true ∧
      u.code.operands.tag? 6 = some (.arg 0) ∧ u.code.operands.tag? 7 = some (.arg 1) ∧
      u.code.operands.tag? 9 = some .callResult)) = true := by
    decide +kernel
  cases hu : swapper.compile tightConvention with
  | error e => rw [hu] at hrun; cases hrun
  | ok u =>
    rw [hu] at hrun
    obtain ⟨hparam, hval, hcall, h6, h7, h9⟩ := of_decide_eq_true hrun
    obtain ⟨x, hx, hparam⟩ := (Option.any_eq_true _ _).mp hparam
    obtain ⟨z, hz, hcall⟩ := (Option.any_eq_true _ _).mp hcall
    obtain ⟨hxop, hxres⟩ := of_decide_eq_true hparam
    obtain ⟨hzop, hzment⟩ := of_decide_eq_true hcall
    obtain ⟨hxfollow, -⟩ := compiled_code_follows_convention _ _ u hu 2 x hx
    obtain ⟨hzfollow, -⟩ := compiled_code_follows_convention _ _ u hu 5 z hz
    have hmem : ∀ y ∈ [9, 8, 6, 7], y ∈ z.mentions := fun y hy => hzment ▸ hy
    refine ⟨u, rfl, ⟨x, hx, hxop, hxres, hval, hxfollow.received 1 4 hxop (by decide) hxres hval⟩,
      z, hz, hzop, hzment, h6, ?_, h7, ?_, h9, ?_⟩
    · exact hzfollow.passed 6 (hmem 6 (by decide)) 0 _ (Or.inl h6) rfl
    · exact hzfollow.stacked 7 (hmem 7 (by decide)) 1 (Or.inl h7) (by decide)
    · exact hzfollow.returned 9 (hmem 9 (by decide)) (Or.inr h9)

end MiddleEnd
