import MiddleEnd.Proofs.Allocation.Footprint
import Mathlib.Data.List.Sort

/-! Colouring is first fit. Every operand has one turn, the first time it comes up; from then on its place is
final. So what a neighbour holds when the turn comes can be read off the final arena, and that makes the result
the only one that fits. -/

namespace MiddleEnd

theorem firstFree?_eq_some_iff {held restricted registers : List Register} {r : Register} :
    firstFree? held restricted registers = some r ↔ (r ∉ held ∧ r ∉ restricted) ∧
      ∃ before after, registers = before ++ r :: after ∧ ∀ q ∈ before, ¬ (q ∉ held ∧ q ∉ restricted) := by
  rw [firstFree?_eq_find?, List.find?_eq_some_iff_append]
  simp [Classical.or_iff_not_imp_left]

theorem firstFree?_eq_none_iff {held restricted registers : List Register} :
    firstFree? held restricted registers = none ↔ ∀ r ∈ registers, ¬ (r ∉ held ∧ r ∉ restricted) := by
  rw [firstFree?_eq_find?, List.find?_eq_none]
  simp

namespace Interference

/-! ### What fits -/

/-- When the turn of `x` comes, `r` is held by a neighbour that has its place by then. -/
def Taken (g : Interference) (a b : Arena) (x : OperandId) (r : Register) : Prop :=
  ∃ y, g.interferes x y = true ∧ (a.isResolved y = true ∨ g.order.idxOf y < g.order.idxOf x) ∧ b.register? y = some r

/-- When the turn of `x` comes, it may take `r`. -/
def Open (g : Interference) (a b : Arena) (x : OperandId) (r : Register) : Prop :=
  ¬ g.Taken a b x r ∧ r ∉ a.restricted x

/-- `b` is `a` after the operands of the order have taken their places in turn, and those in `spilled` went to
the frame. -/
structure FirstFit (g : Interference) (registers : List Register) (a b : Arena) (spilled : List OperandId) : Prop where
  interned : b.interned = a.interned
  -- nothing of an operand changes but its place
  shape : ∀ y o, a.get? y = some o → ∃ place, b.get? y = some { o with location := place }
  untouched : ∀ y, a.isResolved y = true ∨ y ∉ g.order → b.get? y = a.get? y
  resolved : ∀ x ∈ g.order, b.isResolved x = true
  register : ∀ x, a.isResolved x = false → ∀ r, b.register? x = some r →
    g.Open a b x r ∧ ∃ before after, registers = before ++ r :: after ∧ ∀ q ∈ before, ¬ g.Open a b x q
  frame : ∀ x ∈ g.order, a.isResolved x = false →
    (b.location x = some .frame ↔ ∀ r ∈ registers, ¬ g.Open a b x r)
  mem_spilled : ∀ x, x ∈ spilled ↔ a.isResolved x = false ∧ b.location x = some .frame
  in_turn : spilled.Pairwise fun x y => g.order.idxOf x < g.order.idxOf y

/-! ### Turns -/

variable {g : Interference} {registers : List Register}

theorem get?_turn_of_resolved {s : Coloring} {y : OperandId} (hy : s.operands.isResolved y = true) (x : OperandId) :
    (g.turn registers s x).operands.get? y = s.operands.get? y := by
  unfold turn
  split
  case isTrue => rfl
  case isFalse hx =>
    have hne : x ≠ y := by
      rintro rfl
      exact hx hy
    rw [Arena.get?_modify, if_neg hne]

theorem get?_turns_of_resolved {s : Coloring} {y : OperandId} (hy : s.operands.isResolved y = true)
    (l : List OperandId) : (l.foldl (g.turn registers) s).operands.get? y = s.operands.get? y := by
  induction l generalizing s with
  | nil => rfl
  | cons x l ih =>
    have hturn : (g.turn registers s x).operands.get? y = s.operands.get? y := get?_turn_of_resolved hy x
    rw [List.foldl_cons, ih, hturn]
    rw [Arena.isResolved, hturn]
    exact hy

theorem get?_turns_of_not_mem {s : Coloring} {y : OperandId} {l : List OperandId} (hy : y ∉ l) :
    (l.foldl (g.turn registers) s).operands.get? y = s.operands.get? y :=
  (amends_turns (P := (· ∈ l)) fun _ hx => hx).outside y hy

theorem isResolved_turns {s : Coloring} {y : OperandId} {l : List OperandId} (hy : y ∈ l)
    (hsize : y < s.operands.size) : (l.foldl (g.turn registers) s).operands.isResolved y = true := by
  obtain ⟨o, ho⟩ := Arena.exists_of_lt_size hsize
  exact (foldlM_colorOne_resolved (foldlM_colorOne g registers l s)).2 y hy (by rw [ho]; rfl)

theorem shape_turns (l : List OperandId) (s : Coloring) {y : OperandId} {o : Operand}
    (ho : s.operands.get? y = some o) :
    ∃ place, (l.foldl (g.turn registers) s).operands.get? y = some { o with location := place } := by
  induction l generalizing s o with
  | nil => exact ⟨o.location, ho⟩
  | cons x l ih =>
    have hstep : ∃ place, (g.turn registers s x).operands.get? y = some { o with location := place } := by
      unfold turn
      split
      case isTrue => exact ⟨o.location, ho⟩
      case isFalse =>
        rw [Arena.get?_modify, ho]
        split
        case isTrue => exact ⟨_, rfl⟩
        case isFalse => exact ⟨o.location, rfl⟩
    obtain ⟨place, hplace⟩ := hstep
    obtain ⟨final, hfinal⟩ := ih _ hplace
    exact ⟨final, hfinal⟩

/-! ### The turn of an operand -/

section Turn

variable {a : Arena} {p q : List OperandId} {x : OperandId}

theorem idxOf_lt_iff (hx : x ∉ p) (y : OperandId) :
    (p ++ x :: q).idxOf y < (p ++ x :: q).idxOf x ↔ y ∈ p := by
  rw [List.idxOf_append_of_notMem hx, List.idxOf_cons_self, Nat.add_zero]
  by_cases hy : y ∈ p
  · rw [List.idxOf_append_of_mem hy]
    exact iff_of_true (List.idxOf_lt_length_of_mem hy) hy
  · rw [List.idxOf_append_of_notMem hy]
    exact iff_of_false (by omega) hy

theorem register?_before (hids : ∀ y ∈ g.order, y < a.size) (horder : g.order = p ++ x :: q) (hx : x ∉ p)
    (y : OperandId) (r : Register) :
    (p.foldl (g.turn registers) { operands := a }).operands.register? y = some r ↔
      (a.isResolved y = true ∨ g.order.idxOf y < g.order.idxOf x) ∧
        (g.order.foldl (g.turn registers) { operands := a }).operands.register? y = some r := by
  set s := p.foldl (g.turn registers) { operands := a } with hs
  have hfinal : s.operands.isResolved y = true →
      (g.order.foldl (g.turn registers) { operands := a }).operands.register? y = s.operands.register? y := by
    intro hy
    rw [horder, List.foldl_append, ← hs, Arena.register?, get?_turns_of_resolved hy, Arena.register?]
  rw [horder, idxOf_lt_iff hx, ← horder]
  constructor
  · intro hr
    have hy : s.operands.isResolved y = true := by
      rw [Arena.isResolved_eq, Arena.register?_eq_some_iff.mp hr]
      rfl
    refine ⟨?_, (hfinal hy).trans hr⟩
    by_contra! hlate
    rw [Arena.isResolved, hs, get?_turns_of_not_mem hlate.2] at hy
    exact hlate.1 hy
  · rintro ⟨hy, hr⟩
    rw [← hfinal, hr]
    rcases hy with hy | hy
    · rw [Arena.isResolved, hs, get?_turns_of_resolved hy]
      exact hy
    · exact isResolved_turns hy (hids y (by simp [horder, hy]))

/-- What is open when the turn of `x` comes is what the final arena says. -/
theorem open_iff (hids : ∀ y ∈ g.order, y < a.size) (horder : g.order = p ++ x :: q) (hx : x ∉ p) (r : Register) :
    g.Open a (g.order.foldl (g.turn registers) { operands := a }).operands x r ↔
      r ∉ (p.foldl (g.turn registers) { operands := a }).operands.held (g.neighbors x).toList ∧
        r ∉ (p.foldl (g.turn registers) { operands := a }).operands.restricted x := by
  have hrestricted : (p.foldl (g.turn registers) { operands := a }).operands.restricted x = a.restricted x := by
    rw [Arena.restricted, get?_turns_of_not_mem hx, Arena.restricted]
  rw [Open, hrestricted]
  refine and_congr_left' (not_congr ?_)
  simp only [Taken, Arena.held, List.mem_filterMap, Std.ExtTreeSet.mem_toList, interferes,
    Std.ExtTreeSet.contains_iff_mem, register?_before hids horder hx]

theorem location_turns (hids : ∀ y ∈ g.order, y < a.size) (horder : g.order = p ++ x :: q) (hx : x ∉ p)
    (hfree : a.isResolved x = false) :
    (g.order.foldl (g.turn registers) { operands := a }).operands.location x =
      some (g.choice registers (p.foldl (g.turn registers) { operands := a }).operands x) := by
  set s := p.foldl (g.turn registers) { operands := a } with hs
  obtain ⟨o, ho⟩ := Arena.exists_of_lt_size (hids x (by simp [horder]))
  have hget : s.operands.get? x = some o := by rw [hs, get?_turns_of_not_mem hx, ho]
  have hnone : s.operands.isResolved x = false := by
    rw [Arena.isResolved, hget, ← ho]
    exact hfree
  have hturn : (g.turn registers s x).operands.location x = some (g.choice registers s.operands x) := by
    rw [turn, if_neg (by rw [hnone]; exact Bool.false_ne_true), Arena.location, Arena.get?_modify, if_pos rfl, hget]
    rfl
  have hres : (g.turn registers s x).operands.isResolved x = true := by
    rw [Arena.isResolved_eq, hturn]
    rfl
  rw [← hturn, Arena.location, Arena.location, horder, List.foldl_append, ← hs, List.foldl_cons,
    get?_turns_of_resolved hres]

end Turn

/-! ### The choices -/

theorem mem_of_location {a : Arena} {p : List OperandId} {y : OperandId} {place : Location}
    (hfree : a.isResolved y = false)
    (hy : (p.foldl (g.turn registers) { operands := a }).operands.location y = some place) : y ∈ p := by
  by_contra hlate
  rw [Arena.location, get?_turns_of_not_mem hlate] at hy
  rw [Arena.isResolved_eq, Arena.location, hy] at hfree
  cases hfree

theorem not_mem_of_unresolved {a : Arena} {p : List OperandId} {x : OperandId} (hx : x < a.size)
    (hfree : (p.foldl (g.turn registers) { operands := a }).operands.isResolved x ≠ true) : x ∉ p :=
  fun hmem => hfree (isResolved_turns hmem hx)

theorem mem_choices_turns {a : Arena} {p : List OperandId} (hids : ∀ y ∈ p, y < a.size) (y : OperandId)
    (place : Location) : (y, place) ∈ (p.foldl (g.turn registers) { operands := a }).choices ↔
      a.isResolved y = false ∧ (p.foldl (g.turn registers) { operands := a }).operands.location y = some place := by
  induction p using List.reverseRecOn with
  | nil =>
    rw [Arena.isResolved_eq, Option.isSome_eq_false_iff, Option.isNone_iff_eq_none]
    exact iff_of_false List.not_mem_nil fun h => by simp [h.1] at h
  | append_singleton p x ih =>
    have hmem := ih fun y hy => hids y (by simp [hy])
    rw [List.foldl_append, List.foldl_cons, List.foldl_nil]
    set s := p.foldl (g.turn registers) { operands := a } with hs
    unfold turn
    split
    case isTrue => exact hmem
    case isFalse hfree =>
      -- `x` has its first turn, so its place is still that of the start
      have hlate := not_mem_of_unresolved (hids x (by simp)) hfree
      obtain ⟨o, ho⟩ := Arena.exists_of_lt_size (hids x (by simp))
      have hget : s.operands.get? x = some o := by rw [hs, get?_turns_of_not_mem hlate, ho]
      have hnone : s.operands.location x = none := by
        rwa [Arena.isResolved_eq, Option.not_isSome_iff_eq_none] at hfree
      have hunplaced : a.isResolved x = false := by
        rw [Arena.isResolved_eq, Arena.location, ho, ← hget, ← Arena.location, hnone]
        rfl
      have hloc : s.operands.Locates x (g.choice registers s.operands x)
          (s.operands.modify x fun o => { o with location := some (g.choice registers s.operands x) }) :=
        s.operands.get?_modify x _
      rw [List.mem_append, List.mem_singleton, hmem, Prod.mk.injEq]
      by_cases hxy : x = y
      · subst hxy
        rw [hloc.location_self hget, hnone]
        simp [hunplaced, eq_comm]
      · rw [hloc.location_of_ne hxy]
        simp [Ne.symm hxy]

theorem pairwise_choices_turns {a : Arena} {p : List OperandId} (hids : ∀ y ∈ p, y < a.size) :
    (p.foldl (g.turn registers) { operands := a }).choices.Pairwise fun c d => p.idxOf c.1 < p.idxOf d.1 := by
  induction p using List.reverseRecOn with
  | nil => exact List.Pairwise.nil
  | append_singleton p x ih =>
    have hids' : ∀ y ∈ p, y < a.size := fun y hy => hids y (by simp [hy])
    have hturns : ∀ c ∈ (p.foldl (g.turn registers) { operands := a }).choices, c.1 ∈ p := by
      intro c hc
      obtain ⟨hfree, hloc⟩ := (mem_choices_turns hids' c.1 c.2).mp hc
      exact mem_of_location hfree hloc
    have hsorted : (p.foldl (g.turn registers) { operands := a }).choices.Pairwise fun c d =>
        (p ++ [x]).idxOf c.1 < (p ++ [x]).idxOf d.1 := by
      refine (ih hids').imp_of_mem fun hc hd hlt => ?_
      rwa [List.idxOf_append_of_mem (hturns _ hc), List.idxOf_append_of_mem (hturns _ hd)]
    rw [List.foldl_append, List.foldl_cons, List.foldl_nil]
    rw [turn]
    split
    case isTrue => exact hsorted
    case isFalse hfree =>
      refine List.pairwise_append.mpr ⟨hsorted, List.pairwise_singleton _ _, fun c hc d hd => ?_⟩
      obtain rfl := List.mem_singleton.mp hd
      exact (idxOf_lt_iff (not_mem_of_unresolved (hids x (by simp)) hfree) _).mpr (hturns c hc)

theorem mem_spilled_iff (s : Coloring) (x : OperandId) : x ∈ s.spilled ↔ (x, .frame) ∈ s.choices := by
  simp only [Coloring.spilled, List.mem_map, List.mem_filter]
  constructor
  · rintro ⟨⟨y, place⟩, ⟨hmem, hframe⟩, rfl⟩
    cases place with
    | register => cases hframe
    | frame => exact hmem
  · intro hmem
    exact ⟨_, ⟨hmem, rfl⟩, rfl⟩

/-! ### The result -/

section Result

variable {a b d : Arena} {l m : List OperandId}

theorem choice_eq_register {x : OperandId} {r : Register} :
    g.choice registers a x = .register r ↔ g.free? a registers x = some r := by
  unfold choice
  cases g.free? a registers x with
  | none => simp
  | some q => simp

theorem choice_eq_frame {x : OperandId} : g.choice registers a x = .frame ↔ g.free? a registers x = none := by
  unfold choice
  cases g.free? a registers x with
  | none => simp
  | some q => simp

theorem firstFit_turns (hids : ∀ y ∈ g.order, y < a.size) :
    g.FirstFit registers a (g.order.foldl (g.turn registers) { operands := a }).operands
      (g.order.foldl (g.turn registers) { operands := a }).spilled where
  interned := (amends_turns (P := fun _ => True) fun _ _ => trivial).interned
  shape y o ho := shape_turns g.order _ ho
  untouched y hy := hy.elim (fun hres => get?_turns_of_resolved hres _) get?_turns_of_not_mem
  resolved x hx := isResolved_turns hx (hids x hx)
  register x hfree r hr := by
    rw [Arena.register?_eq_some_iff] at hr
    obtain ⟨p, q, horder, hx⟩ := List.eq_append_cons_of_mem (mem_of_location hfree hr)
    rw [location_turns hids horder hx hfree, Option.some.injEq, choice_eq_register, free?,
      firstFree?_eq_some_iff] at hr
    simpa only [open_iff hids horder hx] using hr
  frame x hx hfree := by
    obtain ⟨p, q, horder, hx⟩ := List.eq_append_cons_of_mem hx
    rw [location_turns hids horder hx hfree, Option.some.injEq, choice_eq_frame, free?, firstFree?_eq_none_iff]
    simp only [open_iff hids horder hx]
  mem_spilled x := (mem_spilled_iff _ x).trans (mem_choices_turns hids x .frame)
  in_turn := ((pairwise_choices_turns hids).filter _).map _ fun _ _ h => h

theorem FirstFit.mem_order (h : g.FirstFit registers a b l) {x : OperandId} (hfree : a.isResolved x = false)
    (hx : b.isResolved x = true) : x ∈ g.order := by
  by_contra hout
  rw [Arena.isResolved, h.untouched x (Or.inr hout), ← Arena.isResolved, hfree] at hx
  cases hx

theorem FirstFit.apart (hg : g.Proper) (h : g.FirstFit registers a b l) {x y : OperandId} {r : Register}
    (hfree : a.isResolved x = false) (hr : b.register? x = some r) (hxy : g.interferes x y = true) :
    b.register? y ≠ some r := by
  intro hy
  have hx : x ∈ g.order := by
    refine h.mem_order hfree ?_
    rw [Arena.isResolved_eq, Arena.register?_eq_some_iff.mp hr]
    rfl
  by_cases hearly : a.isResolved y = true ∨ g.order.idxOf y < g.order.idxOf x
  · exact (h.register x hfree r hr).1.1 ⟨y, hxy, hearly, hy⟩
  · obtain ⟨hyfree, hle⟩ := not_or.mp hearly
    have hne : g.order.idxOf x ≠ g.order.idxOf y := by
      intro heq
      rw [List.idxOf_inj hx] at heq
      exact hg.irrefl x (heq ▸ hxy)
    exact (h.register y (by simpa using hyfree) r hy).1.1 ⟨x, hg.symm x y hxy, Or.inr (by omega), hr⟩

/-- An operand goes to the frame only if restrictions and neighbours use up the registers. -/
theorem FirstFit.card_le (h : g.FirstFit registers a b l) {x : OperandId} (hfree : a.isResolved x = false)
    (hframe : b.location x = some .frame) :
    registers.toFinset.card ≤ (a.restricted x).toFinset.card + (g.neighbors x).size := by
  have hx : x ∈ g.order := h.mem_order hfree (by rw [Arena.isResolved_eq, hframe]; rfl)
  have hsub : registers.toFinset ⊆ (a.restricted x).toFinset ∪ (b.held (g.neighbors x).toList).toFinset := by
    intro r hr
    have hclosed := (h.frame x hx hfree).mp hframe r (List.mem_toFinset.mp hr)
    rw [Finset.mem_union, List.mem_toFinset, List.mem_toFinset]
    by_contra! hopen
    refine hclosed ⟨fun ⟨y, hxy, _, hy⟩ => hopen.2 (mem_held ?_ hy), hopen.1⟩
    exact Std.ExtTreeSet.mem_toList.mpr (Std.ExtTreeSet.contains_iff_mem.mp hxy)
  calc registers.toFinset.card
      ≤ _ := Finset.card_le_card hsub
    _ ≤ (a.restricted x).toFinset.card + (b.held (g.neighbors x).toList).toFinset.card := Finset.card_union_le _ _
    _ ≤ (a.restricted x).toFinset.card + (g.neighbors x).size := by
      have hheld := List.toFinset_card_le (b.held (g.neighbors x).toList)
      have hlength := List.length_filterMap_le b.register? (g.neighbors x).toList
      rw [Std.ExtTreeSet.length_toList] at hlength
      exact Nat.add_le_add_left (hheld.trans hlength) _

/-! ### No other result fits -/

theorem eq_of_first {P : Register → Prop} {u v u' v' : List Register} {r q : Register}
    (hlist : u ++ r :: v = u' ++ q :: v') (hr : P r) (hq : P q) (hu : ∀ z ∈ u, ¬ P z) (hu' : ∀ z ∈ u', ¬ P z) :
    r = q := by
  induction u generalizing u' with
  | nil =>
    cases u' with
    | nil => exact (List.cons.inj hlist).1
    | cons z u' =>
      have hz : r = z := (List.cons.inj hlist).1
      exact absurd (hz ▸ hr) (hu' z (by simp))
  | cons z u ih =>
    cases u' with
    | nil =>
      have hz : z = q := (List.cons.inj hlist).1
      exact absurd (hz ▸ hq) (hu z (by simp))
    | cons z' u' =>
      exact ih (List.cons.inj hlist).2 (fun w hw => hu w (by simp [hw])) fun w hw => hu' w (by simp [hw])

theorem FirstFit.open_congr (hb : g.FirstFit registers a b l) (hd : g.FirstFit registers a d m) {x : OperandId}
    (hloc : ∀ y, g.order.idxOf y < g.order.idxOf x → b.location y = d.location y) (r : Register) :
    g.Open a b x r ↔ g.Open a d x r := by
  refine and_congr_left' (not_congr (exists_congr fun y => and_congr_right fun _ => and_congr_right fun hy => ?_))
  rcases hy with hy | hy
  · rw [Arena.register?, Arena.register?, hb.untouched y (Or.inl hy), hd.untouched y (Or.inl hy)]
  · rw [Arena.register?_eq, Arena.register?_eq, hloc y hy]

theorem FirstFit.location_eq (hb : g.FirstFit registers a b l) (hd : g.FirstFit registers a d m) (x : OperandId) :
    b.location x = d.location x := by
  -- the places are determined turn by turn
  induction hn : g.order.idxOf x using Nat.strong_induction_on generalizing x with
  | _ n ih =>
    by_cases hx : a.isResolved x = true ∨ x ∉ g.order
    · rw [Arena.location, Arena.location, hb.untouched x hx, hd.untouched x hx]
    · obtain ⟨hfree, hx⟩ : a.isResolved x = false ∧ x ∈ g.order := by simpa using hx
      have hopen := hb.open_congr hd fun y hy => ih _ (hn ▸ hy) y rfl
      obtain ⟨place, hplace⟩ := Option.isSome_iff_exists.mp (b.isResolved_eq x ▸ hb.resolved x hx)
      obtain ⟨place', hplace'⟩ := Option.isSome_iff_exists.mp (d.isResolved_eq x ▸ hd.resolved x hx)
      -- a register is chosen where one is open, and the frame where none is
      have hframe : place = .frame ↔ place' = .frame := by
        have hiff := (hb.frame x hx hfree).trans (forall₂_congr fun r _ => not_congr (hopen r))
        rw [← hd.frame x hx hfree, hplace, hplace'] at hiff
        simpa using hiff
      rw [hplace, hplace']
      cases place with
      | frame => rw [hframe.mp rfl]
      | register r =>
        cases place' with
        | frame => cases hframe.mpr rfl
        | register q =>
          obtain ⟨hr, u, v, hregs, hu⟩ := hb.register x hfree r (Arena.register?_eq_some_iff.mpr hplace)
          obtain ⟨hq, u', v', hregs', hu'⟩ := hd.register x hfree q (Arena.register?_eq_some_iff.mpr hplace')
          rw [eq_of_first (hregs.symm.trans hregs') hr ((hopen q).mpr hq) hu fun z hz => by
            rw [hopen]
            exact hu' z hz]

theorem FirstFit.unique (hids : ∀ y ∈ g.order, y < a.size) (hb : g.FirstFit registers a b l)
    (hd : g.FirstFit registers a d m) : b = d ∧ l = m := by
  constructor
  · refine Arena.ext_get? (hb.interned.trans hd.interned.symm) fun y => ?_
    cases hy : a.get? y with
    | none =>
      have hout : y ∉ g.order := by
        intro hmem
        obtain ⟨o, ho⟩ := Arena.exists_of_lt_size (hids y hmem)
        rw [hy] at ho
        cases ho
      rw [hb.untouched y (Or.inr hout), hd.untouched y (Or.inr hout)]
    | some o =>
      obtain ⟨place, hplace⟩ := hb.shape y o hy
      obtain ⟨place', hplace'⟩ := hd.shape y o hy
      have hloc := hb.location_eq hd y
      rw [Arena.location, Arena.location, hplace, hplace'] at hloc
      rw [hplace, hplace', show place = place' from hloc]
  · refine List.Perm.eq_of_pairwise (fun x y _ _ hxy hyx => absurd hyx (by omega)) hb.in_turn hd.in_turn ?_
    refine (List.perm_ext_iff_of_nodup ?_ ?_).mpr fun x => ?_
    · exact hb.in_turn.imp fun hlt heq => absurd (heq ▸ hlt) (Nat.lt_irrefl _)
    · exact hd.in_turn.imp fun hlt heq => absurd (heq ▸ hlt) (Nat.lt_irrefl _)
    · rw [hb.mem_spilled, hd.mem_spilled, hb.location_eq hd]

end Result

end Interference

/-- Colouring gives the first fit, and no other arena or list of spilled operands fits. In it no neighbour holds a
register that was given, and no operand goes to the frame while there are registers for all its neighbours. -/
theorem colouring_is_first_fit :
    (∀ (c : Code) (f : FlowGraph), (c.interference f).Proper) ∧
      ∀ (g : Interference) (registers : List Register) (a : Arena), g.Proper → (∀ x ∈ g.order, x < a.size) →
        ∃ s, g.color registers a = .ok s ∧
          (∀ b l, g.FirstFit registers a b l ↔ b = s.operands ∧ l = s.spilled) ∧
          (∀ x r, a.isResolved x = false → s.operands.register? x = some r →
            ∀ y, g.interferes x y = true → s.operands.register? y ≠ some r) ∧
          ∀ x, a.isResolved x = false →
            (a.restricted x).toFinset.card + (g.neighbors x).size < registers.toFinset.card →
            s.operands.location x ≠ some .frame := by
  refine ⟨Code.proper_interference, fun g registers a hg hids => ⟨_, g.color_eq registers a, ?_, ?_, ?_⟩⟩
  · intro b l
    constructor
    · intro hfit
      exact hfit.unique hids (Interference.firstFit_turns hids)
    · rintro ⟨rfl, rfl⟩
      exact Interference.firstFit_turns hids
  · intro x r hfree hr y hxy
    exact (Interference.firstFit_turns hids).apart hg hfree hr hxy
  · intro x hfree hroom hframe
    exact absurd ((Interference.firstFit_turns hids).card_le hfree hframe) (by omega)

/-- The first value has its register, the second may not have that one, and the last is not coloured. -/
def crowd : Arena :=
  let value : Operand := { kind := .temp ⟨0⟩ .copy, isValue := true }
  { operands := #[{ value with location := some (.register ⟨0, "r0"⟩) }, { value with restricted := [⟨0, "r0"⟩] },
      value, value, value] }

def row : Interference where
  adjacency := (((∅ : Adjacency).link 0 2).link 2 1).link 1 3
  nodes := [1, 2, 1, 3]

/-- The second value is turned away from the first register, the third finds none, and the fourth need not care. -/
theorem row_is_first_fit : row.Proper ∧ (∀ x ∈ row.order, x < crowd.size) ∧
    ∃ s, row.color [⟨0, "r0"⟩, ⟨1, "r1"⟩] crowd = .ok s ∧
      row.FirstFit [⟨0, "r0"⟩, ⟨1, "r1"⟩] crowd s.operands s.spilled ∧ s.spilled = [2] ∧
      s.operands.register? 1 = some ⟨1, "r1"⟩ ∧ s.operands.register? 3 = some ⟨0, "r0"⟩ := by
  have hmem : ∀ x y : Nat, row.interferes x y = true ↔
      (x = 0 ∧ y = 2 ∨ x = 2 ∧ y = 0) ∨ (x = 2 ∧ y = 1 ∨ x = 1 ∧ y = 2) ∨ (x = 1 ∧ y = 3 ∨ x = 3 ∧ y = 1) := by
    intro x y
    rw [Interference.interferes, Std.ExtTreeSet.contains_iff_mem, Interference.neighbors, row]
    simp only [Adjacency.mem_link, or_assoc]
    simp [Adjacency.neighbors]
  have hproper : row.Proper := by
    refine ⟨fun x y hxy => ?_, fun x hx => ?_⟩
    · rw [hmem] at hxy ⊢
      omega
    · rw [hmem] at hx
      omega
  have hids : ∀ x ∈ row.order, x < crowd.size := by decide +kernel
  obtain ⟨s, hs, hfit, -⟩ := colouring_is_first_fit.2 row [⟨0, "r0"⟩, ⟨1, "r1"⟩] crowd hproper hids
  have heval : (row.color [⟨0, "r0"⟩, ⟨1, "r1"⟩] crowd).toOption.any (fun s => s.spilled = [2] ∧
      s.operands.register? 1 = some ⟨1, "r1"⟩ ∧ s.operands.register? 3 = some ⟨0, "r0"⟩) = true := by decide +kernel
  rw [hs] at heval
  exact ⟨hproper, hids, s, hs, (hfit _ _).mpr ⟨rfl, rfl⟩, by simpa [Except.toOption] using heval⟩

end MiddleEnd
