import MiddleEnd.Proofs.Code
import MiddleEnd.Proofs.Except
import MiddleEnd.FlowGraph.Build

/-! Where branches go and where blocks start, in a table whose instructions are numbered by their
positions. -/

namespace MiddleEnd

namespace FlowGraph

theorem mem_branchTargets {is : List Instr} {bs : List (Nat × OperandId)} (h : branchTargets is = .ok bs)
    (src : Nat) (label : OperandId) :
    (src, label) ∈ bs ↔ ∃ i ∈ is, i.id = src ∧ i.target? = some label := by
  induction is generalizing bs with
  | nil =>
    obtain rfl : [] = bs := by simpa [branchTargets] using h
    simp
  | cons i is ih =>
    rw [branchTargets] at h
    split at h
    case isTrue =>
      split at h
      case h_1 => cases h
      case h_2 l hl =>
        obtain ⟨rest, hr, h⟩ := Except.bind_eq_ok.mp h
        obtain rfl : (i.id, l) :: rest = bs := by simpa [pure, Except.pure] using h
        simp only [List.mem_cons, Prod.mk.injEq, ih hr, exists_eq_or_imp, hl, Option.some.injEq]
        grind
    case isFalse hop =>
      have hn : i.target? = none := by
        unfold Instr.target?
        split <;> simp_all
      simp only [List.mem_cons, ih h, exists_eq_or_imp, hn]
      grind

theorem exists_branchTargets_iff (is : List Instr) : (∃ bs, branchTargets is = .ok bs) ↔
    ∀ i ∈ is, i.op = .jump ∨ i.op = .branch → ∃ label, i.target? = some label := by
  induction is with
  | nil => simp [branchTargets]
  | cons i is ih =>
    rw [branchTargets, List.forall_mem_cons, ← ih]
    split
    case isTrue hop =>
      have hop : i.op = .jump ∨ i.op = .branch := by simpa using hop
      split
      case h_1 hn => simp [hn, hop]
      case h_2 label hl =>
        constructor
        · rintro ⟨bs, h⟩
          obtain ⟨rest, hr, -⟩ := Except.bind_eq_ok.mp h
          exact ⟨fun _ => ⟨label, hl⟩, rest, hr⟩
        · rintro ⟨-, rest, hr⟩
          exact ⟨_, Except.bind_eq_ok.mpr ⟨rest, hr, rfl⟩⟩
    case isFalse hop =>
      have hop : ¬ (i.op = .jump ∨ i.op = .branch) := by simpa using hop
      simp [hop]

theorem mem_resolveTargets {name : String} {labels : Std.ExtTreeMap OperandId Nat}
    {bs : List (Nat × OperandId)} {ts : List (Nat × Nat)} (h : resolveTargets name labels bs = .ok ts)
    (src dst : Nat) : (src, dst) ∈ ts ↔ ∃ label, (src, label) ∈ bs ∧ labels[label]? = some dst := by
  induction bs generalizing ts with
  | nil =>
    obtain rfl : [] = ts := by simpa [resolveTargets] using h
    simp
  | cons b bs ih =>
    obtain ⟨s, l⟩ := b
    rw [resolveTargets] at h
    split at h
    case h_1 => cases h
    case h_2 d hd =>
      obtain ⟨rest, hr, h⟩ := Except.bind_eq_ok.mp h
      obtain rfl : (s, d) :: rest = ts := by simpa [pure, Except.pure] using h
      simp only [List.mem_cons, Prod.mk.injEq, ih hr]
      grind

theorem exists_resolveTargets_iff (name : String) (labels : Std.ExtTreeMap OperandId Nat)
    (bs : List (Nat × OperandId)) : (∃ ts, resolveTargets name labels bs = .ok ts) ↔
      ∀ b ∈ bs, ∃ dst, labels[b.2]? = some dst := by
  induction bs with
  | nil => simp [resolveTargets]
  | cons b bs ih =>
    obtain ⟨src, label⟩ := b
    rw [resolveTargets, List.forall_mem_cons, ← ih]
    split
    case h_1 hn => simp [hn]
    case h_2 dst hd =>
      constructor
      · rintro ⟨ts, h⟩
        obtain ⟨rest, hr, -⟩ := Except.bind_eq_ok.mp h
        exact ⟨⟨dst, hd⟩, rest, hr⟩
      · rintro ⟨-, rest, hr⟩
        exact ⟨_, Except.bind_eq_ok.mpr ⟨rest, hr, rfl⟩⟩

theorem foldl_placedLabels {c : Code} (hc : c.Numbered) (label : OperandId) (ps : List Nat)
    (m : Std.ExtTreeMap OperandId Nat) :
    ((ps.filterMap (c.instrs[·]?)).foldl (fun labels i =>
      match i.op, i.left with
      | .label, some label => labels.insert label i.id
      | _, _ => labels) m)[label]? = (ps.filter (c.places label)).getLast?.or m[label]? := by
  induction ps generalizing m with
  | nil => simp
  | cons p ps ih =>
    cases hp : c.instrs[p]? with
    | none =>
      have hn : c.places label p = false := by simp [Code.places, hp]
      rw [List.filterMap_cons_none hp, List.filter_cons_of_neg (by simp [hn]), ih]
    | some x =>
      rw [List.filterMap_cons_some hp, List.foldl_cons, ih]
      have hid := hc p x hp
      by_cases hq : c.places label p
      · obtain ⟨y, hy, hop, hleft⟩ := (Code.places_iff c label p).mp hq
        obtain rfl : y = x := by simpa [hp] using hy.symm
        rw [List.filter_cons_of_pos hq, List.getLast?_cons, hop, hleft]
        cases (ps.filter (c.places label)).getLast? <;> simp [hid]
      · rw [List.filter_cons_of_neg hq]
        congr 1
        split
        case h_1 l hop hleft =>
          have hne : l ≠ label := by
            rintro rfl
            exact hq ((Code.places_iff c l p).mpr ⟨x, hp, hop, hleft⟩)
          rw [Std.ExtTreeMap.getElem?_insert, if_neg (by simpa [Nat.compare_eq_eq] using hne)]
        case h_2 => rfl

/-- Reading a label's place off the map is reading its last place off the table. -/
theorem placedLabels_eq {c : Code} (hc : c.Numbered) {first last : Nat} (hl : last < c.instrs.size)
    (label : OperandId) : (placedLabels (c.slice first last))[label]? = c.labelAt? first last label := by
  rw [Code.slice_eq_filterMap c hl]
  exact (foldl_placedLabels hc label _ ∅).trans (by simp [Code.labelAt?])

end FlowGraph

end MiddleEnd
