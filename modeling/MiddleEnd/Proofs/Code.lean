import MiddleEnd.Instr

/-! Sets of operands and parts of an instruction table, as later proofs read them: a set through its
members, and a part of the table through the positions it holds. -/

namespace MiddleEnd

namespace LiveSet

variable (s t : LiveSet) (x y : OperandId)

@[simp] theorem mem_insert_iff : y ∈ s.insert x ↔ y = x ∨ y ∈ s := by
  rw [Std.ExtTreeSet.mem_insert, Nat.compare_eq_eq, eq_comm]

@[simp] theorem mem_erase_iff : y ∈ s.erase x ↔ y ≠ x ∧ y ∈ s := by
  rw [Std.ExtTreeSet.mem_erase, ne_eq, Nat.compare_eq_eq, ne_comm]

@[simp] theorem mem_insertMany_iff (l : List OperandId) : y ∈ s.insertMany l ↔ y ∈ s ∨ y ∈ l := by
  rw [Std.ExtTreeSet.mem_insertMany_list, List.contains_iff_mem]

theorem nodup_toList : s.toList.Nodup := by
  refine s.ordered_toList.imp ?_
  intro a b h e
  subst e
  simp at h

end LiveSet

theorem Instr.dest?_eq_result {z : Instr} (h : z.op ≠ .header) : z.dest? = z.result := by
  rw [Instr.dest?]
  split
  case h_1 hop => exact absurd hop h
  case h_2 => rfl

theorem Instr.writes?_eq_some {a : Arena} {z : Instr} {y : OperandId} :
    z.writes? a = some y ↔ z.dest? = some y ∧ a.isValue y = true := by
  rw [writes?, Option.filter_eq_some_iff]

theorem Instr.mem_reads {a : Arena} {z : Instr} {y : OperandId} :
    y ∈ z.reads a ↔ y ∈ z.sources ∧ a.isValue y = true := by
  rw [reads, List.mem_filter]

namespace Code

/-- The instructions are numbered by their positions. -/
def Numbered (c : Code) : Prop := ∀ (i : Nat) (x : Instr), c.instrs[i]? = some x → x.id = i

theorem numbered_iff (c : Code) : c.Numbered ↔ ∀ i < c.instrs.size, c.instrs[i]?.all (·.id = i) = true := by
  constructor
  · intro h i hi
    rw [Array.getElem?_eq_getElem hi]
    simpa using h i _ (Array.getElem?_eq_getElem hi)
  · intro h i x hx
    simpa [hx] using h i (Array.getElem?_eq_some_iff.mp hx).1

instance (c : Code) : Decidable c.Numbered := decidable_of_iff _ c.numbered_iff.symm

/-- The operands that the instructions mention exist. -/
def Closed (c : Code) : Prop :=
  ∀ (i : Nat) (z : Instr), c.instrs[i]? = some z → ∀ x ∈ z.mentions, x < c.operands.size

theorem slice_getElem? (c : Code) (first last k : Nat) :
    (c.slice first last)[k]? = if first + k ≤ last then c.instrs[first + k]? else none := by
  simp only [slice, Array.getElem?_toList, Array.getElem?_extract]
  by_cases hl : first + k ≤ last
  · by_cases hs : first + k < c.instrs.size
    · rw [if_pos hl, if_pos (by omega)]
    · rw [if_pos hl, if_neg (by omega), Array.getElem?_eq_none (by omega)]
  · rw [if_neg hl, if_neg (by omega)]

theorem mem_slice (c : Code) (first last : Nat) (x : Instr) :
    x ∈ c.slice first last ↔ ∃ i, first ≤ i ∧ i ≤ last ∧ c.instrs[i]? = some x := by
  rw [List.mem_iff_getElem?]
  constructor
  · rintro ⟨k, hk⟩
    rw [slice_getElem?] at hk
    split at hk
    · exact ⟨first + k, by omega, by assumption, hk⟩
    · cases hk
  · rintro ⟨i, hf, hl, hi⟩
    refine ⟨i - first, ?_⟩
    rw [slice_getElem?, show first + (i - first) = i by omega, if_pos hl, hi]

theorem length_slice (c : Code) {first last : Nat} (h : last < c.instrs.size) :
    (c.slice first last).length = last + 1 - first := by
  simp only [slice, Array.length_toList, Array.size_extract]
  omega

theorem slice_cons (c : Code) {first last : Nat} {x : Instr} (h : first ≤ last)
    (hx : c.instrs[first]? = some x) : c.slice first last = x :: c.slice (first + 1) last := by
  apply List.ext_getElem?
  intro k
  cases k with
  | zero => simp [slice_getElem?, h, hx]
  | succ k =>
    rw [List.getElem?_cons_succ, slice_getElem?, slice_getElem?, show first + (k + 1) = first + 1 + k by omega]

theorem drop_slice (c : Code) (first last k : Nat) : (c.slice first last).drop k = c.slice (first + k) last := by
  apply List.ext_getElem?
  intro q
  rw [List.getElem?_drop, slice_getElem?, slice_getElem?, Nat.add_assoc]

theorem slice_eq_nil (c : Code) {first last : Nat} (h : last < first) : c.slice first last = [] := by
  apply List.ext_getElem?
  intro k
  rw [slice_getElem?, if_neg (by omega), List.getElem?_nil]

theorem slice_eq_filterMap (c : Code) {first last : Nat} (h : last < c.instrs.size) :
    c.slice first last = (List.range' first (last + 1 - first)).filterMap (c.instrs[·]?) := by
  obtain ⟨n, hn⟩ : ∃ n, last + 1 - first = n := ⟨_, rfl⟩
  rw [hn]
  induction n generalizing first with
  | zero => exact slice_eq_nil c (by omega)
  | succ n ih =>
    obtain ⟨x, hx⟩ : ∃ x, c.instrs[first]? = some x := ⟨_, Array.getElem?_eq_getElem (by omega)⟩
    rw [List.range'_succ, List.filterMap_cons_some hx, slice_cons c (by omega) hx, ih (by omega)]

/-- The instruction at a position places a label. -/
def places (c : Code) (label : OperandId) (pos : Nat) : Bool :=
  c.instrs[pos]?.any fun i => i.op = .label && i.left = some label

/-- The last position of a part of the table that places a label. -/
def labelAt? (c : Code) (first last : Nat) (label : OperandId) : Option Nat :=
  ((List.range' first (last + 1 - first)).filter (c.places label)).getLast?

theorem places_iff (c : Code) (label : OperandId) (pos : Nat) :
    c.places label pos ↔ ∃ x, c.instrs[pos]? = some x ∧ x.op = .label ∧ x.left = some label := by
  simp [places, Option.any_eq_true]

theorem labelAt?_spec {c : Code} {first last pos : Nat} {label : OperandId}
    (h : c.labelAt? first last label = some pos) :
    first ≤ pos ∧ pos ≤ last ∧ ∃ x, c.instrs[pos]? = some x ∧ x.op = .label ∧ x.left = some label := by
  have hm := List.mem_of_getLast? h
  rw [List.mem_filter, List.mem_range'_1, places_iff] at hm
  obtain ⟨⟨hf, hl⟩, hp⟩ := hm
  exact ⟨hf, by omega, hp⟩

theorem exists_labelAt? {c : Code} {first last pos : Nat} {label : OperandId} (hf : first ≤ pos) (hl : pos ≤ last)
    (hp : c.places label pos) : ∃ j, c.labelAt? first last label = some j := by
  have hm : pos ∈ (List.range' first (last + 1 - first)).filter (c.places label) := by
    rw [List.mem_filter, List.mem_range'_1]
    exact ⟨by omega, hp⟩
  exact ⟨_, List.getLast?_eq_some_getLast (List.ne_nil_of_mem hm)⟩

theorem labelAt?_eq_none_iff {c : Code} {first last : Nat} {label : OperandId} :
    c.labelAt? first last label = none ↔ ∀ j, first ≤ j → j ≤ last → ¬ c.places label j := by
  constructor
  · intro h j hf hl hp
    obtain ⟨k, hk⟩ := exists_labelAt? hf hl hp
    rw [h] at hk
    cases hk
  · intro h
    cases hk : c.labelAt? first last label with
    | none => rfl
    | some k =>
      obtain ⟨hf, hl, hp⟩ := labelAt?_spec hk
      exact absurd ((places_iff c label k).mpr hp) (h k hf hl)

/-- Control may go from position `i` to position `j` of the part: to the next position unless the
instruction is a transfer, or to the place of the instruction's target. -/
def Next (c : Code) (first last i j : Nat) : Prop :=
  (first ≤ i ∧ i ≤ last ∧ first ≤ j ∧ j ≤ last) ∧ ∃ x, c.instrs[i]? = some x ∧
    ((j = i + 1 ∧ x.isTransfer = false) ∨ ∃ label, x.target? = some label ∧ c.labelAt? first last label = some j)

end Code

end MiddleEnd
