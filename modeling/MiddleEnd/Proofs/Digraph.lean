import MiddleEnd.Digraph
import Mathlib.Tactic.ByContra

/-! What the operations on directed graphs do to the values of the nodes and to the edges. A value
is read through `get?` and the edges through `succ`; no later proof looks at the nodes themselves. -/

namespace MiddleEnd.Digraph

variable {α : Type}

theorem get?_isSome_iff (g : Digraph α) (i : Nat) : (g.get? i).isSome ↔ i < g.size := by
  simp [get?, node?, size]

theorem lt_size_of_get? {g : Digraph α} {i : Nat} {v : α} (h : g.get? i = some v) : i < g.size :=
  (get?_isSome_iff g i).mp (by rw [h]; rfl)

theorem vals_getElem? (g : Digraph α) (i : Nat) : g.vals[i]? = g.get? i := by
  simp [vals, get?, node?]

theorem length_vals (g : Digraph α) : g.vals.length = g.size := by simp [vals, size]

theorem lt_size_of_mem_succ {g : Digraph α} {i j : Nat} (h : j ∈ g.succ i) : i < g.size := by
  by_contra hi
  have hn : g.nodes[i]? = none := Array.getElem?_eq_none (Nat.le_of_not_lt hi)
  simp [succ, node?, hn] at h

theorem mem_ids (g : Digraph α) (i : Nat) : i ∈ g.ids ↔ i < g.size := by simp [ids]

section Modify

variable (g : Digraph α) (i : Nat) (f : α → α)

@[simp] theorem size_modify : (g.modify i f).size = g.size := by simp [modify, size]

theorem get?_modify (j : Nat) :
    (g.modify i f).get? j = if i = j then (g.get? j).map f else g.get? j := by
  by_cases h : i = j <;> simp [get?, node?, modify, Array.getElem?_modify, h, Function.comp_def]

theorem modify_congr {g : Digraph α} {i : Nat} {f h : α → α} (hfh : ∀ v, g.get? i = some v → f v = h v) :
    g.modify i f = g.modify i h := by
  refine congrArg Digraph.mk (Array.ext_getElem? fun j => ?_)
  rw [Array.getElem?_modify, Array.getElem?_modify]
  split
  case isTrue hij =>
    cases hn : g.nodes[j]? with
    | none => rfl
    | some n => rw [Option.map_some, Option.map_some, hfh n.val (by simp [get?, node?, hij, hn])]
  case isFalse => rfl

theorem modify_eq_self {g : Digraph α} {i : Nat} {f : α → α} (h : ∀ v, g.get? i = some v → f v = v) :
    g.modify i f = g := by
  rw [modify_congr (h := id) h]
  refine congrArg Digraph.mk (Array.ext_getElem? fun j => ?_)
  rw [Array.getElem?_modify]
  split
  · cases g.nodes[j]? <;> rfl
  · rfl

@[simp] theorem succ_modify (j : Nat) : (g.modify i f).succ j = g.succ j := by
  by_cases h : i = j <;> cases hn : g.nodes[j]? <;>
    simp [succ, node?, modify, Array.getElem?_modify, h, hn]

@[simp] theorem size_map : (g.map f).size = g.size := by simp [map, size]

theorem get?_map (j : Nat) : (g.map f).get? j = (g.get? j).map f := by
  cases hn : g.nodes[j]? <;> simp [get?, node?, map, hn]

theorem map_eq_self {g : Digraph α} {f : α → α} (h : ∀ i v, g.get? i = some v → f v = v) : g.map f = g := by
  refine congrArg Digraph.mk (Array.ext_getElem? fun j => ?_)
  rw [Array.getElem?_map]
  cases hn : g.nodes[j]? with
  | none => rfl
  | some n => rw [Option.map_some, h j n.val (by simp [get?, node?, hn])]

@[simp] theorem succ_map (j : Nat) : (g.map f).succ j = g.succ j := by
  cases hn : g.nodes[j]? <;> simp [succ, node?, map, hn]

end Modify

section PushNew

/-- Adds a number at the end of a list that does not have it. -/
def pushNew (l : List Nat) (y : Nat) : List Nat := if y ∈ l then l else l ++ [y]

theorem mem_pushNew (l : List Nat) (y z : Nat) : z ∈ pushNew l y ↔ z ∈ l ∨ z = y := by
  unfold pushNew
  split
  case isTrue h =>
    constructor
    · exact Or.inl
    · rintro (h' | rfl)
      · exact h'
      · exact h
  case isFalse => simp

theorem mem_foldl_pushNew (ys l : List Nat) (z : Nat) : z ∈ ys.foldl pushNew l ↔ z ∈ l ∨ z ∈ ys := by
  induction ys generalizing l with
  | nil => simp
  | cons y ys ih => rw [List.foldl_cons, ih, mem_pushNew, List.mem_cons, or_assoc]

theorem nodup_foldl_pushNew (ys : List Nat) {l : List Nat} (h : l.Nodup) : (ys.foldl pushNew l).Nodup := by
  induction ys generalizing l with
  | nil => exact h
  | cons y ys ih =>
    refine ih ?_
    unfold pushNew
    split
    case isTrue => exact h
    case isFalse hy => exact List.nodup_append.mpr ⟨h, by simp, by grind⟩

theorem length_foldl_pushNew_le (ys l : List Nat) : (ys.foldl pushNew l).length ≤ l.length + ys.length := by
  induction ys generalizing l with
  | nil => simp
  | cons y ys ih =>
    have hpush : (pushNew l y).length ≤ l.length + 1 := by
      unfold pushNew
      split <;> simp
    have := ih (pushNew l y)
    rw [List.foldl_cons, List.length_cons]
    omega

theorem head?_foldl_pushNew (ys l : List Nat) : (ys.foldl pushNew l).head? = l.head?.or ys.head? := by
  induction ys generalizing l with
  | nil => simp
  | cons y ys ih =>
    rw [List.foldl_cons, ih]
    unfold pushNew
    cases l with
    | nil => simp
    | cons x l => split <;> simp

end PushNew

section Link

variable (g : Digraph α) (a b : Nat)

@[simp] theorem size_link : (g.link a b).2.size = g.size := by
  unfold link
  split <;> simp [addSucc, addPred, size]

@[simp] theorem get?_link (i : Nat) : (g.link a b).2.get? i = g.get? i := by
  unfold link
  split
  · rfl
  · simp only [get?, node?, addSucc, addPred, Array.getElem?_modify]
    cases hn : g.nodes[i]? <;> split <;> split <;> simp

@[simp] theorem succ_addPred (x : Nat) : (g.addPred a b).succ x = g.succ x := by
  simp only [succ, node?, addPred, Array.getElem?_modify]
  split <;> cases g.nodes[x]? <;> rfl

theorem succ_addSucc (x : Nat) :
    (g.addSucc a b).succ x = if x = a ∧ a < g.size then g.succ x ++ [b] else g.succ x := by
  simp only [succ, node?, addSucc, Array.getElem?_modify]
  by_cases hx : x = a
  · subst hx
    cases hn : g.nodes[x]? with
    | none =>
      have hge : ¬ x < g.size := by simpa [size] using hn
      simp [hge]
    | some n =>
      have hlt : x < g.size := (Array.getElem?_eq_some_iff.mp hn).1
      simp [hlt]
  · rw [if_neg fun e => hx e.symm, if_neg fun h => hx h.1]

theorem succ_link (x : Nat) :
    (g.link a b).2.succ x = if x = a ∧ a < g.size then pushNew (g.succ x) b else g.succ x := by
  unfold link pushNew
  split
  case isTrue hb =>
    split
    case isTrue h => rw [h.1, if_pos hb]
    case isFalse => rfl
  case isFalse hb =>
    dsimp only
    rw [succ_addPred, succ_addSucc]
    split
    case isTrue h => rw [h.1, if_neg hb]
    case isFalse => rfl

theorem mem_succ_link (x y : Nat) :
    y ∈ (g.link a b).2.succ x ↔ y ∈ g.succ x ∨ (x = a ∧ y = b ∧ a < g.size) := by
  rw [succ_link]
  split
  case isTrue h => rw [mem_pushNew]; grind
  case isFalse h => grind

theorem pred_link {x : Nat} (hx : x ≠ b) : (g.link a b).2.pred x = g.pred x := by
  unfold link
  split
  · rfl
  · simp only [pred, node?, addSucc, addPred, Array.getElem?_modify]
    rw [if_neg fun e => hx e.symm]
    split
    · cases g.nodes[x]? <;> rfl
    · rfl

theorem succ_linkAll (es : List (Nat × Nat)) {x : Nat} (hx : x < g.size) :
    (g.linkAll es).succ x = ((es.filter (·.1 = x)).map (·.2)).foldl pushNew (g.succ x) := by
  unfold linkAll
  induction es generalizing g with
  | nil => rfl
  | cons e es ih =>
    rw [List.foldl_cons, ih _ (by rwa [size_link]), succ_link]
    by_cases he : e.1 = x
    · rw [if_pos ⟨he.symm, he ▸ hx⟩, List.filter_cons_of_pos (by simpa using he), List.map_cons, List.foldl_cons]
    · rw [if_neg fun h => he h.1.symm, List.filter_cons_of_neg (by simpa using he)]

theorem pred_linkAll {es : List (Nat × Nat)} {x : Nat} (hx : ∀ e ∈ es, e.2 ≠ x) :
    (g.linkAll es).pred x = g.pred x := by
  unfold linkAll
  induction es generalizing g with
  | nil => rfl
  | cons e es ih =>
    rw [List.foldl_cons, ih _ fun d hd => hx d (List.mem_cons_of_mem _ hd), pred_link g e.1 e.2 (hx e (by simp)).symm]

theorem get?_linkAll (es : List (Nat × Nat)) (i : Nat) : (g.linkAll es).get? i = g.get? i := by
  unfold linkAll
  induction es generalizing g with
  | nil => rfl
  | cons e es ih => rw [List.foldl_cons, ih, get?_link]

theorem mem_succ_linkAll (es : List (Nat × Nat)) (x y : Nat) :
    y ∈ (g.linkAll es).succ x ↔ y ∈ g.succ x ∨ ((x, y) ∈ es ∧ x < g.size) := by
  unfold linkAll
  induction es generalizing g with
  | nil => simp
  | cons e es ih =>
    obtain ⟨a, b⟩ := e
    rw [List.foldl_cons, ih, mem_succ_link, size_link, List.mem_cons, Prod.mk.injEq]
    constructor
    · rintro ((h | ⟨rfl, rfl, h⟩) | ⟨h, hx⟩)
      · exact Or.inl h
      · exact Or.inr ⟨Or.inl ⟨rfl, rfl⟩, h⟩
      · exact Or.inr ⟨Or.inr h, hx⟩
    · rintro (h | ⟨⟨rfl, rfl⟩ | h, hx⟩)
      · exact Or.inl (Or.inl h)
      · exact Or.inl (Or.inr ⟨rfl, rfl, hx⟩)
      · exact Or.inr ⟨h, hx⟩

end Link

section OfVals

theorem succ_insert (g : Digraph α) (v : α) (i : Nat) : (g.insert v).2.succ i = g.succ i := by
  simp only [succ, node?, insert, size, Array.getElem?_push]
  split
  case isTrue h =>
    subst h
    simp
  case isFalse => rfl

theorem pred_insert (g : Digraph α) (v : α) (i : Nat) : (g.insert v).2.pred i = g.pred i := by
  simp only [pred, node?, insert, size, Array.getElem?_push]
  split
  case isTrue h =>
    subst h
    simp
  case isFalse => rfl

theorem foldl_insert (vs : List α) (g : Digraph α) :
    (vs.foldl (fun g v => (g.insert v).2) g).vals = g.vals ++ vs ∧
      (∀ i, (vs.foldl (fun g v => (g.insert v).2) g).succ i = g.succ i) ∧
      ∀ i, (vs.foldl (fun g v => (g.insert v).2) g).pred i = g.pred i := by
  induction vs generalizing g with
  | nil => simp
  | cons v vs ih =>
    obtain ⟨hv, hs, hp⟩ := ih (g.insert v).2
    refine ⟨?_, fun i => by rw [List.foldl_cons, hs, succ_insert], fun i => by rw [List.foldl_cons, hp, pred_insert]⟩
    rw [List.foldl_cons, hv]
    simp [insert, vals]

theorem vals_ofVals (vs : List α) : (ofVals vs).vals = vs := by
  simpa [ofVals, vals] using (foldl_insert vs {}).1

theorem get?_ofVals (vs : List α) (i : Nat) : (ofVals vs).get? i = vs[i]? := by
  rw [← vals_getElem?, vals_ofVals]

theorem size_ofVals (vs : List α) : (ofVals vs).size = vs.length := by
  rw [← length_vals, vals_ofVals]

theorem succ_ofVals (vs : List α) (i : Nat) : (ofVals vs).succ i = [] := by
  simpa [ofVals, succ, node?] using (foldl_insert vs {}).2.1 i

theorem pred_ofVals (vs : List α) (i : Nat) : (ofVals vs).pred i = [] := by
  simpa [ofVals, pred, node?] using (foldl_insert vs {}).2.2 i

end OfVals

end MiddleEnd.Digraph
