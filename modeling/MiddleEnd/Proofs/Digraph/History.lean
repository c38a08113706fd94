import MiddleEnd.Proofs.Digraph
import MiddleEnd.Proofs.FirstOccurrences

/-! Graphs that grow node by node and edge by edge. Whatever was done to a graph, the edges into a node are the edges
out of the others, read the other way: an edge is looked for among those that leave its source only, and that is
enough for both lists to hold it once, each in the order of its own first links. -/

namespace MiddleEnd.Digraph

variable {α : Type}

/-- What is done to a graph: a node comes in, an edge comes in, or a node gets another value. -/
inductive Edit (α : Type) where
  | insert (val : α)
  | link (src dst : Nat)
  | update (id : Nat) (f : α → α)

namespace Edit

/-- The nodes that are named exist. -/
def Fits (g : Digraph α) : Edit α → Prop
  | insert _ => True
  | link a b => a < g.size ∧ b < g.size
  | update i _ => i < g.size

instance (g : Digraph α) : (e : Edit α) → Decidable (e.Fits g)
  | insert _ => .isTrue trivial
  | link a b => inferInstanceAs (Decidable (a < g.size ∧ b < g.size))
  | update i _ => inferInstanceAs (Decidable (i < g.size))

def apply (g : Digraph α) : Edit α → Digraph α
  | insert v => (g.insert v).2
  | link a b => (g.link a b).2
  | update i f => g.modify i f

/-- Where a link from `a` goes. -/
def target? (a : Nat) : Edit α → Option Nat
  | link src dst => if src = a then some dst else none
  | _ => none

/-- Where a link to `b` comes from. -/
def source? (b : Nat) : Edit α → Option Nat
  | link src dst => if dst = b then some src else none
  | _ => none

theorem target?_eq_some_iff (e : Edit α) (a b : Nat) : e.target? a = some b ↔ e = link a b := by
  cases e <;> simp [target?]

theorem source?_eq_some_iff (e : Edit α) (a b : Nat) : e.source? b = some a ↔ e = link a b := by
  cases e <;> simp [source?, and_comm]

end Edit

/-- The graph comes from the empty one by edits of nodes that were there. -/
inductive History : List (Edit α) → Digraph α → Prop
  | nil : History [] {}
  | snoc {es : List (Edit α)} {g : Digraph α} {e : Edit α} :
      History es g → e.Fits g → History (es ++ [e]) (e.apply g)

section Transpose

variable (g : Digraph α)

theorem pred_modify (i : Nat) (f : α → α) (j : Nat) : (g.modify i f).pred j = g.pred j := by
  by_cases h : i = j <;> cases hn : g.nodes[j]? <;>
    simp [pred, node?, modify, Array.getElem?_modify, h, hn]

theorem pred_link_self (a : Nat) {b : Nat} (hb : b < g.size) :
    (g.link a b).2.pred b = if b ∈ g.succ a then g.pred b else g.pred b ++ [a] := by
  obtain ⟨n, hn⟩ : ∃ n, g.nodes[b]? = some n := ⟨_, Array.getElem?_eq_getElem hb⟩
  unfold link
  split
  case isTrue => rfl
  case isFalse =>
    simp only [pred, node?, addSucc, addPred, Array.getElem?_modify, hn, if_true]
    by_cases hab : a = b <;> simp [hab]

theorem node?_link {g : Digraph α} {a b i : Nat} {n : Node α} (hn : (g.link a b).2.node? i = some n) :
    ∃ m, g.node? i = some m ∧ n.id = m.id := by
  unfold link at hn
  split at hn
  case isTrue => exact ⟨n, hn, rfl⟩
  case isFalse =>
    simp only [node?, addSucc, addPred, Array.getElem?_modify] at hn
    cases hm : g.nodes[i]? with
    | none => simp [hm] at hn
    | some m =>
      refine ⟨m, hm, ?_⟩
      rw [hm] at hn
      split at hn <;> split at hn <;> cases hn <;> rfl

end Transpose

/-- What the edits say of the graph: nodes carry their number, and the edges on either side are the links of the
history in the order they first came. -/
structure Told (es : List (Edit α)) (g : Digraph α) : Prop where
  id : ∀ i n, g.node? i = some n → n.id = i
  succ : ∀ a, g.succ a = (es.filterMap (·.target? a)).eraseDups
  pred : ∀ b, g.pred b = (es.filterMap (·.source? b)).eraseDups

namespace Told

variable {es : List (Edit α)} {g : Digraph α}

theorem mem_succ_iff (h : Told es g) (a b : Nat) : b ∈ g.succ a ↔ .link a b ∈ es := by
  rw [h.succ, List.mem_eraseDups, List.mem_filterMap]
  simp [Edit.target?_eq_some_iff]

theorem mem_pred_iff (h : Told es g) (a b : Nat) : a ∈ g.pred b ↔ .link a b ∈ es := by
  rw [h.pred, List.mem_eraseDups, List.mem_filterMap]
  simp [Edit.source?_eq_some_iff]

theorem mem_succ_iff_mem_pred (h : Told es g) (a b : Nat) : b ∈ g.succ a ↔ a ∈ g.pred b := by
  rw [h.mem_succ_iff, h.mem_pred_iff]

theorem insert (h : Told es g) (v : α) : Told (es ++ [.insert v]) (g.insert v).2 where
  id i n hn := by
    rw [node?, Digraph.insert, Array.getElem?_push] at hn
    split at hn
    case isTrue hi =>
      cases hn
      exact hi.symm
    case isFalse => exact h.id i n hn
  succ a := by
    rw [succ_insert, h.succ, List.filterMap_append]
    simp [Edit.target?]
  pred b := by
    rw [pred_insert, h.pred, List.filterMap_append]
    simp [Edit.source?]

theorem update (h : Told es g) (i : Nat) (f : α → α) : Told (es ++ [.update i f]) (g.modify i f) where
  id j n hn := by
    rw [node?, modify, Array.getElem?_modify] at hn
    split at hn
    case isTrue hij =>
      obtain ⟨m, hm, rfl⟩ := Option.map_eq_some_iff.mp hn
      exact h.id j m hm
    case isFalse => exact h.id j n hn
  succ a := by
    rw [succ_modify, h.succ, List.filterMap_append]
    simp [Edit.target?]
  pred b := by
    rw [pred_modify, h.pred, List.filterMap_append]
    simp [Edit.source?]

/-- The edge is looked for in one list, but it is in both or in neither, so either gets it once. -/
theorem link (h : Told es g) {a b : Nat} (ha : a < g.size) (hb : b < g.size) :
    Told (es ++ [.link a b]) (g.link a b).2 where
  id i n hn := by
    obtain ⟨m, hm, hid⟩ := node?_link hn
    rw [hid, h.id i m hm]
  succ x := by
    rw [succ_link, List.filterMap_append, h.succ]
    by_cases hx : x = a
    · rw [if_pos ⟨hx, ha⟩]
      simp [Edit.target?, hx, eraseDups_append_singleton, pushNew]
    · rw [if_neg fun e => hx e.1]
      simp [Edit.target?, Ne.symm hx]
  pred x := by
    rw [List.filterMap_append]
    by_cases hx : x = b
    · subst hx
      have hiff := h.mem_succ_iff_mem_pred a x
      rw [pred_link_self g a hb, show (List.filterMap (Edit.source? x) [Edit.link a x] : List Nat) = [a] by
        simp [Edit.source?], eraseDups_append_singleton, ← h.pred]
      by_cases hsucc : x ∈ g.succ a
      · rw [if_pos hsucc, if_pos (hiff.mp hsucc)]
      · rw [if_neg hsucc, if_neg fun e => hsucc (hiff.mpr e)]
    · rw [pred_link g a b hx, h.pred]
      simp [Edit.source?, Ne.symm hx]

theorem apply (h : Told es g) {e : Edit α} (he : e.Fits g) : Told (es ++ [e]) (e.apply g) := by
  cases e with
  | insert v => exact h.insert v
  | link a b => exact h.link he.1 he.2
  | update i f => exact h.update i f

end Told

theorem History.told {es : List (Edit α)} {g : Digraph α} (h : History es g) : Told es g := by
  induction h with
  | nil => exact ⟨fun i n hn => by simp [node?] at hn, fun a => by simp [Digraph.succ, node?],
      fun b => by simp [Digraph.pred, node?]⟩
  | snoc _ he ih => exact ih.apply he

theorem Edit.get?_apply {g : Digraph α} {e : Edit α} {i : Nat} {v : α} (hv : g.get? i = some v)
    (he : ∀ f, e ≠ .update i f) : (e.apply g).get? i = some v := by
  cases e with
  | insert w =>
    have hi : i ≠ g.nodes.size := Nat.ne_of_lt (lt_size_of_get? hv)
    rw [← hv]
    simp only [Edit.apply, Digraph.insert, get?, node?, Array.getElem?_push, if_neg hi]
  | link a b => exact (get?_link g a b i).trans hv
  | update j f =>
    have hij : j ≠ i := by
      rintro rfl
      exact he f rfl
    rw [Edit.apply, get?_modify, if_neg hij, hv]

/-- The two sides of every edge stay in step. However a graph came about, its nodes carry their numbers; an edge is
among those out of its source exactly when it is among those into its target, once on either side and in the order of
the first links there. A link is new exactly when it was not made before, and changes nothing if it was. Nothing but
an update of the node itself changes a value. -/
theorem edges_stay_in_step_with_transposed_edges (es : List (Edit α)) (g : Digraph α) (h : History es g) :
    (∀ i n, g.node? i = some n → n.id = i) ∧
    (∀ a b, b ∈ g.succ a ↔ a ∈ g.pred b) ∧
    (∀ a, (g.succ a).Nodup ∧ g.succ a = (es.filterMap (·.target? a)).eraseDups) ∧
    (∀ b, (g.pred b).Nodup ∧ g.pred b = (es.filterMap (·.source? b)).eraseDups) ∧
    (∀ a b, ((g.link a b).1 = true ↔ .link a b ∉ es) ∧ (.link a b ∈ es → (g.link a b).2 = g)) ∧
    ∀ e : Edit α, e.Fits g → ∀ i v, g.get? i = some v → (∀ f, e ≠ .update i f) → (e.apply g).get? i = some v := by
  have told := h.told
  refine ⟨told.id, told.mem_succ_iff_mem_pred, fun a => ⟨?_, told.succ a⟩, fun b => ⟨?_, told.pred b⟩, fun a b => ?_,
    fun e _ i v hv he => Edit.get?_apply hv he⟩
  · rw [told.succ]
    exact nodup_eraseDups _
  · rw [told.pred]
    exact nodup_eraseDups _
  · rw [← told.mem_succ_iff]
    constructor
    · by_cases hb : b ∈ g.succ a <;> simp [Digraph.link, hb]
    · intro hb
      rw [Digraph.link, if_pos hb]

/-- Three nodes, one of them with an edge to itself; one edge is linked twice, and a value is updated on the way. -/
def tour : List (Edit Nat) :=
  [.insert 7, .insert 8, .link 1 0, .link 0 0, .link 1 0, .link 0 1, .update 0 (· + 1), .insert 9, .link 2 0]

theorem tour_edges : ∃ g, History tour g ∧ g.succ 0 = [0, 1] ∧ g.pred 0 = [1, 0, 2] ∧ g.get? 0 = some 8 ∧
    (g.link 1 0).1 = false ∧ (g.link 1 0).2 = g ∧ (g.link 0 2).1 = true := by
  have h₁ := History.nil.snoc (show Edit.Fits _ (.insert 7) by decide)
  have h₂ := h₁.snoc (show Edit.Fits _ (.insert 8) by decide)
  have h₃ := h₂.snoc (show Edit.Fits _ (.link 1 0) by decide)
  have h₄ := h₃.snoc (show Edit.Fits _ (.link 0 0) by decide)
  have h₅ := h₄.snoc (show Edit.Fits _ (.link 1 0) by decide)
  have h₆ := h₅.snoc (show Edit.Fits _ (.link 0 1) by decide)
  have h₇ := h₆.snoc (show Edit.Fits _ (.update 0 (· + 1)) by decide)
  have h₈ := h₇.snoc (show Edit.Fits _ (.insert 9) by decide)
  have h₉ := h₈.snoc (show Edit.Fits _ (.link 2 0) by decide)
  obtain ⟨-, -, hsucc, hpred, hlink, -⟩ := edges_stay_in_step_with_transposed_edges _ _ h₉
  refine ⟨_, h₉, (hsucc 0).2.trans (by decide), (hpred 0).2.trans (by decide), by decide, ?_, ?_, ?_⟩
  · simpa using (hlink 1 0).1
  · exact (hlink 1 0).2 (by simp)
  · exact (hlink 0 2).1.mpr (by simp)

end MiddleEnd.Digraph
