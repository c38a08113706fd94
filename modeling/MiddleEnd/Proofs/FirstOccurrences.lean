import Mathlib.Data.List.Induction
import Mathlib.Data.List.Nodup

/-! Lists in the order of first occurrences, grown at the end by what they do not hold yet. -/

namespace MiddleEnd

variable {α : Type} [BEq α] [LawfulBEq α]

theorem eraseDups_append_singleton (l : List α) (y : α) :
    (l ++ [y]).eraseDups = if y ∈ l.eraseDups then l.eraseDups else l.eraseDups ++ [y] := by
  rw [List.eraseDups_append]
  by_cases hy : y ∈ l
  · rw [if_pos (List.mem_eraseDups.mpr hy)]
    simp [List.removeAll, hy]
  · rw [if_neg fun h => hy (List.mem_eraseDups.mp h)]
    simp [List.removeAll, List.eraseDups_cons, hy]

theorem foldl_eraseDups (l m : List α) :
    m.foldl (fun rs r => if r ∈ rs then rs else rs ++ [r]) l.eraseDups = (l ++ m).eraseDups := by
  induction m generalizing l with
  | nil => rw [List.foldl_nil, List.append_nil]
  | cons y m ih => rw [List.foldl_cons, ← eraseDups_append_singleton, ih, List.append_assoc, List.singleton_append]

theorem nodup_eraseDups (l : List α) : l.eraseDups.Nodup := by
  induction l using List.reverseRecOn with
  | nil => exact List.nodup_nil
  | append_singleton l y ih =>
    rw [eraseDups_append_singleton]
    split
    case isTrue => exact ih
    case isFalse hy =>
      rw [← List.concat_eq_append]
      exact List.Nodup.concat hy ih

theorem eraseDups_append_extends (l m : List α) : l.eraseDups <+: (l ++ m).eraseDups := by
  rw [List.eraseDups_append]
  exact List.prefix_append _ _

end MiddleEnd
