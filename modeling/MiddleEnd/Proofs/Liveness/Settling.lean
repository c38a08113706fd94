import MiddleEnd.Proofs.Liveness.Solve
import Mathlib.Data.Finset.Powerset
import Mathlib.Order.Filter.AtTopBot.Basic
import Mathlib.Order.Filter.Finite

/-! When the passes over a flow graph come to an end. A pass overwrites the live sets, so that what a block
claims without need can travel around a loop. It moves on at every edge that leads back in the order of the
blocks, and where it never comes to rest the passes never end. -/

namespace MiddleEnd.FlowGraph

open Filter

/-! ### One pass, block by block -/

theorem block?_foldr_of_not_mem {g : FlowGraph} {ks : List Nat} {k : Nat} (hk : k ∉ ks) :
    (ks.foldr (fun k g => g.flowBlock k) g).block? k = g.block? k := by
  induction ks with
  | nil => rfl
  | cons j ks ih =>
    obtain ⟨hj, hks⟩ : k ≠ j ∧ k ∉ ks := by simpa using hk
    rw [List.foldr_cons, block?_flowBlock, if_neg (Ne.symm hj), ih hks]

theorem entry_foldr_of_not_mem {g : FlowGraph} {ks : List Nat} {k : Nat} (hk : k ∉ ks) :
    (ks.foldr (fun k g => g.flowBlock k) g).entry k = g.entry k := by
  rw [entry, block?_foldr_of_not_mem hk, entry]

/-- A block's turn in a part of a pass. Blocks behind it have had theirs, and blocks before it have not. -/
theorem block?_foldr {g : FlowGraph} {ks : List Nat} (hs : ks.Pairwise (· < ·)) {k : Nat} (hk : k ∈ ks) :
    ∃ out : LiveSet, (ks.foldr (fun k g => g.flowBlock k) g).block? k =
        (g.block? k).map (fun b => { b with liveIn := b.uses ∪ (out \ b.defs), liveOut := out }) ∧
      ∀ x, x ∈ out ↔ ∃ l ∈ g.succ k,
        x ∈ (if k < l then ks.foldr (fun k g => g.flowBlock k) g else g).entry l := by
  induction ks with
  | nil => cases hk
  | cons j ks ih =>
    obtain ⟨hj, hs⟩ := List.pairwise_cons.mp hs
    rw [List.foldr_cons]
    set g' := ks.foldr (fun k g => g.flowBlock k) g with hg'
    have hbehind : ∀ {l}, j < l → (g'.flowBlock j).entry l = g'.entry l := by
      intro l hl
      rw [entry, block?_flowBlock, if_neg (by omega), entry]
    rcases List.mem_cons.mp hk with rfl | hk
    · have hnew : ∀ {l}, l ≤ k → l ∉ ks := fun hl hmem => absurd (hj _ hmem) (by omega)
      refine ⟨g'.outOf k, ?_, fun x => ?_⟩
      · rw [block?_flowBlock, if_pos rfl, hg', block?_foldr_of_not_mem (hnew (Nat.le_refl k))]
      · rw [mem_outOf, succ_of_bare (bare_foldr ks g)]
        refine exists_congr fun l => and_congr_right fun _ => ?_
        split
        case isTrue hl => rw [hbehind hl]
        case isFalse hl => rw [hg', entry_foldr_of_not_mem (hnew (by omega))]
    · obtain ⟨out, hblock, hout⟩ := ih hs hk
      have hjk := hj k hk
      refine ⟨out, ?_, fun x => (hout x).trans ?_⟩
      · rw [block?_flowBlock, if_neg (by omega), hblock]
      · refine exists_congr fun l => and_congr_right fun _ => ?_
        split
        case isTrue hl => rw [hbehind (by omega)]
        case isFalse => rfl

theorem block?_pass {g : FlowGraph} {k : Nat} {b : Block} (hk : g.block? k = some b) :
    ∃ out : LiveSet, g.pass.block? k = some { b with liveIn := b.uses ∪ (out \ b.defs), liveOut := out } ∧
      ∀ x, x ∈ out ↔ ∃ l ∈ g.succ k, x ∈ (if k < l then g.pass else g).entry l := by
  have hmem : k ∈ g.graph.ids := (Digraph.mem_ids _ _).mpr (lt_size hk)
  obtain ⟨out, hblock, hout⟩ := block?_foldr (g := g) List.pairwise_lt_range hmem
  rw [hk] at hblock
  exact ⟨out, hblock, hout⟩

/-- What a pass makes live on entry to a block: what the block uses, and what it does not define of what is live
on entry to a successor, in the old sets where the edge leads back and in the new ones where it leads ahead. -/
theorem mem_entry_pass (g : FlowGraph) (k : Nat) (x : OperandId) :
    x ∈ g.pass.entry k ↔ ∃ b, g.block? k = some b ∧
      (x ∈ b.uses ∨ (x ∉ b.defs ∧ ∃ l ∈ g.succ k, x ∈ (if k < l then g.pass else g).entry l)) := by
  cases hk : g.block? k with
  | none =>
    have hsize : ¬ k < g.pass.size := by
      rw [size_of_bare (bare_pass g)]
      intro hlt
      obtain ⟨b, hb⟩ := exists_block hlt
      rw [hk] at hb
      cases hb
    have hnone : g.pass.block? k = none := by
      by_contra hne
      obtain ⟨d, hd⟩ := Option.ne_none_iff_exists'.mp hne
      exact hsize (lt_size hd)
    simp [entry, hnone]
  | some b =>
    obtain ⟨out, hblock, hout⟩ := block?_pass hk
    rw [entry_eq hblock, Std.ExtTreeSet.mem_union_iff, Std.ExtTreeSet.mem_diff_iff, hout]
    simp [and_comm]

theorem mem_entry_pass_imp {g h : FlowGraph} (hb : g.bare = h.bare) {x : OperandId}
    (he : ∀ k, x ∈ g.entry k → x ∈ h.entry k) (k : Nat) (hx : x ∈ g.pass.entry k) : x ∈ h.pass.entry k := by
  -- the last blocks come first
  obtain ⟨n, hn⟩ : ∃ n, g.size - k = n := ⟨_, rfl⟩
  induction n using Nat.strong_induction_on generalizing k with
  | _ n ih =>
    obtain ⟨b, hk, hx⟩ := (mem_entry_pass g k x).mp hx
    obtain ⟨d, hd, -, -, hu, hdef⟩ := block?_of_bare hb hk
    refine (mem_entry_pass h k x).mpr ⟨d, hd, hx.imp (hu ▸ ·) fun ⟨hnd, l, hl, hx⟩ => ?_⟩
    refine ⟨hdef ▸ hnd, l, succ_of_bare hb k ▸ hl, ?_⟩
    split at hx
    case isTrue hkl =>
      have := lt_size hk
      rw [if_pos hkl]
      exact ih (g.size - l) (by omega) l hx rfl
    case isFalse hkl =>
      rw [if_neg hkl]
      exact he l hx

theorem pass_pass_of_entry {g : FlowGraph} (h : ∀ k x, x ∈ g.pass.entry k ↔ x ∈ g.entry k) :
    g.pass.pass = g.pass := by
  have hpass : ∀ k x, x ∈ g.pass.pass.entry k ↔ x ∈ g.pass.entry k := by
    intro k x
    exact ⟨mem_entry_pass_imp (bare_pass g) (fun k => (h k x).mp) k,
      mem_entry_pass_imp (bare_pass g).symm (fun k => (h k x).mpr) k⟩
  refine eq_of_mem_iff (bare_pass _) hpass fun k b d hb hd x => ?_
  obtain ⟨e, he, -⟩ := block?_of_bare (bare_pass g) hd
  obtain ⟨out, hblock, hout⟩ := block?_pass he
  obtain ⟨out', hblock', hout'⟩ := block?_pass hblock
  obtain rfl := Option.some.inj (hblock.symm.trans hd)
  obtain rfl := Option.some.inj (hblock'.symm.trans hb)
  dsimp only
  rw [hout, hout', succ_of_bare (bare_pass g)]
  refine exists_congr fun l => and_congr_right fun _ => ?_
  split
  case isTrue => exact hpass l x
  case isFalse => exact h l x

/-! ### Passes that come to an end -/

/-- Some pass changes nothing, so that the passes end with it. -/
def Settles (g : FlowGraph) : Prop := ∃ n, (pass^[n + 1] g).liveSets = (pass^[n] g).liveSets

theorem bare_iterate (g : FlowGraph) (n : Nat) : (pass^[n] g).bare = g.bare := by
  induction n with
  | zero => rfl
  | succ n ih => rw [Function.iterate_succ_apply', bare_pass, ih]

/-- A sequence in a finite set, each member of which says what the next one is, has come to rest after as many
steps as the set has members if it ever does: up to there some member comes twice. -/
theorem rest_of_eventually_rest {α : Type} {s : Finset α} {p : Nat → α} (hp : ∀ n, p n ∈ s)
    (hnext : ∀ i j, p i = p j → p (i + 1) = p (j + 1)) (hrest : ∀ᶠ n in atTop, p (n + 1) = p n) {n : Nat}
    (hn : s.card ≤ n) : p (n + 1) = p n := by
  classical
  obtain ⟨N, hN⟩ := eventually_atTop.mp hrest
  have hshift : ∀ i j, p i = p j → ∀ t, p (i + t) = p (j + t) := by
    intro i j hij t
    induction t with
    | zero => exact hij
    | succ t ih => exact hnext _ _ ih
  obtain ⟨i, j, hij, hj, he⟩ : ∃ i j, i < j ∧ j ≤ s.card ∧ p i = p j := by
    obtain ⟨i, hi, j, hj, hne, he⟩ := Finset.exists_ne_map_eq_of_card_lt_of_maps_to
      (s := Finset.range (s.card + 1)) (t := s) (f := p) (by simp) fun n _ => hp n
    rw [Finset.mem_range] at hi hj
    rcases Nat.lt_or_gt_of_ne hne with hlt | hgt
    · exact ⟨i, j, hlt, by omega, he⟩
    · exact ⟨j, i, hgt, by omega, he.symm⟩
  -- from `i` on the sequence repeats itself, and far enough on it rests
  have hrepeat : ∀ m, i ≤ m → ∀ t, p m = p (m + t * (j - i)) := by
    intro m hm t
    induction t with
    | zero => simp
    | succ t ih =>
      have hback := hshift i j he (m + t * (j - i) - i)
      rw [ih, show m + t * (j - i) = i + (m + t * (j - i) - i) by omega, hback]
      congr 1
      rw [Nat.succ_mul]
      omega
  have hfar : N ≤ n + N * (j - i) := le_trans (Nat.le_mul_of_pos_right N (by omega)) (Nat.le_add_left _ _)
  calc p (n + 1) = p (n + 1 + N * (j - i)) := hrepeat _ (by omega) N
    _ = p (n + N * (j - i) + 1) := by rw [Nat.add_right_comm]
    _ = p (n + N * (j - i)) := hN _ hfar
    _ = p n := (hrepeat n (by omega) N).symm

theorem lt_size_of_mem_entry {g : FlowGraph} {k : Nat} {x : OperandId} (hx : x ∈ g.entry k) : k < g.size := by
  cases hk : g.block? k with
  | none => simp [entry, hk] at hx
  | some b => exact lt_size hk

/-- The blocks on entry to which a value is live. -/
def holders (g : FlowGraph) (x : OperandId) : Finset Nat := (Finset.range g.size).filter (x ∈ g.entry ·)

theorem mem_holders {g : FlowGraph} {x : OperandId} {k : Nat} : k ∈ g.holders x ↔ x ∈ g.entry k := by
  rw [holders, Finset.mem_filter, Finset.mem_range, and_iff_right_of_imp lt_size_of_mem_entry]

theorem holders_pass {g h : FlowGraph} (hb : g.bare = h.bare) {x : OperandId} (he : g.holders x = h.holders x) :
    g.pass.holders x = h.pass.holders x := by
  have hiff : ∀ k, x ∈ g.entry k ↔ x ∈ h.entry k := fun k => by rw [← mem_holders, he, mem_holders]
  ext k
  rw [mem_holders, mem_holders]
  exact ⟨mem_entry_pass_imp hb (fun k => (hiff k).mp) k, mem_entry_pass_imp hb.symm (fun k => (hiff k).mpr) k⟩

/-- A value is from some pass on always live on entry to a block, or never. -/
def Rests (g : FlowGraph) (x : OperandId) (k : Nat) : Prop :=
  (∀ᶠ n in atTop, x ∈ (pass^[n] g).entry k) ∨ ∀ᶠ n in atTop, x ∉ (pass^[n] g).entry k

theorem Rests.eventually {g : FlowGraph} {x : OperandId} {k : Nat} (h : g.Rests x k) :
    ∀ᶠ n in atTop, (x ∈ (pass^[n + 1] g).entry k ↔ x ∈ (pass^[n] g).entry k) := by
  rcases h with h | h
  · filter_upwards [h, (tendsto_add_atTop_nat 1).eventually h] with n hn hn'
    exact iff_of_true hn' hn
  · filter_upwards [h, (tendsto_add_atTop_nat 1).eventually h] with n hn hn'
    exact iff_of_false hn' hn

theorem solve_isSome_of_rests {g : FlowGraph} (h : ∀ k x, g.Rests x k) : g.solve.isSome = true := by
  have hsame : ∀ x, (pass^[2 ^ g.size + 1] g).holders x = (pass^[2 ^ g.size] g).holders x := by
    intro x
    apply rest_of_eventually_rest (s := (Finset.range g.size).powerset) (p := fun n => (pass^[n] g).holders x)
    · intro n
      rw [Finset.mem_powerset, holders, size_of_bare (bare_iterate g n)]
      exact Finset.filter_subset _ _
    · intro i j hij
      rw [Function.iterate_succ_apply', Function.iterate_succ_apply']
      exact holders_pass ((bare_iterate g i).trans (bare_iterate g j).symm) hij
    · have hall : ∀ᶠ n in atTop, ∀ k ∈ Finset.range g.size,
          (x ∈ (pass^[n + 1] g).entry k ↔ x ∈ (pass^[n] g).entry k) :=
        (eventually_all_finset _).mpr fun k _ => (h k x).eventually
      filter_upwards [hall] with n hn
      rw [holders, holders, size_of_bare (bare_iterate g n), size_of_bare (bare_iterate g (n + 1))]
      exact Finset.filter_congr hn
    · rw [Finset.card_powerset, Finset.card_range]
  have hfixed : (pass^[2 ^ g.size + 1] g).pass = pass^[2 ^ g.size + 1] g := by
    rw [Function.iterate_succ_apply']
    refine pass_pass_of_entry fun k x => ?_
    rw [← mem_holders, ← mem_holders, ← Function.iterate_succ_apply' pass, hsame]
  obtain ⟨n, -, he⟩ := settle_eq (p := 0) (Nat.pow 2 g.size + 2) hfixed (show 2 ^ g.size + 1 < 2 ^ g.size + 2 by omega)
  rw [solve, he]
  rfl

theorem settles_of_settle {fuel p : Nat} {g : FlowGraph} (h : (settle fuel p g).isSome = true) : g.Settles := by
  induction fuel generalizing p g with
  | zero => cases h
  | succ fuel ih =>
    rw [settle] at h
    split at h
    case isTrue hs => exact ⟨0, hs⟩
    case isFalse =>
      obtain ⟨n, hn⟩ := ih h
      refine ⟨n + 1, ?_⟩
      rwa [Function.iterate_succ_apply, Function.iterate_succ_apply (n := n)]

theorem Settles.rests {g : FlowGraph} (h : g.Settles) (k : Nat) (x : OperandId) : g.Rests x k := by
  obtain ⟨n, hn⟩ := h
  rw [Function.iterate_succ_apply'] at hn
  have hfixed : (pass^[n] g).pass = pass^[n] g := eq_of_bare_of_liveSets (bare_pass _) hn
  have hstay : ∀ m, n ≤ m → pass^[m] g = pass^[n] g := by
    intro m hm
    obtain ⟨t, rfl⟩ := Nat.exists_eq_add_of_le' hm
    rw [Function.iterate_add_apply, Function.iterate_fixed hfixed]
  by_cases hx : x ∈ (pass^[n] g).entry k
  · refine Or.inl (eventually_atTop.mpr ⟨n, fun m hm => ?_⟩)
    rwa [hstay m hm]
  · refine Or.inr (eventually_atTop.mpr ⟨n, fun m hm => ?_⟩)
    rwa [hstay m hm]

theorem solve_isSome_iff (g : FlowGraph) : g.solve.isSome = true ↔ g.Settles :=
  ⟨settles_of_settle, fun h => solve_isSome_of_rests h.rests⟩

theorem settles_iff (g : FlowGraph) : g.Settles ↔ ∀ k x, g.Rests x k :=
  ⟨Settles.rests, fun h => (solve_isSome_iff g).mp (solve_isSome_of_rests h)⟩

/-! ### Values that are claimed without need -/

/-- `n` passes carry `x` to block `k` from a block that held it at the start: the blocks on the way do not define
it, and one edge for each pass leads back in the order of the blocks or to the block itself. -/
inductive Carried (g : FlowGraph) (x : OperandId) : Nat → Nat → Prop
  | held {k : Nat} {b : Block} (hk : g.block? k = some b) (hx : x ∈ b.liveIn) : Carried g x 0 k
  | ahead {n k l : Nat} {b : Block} (hk : g.block? k = some b) (hx : x ∉ b.defs) (hl : l ∈ g.succ k) (hkl : k < l)
      (h : Carried g x (n + 1) l) : Carried g x (n + 1) k
  | back {n k l : Nat} {b : Block} (hk : g.block? k = some b) (hx : x ∉ b.defs) (hl : l ∈ g.succ k) (hlk : l ≤ k)
      (h : Carried g x n l) : Carried g x (n + 1) k

theorem Carried.mem_entry {g : FlowGraph} {x : OperandId} {n k : Nat} (h : g.Carried x n k) :
    x ∈ (pass^[n] g).entry k := by
  have hturn : ∀ {n k l : Nat} {b : Block}, g.block? k = some b → x ∉ b.defs → l ∈ g.succ k →
      x ∈ (if k < l then pass^[n + 1] g else pass^[n] g).entry l → x ∈ (pass^[n + 1] g).entry k := by
    intro n k l b hk hx hl hmem
    obtain ⟨d, hd, -, -, -, hdef⟩ := block?_of_bare (bare_iterate g n).symm hk
    rw [Function.iterate_succ_apply'] at hmem ⊢
    refine (mem_entry_pass _ k x).mpr ⟨d, hd, Or.inr ⟨hdef ▸ hx, l, ?_, hmem⟩⟩
    rwa [succ_of_bare (bare_iterate g n)]
  induction h with
  | held hk hx => exact (entry_eq hk).symm ▸ hx
  | ahead hk hx hl hkl _ ih => exact hturn hk hx hl (by rwa [if_pos hkl])
  | back hk hx hl hlk _ ih => exact hturn hk hx hl (by rwa [if_neg (Nat.not_lt.mpr hlk)])

theorem needs_or_carried {g : FlowGraph} {x : OperandId} {n k : Nat} (h : x ∈ (pass^[n] g).entry k) :
    g.Needs x k ∨ g.Carried x n k := by
  induction n generalizing k with
  | zero =>
    obtain ⟨b, hk⟩ := exists_block (lt_size_of_mem_entry h)
    exact Or.inr (.held hk (entry_eq hk ▸ h))
  | succ n ih =>
    -- within a pass the last blocks come first
    obtain ⟨m, hm⟩ : ∃ m, g.size - k = m := ⟨_, rfl⟩
    induction m using Nat.strong_induction_on generalizing k with
    | _ m ihm =>
      rw [Function.iterate_succ_apply', mem_entry_pass] at h
      obtain ⟨d, hd, hx⟩ := h
      obtain ⟨b, hk, -, -, hu, hdef⟩ := block?_of_bare (bare_iterate g n) hd
      rcases hx with hx | ⟨hx, l, hl, hmem⟩
      · exact Or.inl (.use hk (hu ▸ hx))
      · rw [succ_of_bare (bare_iterate g n)] at hl
        have hx : x ∉ b.defs := hdef ▸ hx
        split at hmem
        case isTrue hkl =>
          have hlt := lt_size hk
          rw [← Function.iterate_succ_apply' pass] at hmem
          rcases ihm (g.size - l) (by omega) hmem rfl with hneeds | hcarried
          · exact Or.inl (.through hk hx hl hneeds)
          · exact Or.inr (.ahead hk hx hl hkl hcarried)
        case isFalse hkl =>
          rcases ih hmem with hneeds | hcarried
          · exact Or.inl (.through hk hx hl hneeds)
          · exact Or.inr (.back hk hx hl (by omega) hcarried)

theorem Needs.rests {g : FlowGraph} {x : OperandId} {k : Nat} (h : g.Needs x k) : g.Rests x k := by
  have habove : ∀ n, Above g n (pass^[n] g) := by
    intro n
    induction n with
    | zero => exact fun _ _ hx => hx.elim
    | succ n ih =>
      rw [Function.iterate_succ_apply']
      exact ih.pass (bare_iterate g n)
  exact Or.inl (eventually_atTop.mpr ⟨g.size, fun n hn => habove n k x (h.within_size.mono hn)⟩)

theorem rests_iff_of_not_needs {g : FlowGraph} {x : OperandId} {k : Nat} (h : ¬ g.Needs x k) :
    g.Rests x k ↔ (∀ᶠ n in atTop, g.Carried x n k) ∨ ∀ᶠ n in atTop, ¬ g.Carried x n k := by
  have hiff : ∀ n, x ∈ (pass^[n] g).entry k ↔ g.Carried x n k :=
    fun n => ⟨fun hx => (needs_or_carried hx).resolve_left h, Carried.mem_entry⟩
  simp only [Rests, hiff]

theorem settles_of_grows {g : FlowGraph} (h : ∀ k x, x ∈ g.entry k → x ∈ g.pass.entry k) : g.Settles := by
  have hgrow : ∀ n k x, x ∈ (pass^[n] g).entry k → x ∈ (pass^[n + 1] g).entry k := by
    intro n
    induction n with
    | zero => exact h
    | succ n ih =>
      intro k x hx
      rw [Function.iterate_succ_apply'] at hx ⊢
      exact mem_entry_pass_imp ((bare_iterate g n).trans (bare_iterate g (n + 1)).symm) (fun k => ih k x) k hx
  refine (settles_iff g).mpr fun k x => ?_
  by_cases hx : ∃ n, x ∈ (pass^[n] g).entry k
  · obtain ⟨n, hn⟩ := hx
    exact Or.inl (eventually_atTop.mpr ⟨n, fun m hm => Nat.le_induction hn (fun m _ => hgrow m k x) m hm⟩)
  · push Not at hx
    exact Or.inr (Eventually.of_forall hx)

/-- When the passes end. Solving makes enough of them to see the end if there is one. They end if and only if every
value that a block does not need is from some number of passes on always carried to the block, or never, from those
blocks that claim it at the start; whatever the edges, the uses, the definitions and the live sets at the start
are. In particular they end if the first pass takes nothing away. -/
theorem passes_end_iff_claims_come_to_rest (g : FlowGraph) :
    (g.solve.isSome = true ↔ g.Settles) ∧
      (g.Settles ↔ ∀ k x, ¬ g.Needs x k →
        (∀ᶠ n in atTop, g.Carried x n k) ∨ ∀ᶠ n in atTop, ¬ g.Carried x n k) ∧
      ((∀ k x, x ∈ g.entry k → x ∈ g.pass.entry k) → g.Settles) := by
  refine ⟨solve_isSome_iff g, (settles_iff g).trans ⟨fun h k x hx => ?_, fun h k x => ?_⟩, settles_of_grows⟩
  · exact (rests_iff_of_not_needs hx).mp (h k x)
  · by_cases hx : g.Needs x k
    · exact hx.rests
    · exact (rests_iff_of_not_needs hx).mpr (h k x hx)

/-- Two blocks in a loop. The first one claims a value that no block reads or writes. -/
def turntable : FlowGraph where
  graph := (Digraph.ofVals [{ first := 0, last := 0, liveIn := {0} }, { first := 1, last := 1 }]).linkAll
    [(0, 1), (1, 0)]

/-- The claim stays where it is, and reaches the other block. -/
theorem turntable_settles : (∀ k x, x ∈ turntable.entry k → x ∈ turntable.pass.entry k) ∧ turntable.Settles ∧
    turntable.solve.isSome = true ∧ 0 ∈ turntable.pass.entry 1 := by
  have hgrow : ∀ k x, x ∈ turntable.entry k → x ∈ turntable.pass.entry k := by
    intro k x hx
    have hk : k < 2 := lt_size_of_mem_entry hx
    have hzero : turntable.entry 0 = {0} := by decide +kernel
    have hone : turntable.entry 1 = ∅ := by decide +kernel
    obtain rfl | rfl : k = 0 ∨ k = 1 := by omega
    · rw [hzero] at hx
      obtain rfl : 0 = x := by simpa using hx
      decide +kernel
    · rw [hone] at hx
      simp at hx
  obtain ⟨hsolve, -, hgrows⟩ := passes_end_iff_claims_come_to_rest turntable
  exact ⟨hgrow, hgrows hgrow, hsolve.mpr (hgrows hgrow), by decide +kernel⟩

/-- Three blocks in a ring that runs against their order but for one edge. The first one claims a value that no
block reads or writes. -/
def roundabout : FlowGraph where
  graph := (Digraph.ofVals [{ first := 0, last := 0, liveIn := {0} }, { first := 1, last := 1 },
    { first := 2, last := 2 }]).linkAll [(0, 2), (2, 1), (1, 0)]

/-- The claim goes to and fro between two blocks for ever. -/
theorem roundabout_never_settles : ¬ roundabout.Settles ∧ roundabout.solve = none := by
  have hnone : roundabout.solve = none := by decide +kernel
  refine ⟨?_, hnone⟩
  rw [← solve_isSome_iff, hnone]
  exact Bool.false_ne_true

end MiddleEnd.FlowGraph
