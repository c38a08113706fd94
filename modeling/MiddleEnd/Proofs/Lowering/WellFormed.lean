import MiddleEnd.Proofs.Flow.ControlFlow
import MiddleEnd.Proofs.Lowering.Labels
import MiddleEnd.Proofs.Lowering.Program
import Mathlib.Data.List.Sort

/-! Lowered code is well formed. Every function stands from its header to a return, goes nowhere else, and
places each of its labels once; so cutting the code up gives back the functions that were declared, and each
of them has a flow graph. -/

namespace MiddleEnd

open Code

/-- No function starts between two positions. -/
def Code.Together (c : Code) (i k : Nat) : Prop :=
  ∀ m x, min i k < m → m ≤ max i k → c.instrs[m]? = some x → x.op ≠ .header

/-- What stands last, or before the start of a function, is a return. -/
def Code.EndsInReturns (c : Code) : Prop :=
  ∀ i z, c.instrs[i]? = some z →
    (i + 1 = c.instrs.size ∨ ∃ x, c.instrs[i + 1]? = some x ∧ x.op = .header) → z.op = .ret

/-- The code of the declarations `ds`, each function of which is complete. -/
structure Code.Formed (symbols : SymbolTable) (ds : List Decl) (c : Code) : Prop where
  sound : c.Sound symbols
  declared : (c.headers symbols).map (·.2.1) = ds.filterMap Decl.function?
  header : ∀ i z, c.instrs[i]? = some z → z.op = .header → ∃ h, (i, h) ∈ c.headers symbols
  entry : ∀ z, c.instrs[0]? = some z → z.op = .header
  exit : c.EndsInReturns
  target : ∀ i z, c.instrs[i]? = some z → (z.op = .jump ∨ z.op = .branch) → ∃ y k,
    z.target? = some y ∧ c.operands.isLabel y = true ∧ c.places y k = true ∧ c.Together i k
  label : ∀ y, c.operands.isLabel y = true → ∃ k, c.places y k = true

namespace Code

variable {symbols : SymbolTable} {c d : Code}

theorem Sound.header?_of_grows (hc : c.Sound symbols) (hg : c.Grows d) {i : Nat} {x : Instr}
    (hx : c.instrs[i]? = some x) : d.header? symbols x = c.header? symbols x := by
  ext ⟨id, name⟩
  rw [header?_eq_some, header?_eq_some]
  refine and_congr_right fun _ => exists_congr fun o => exists_congr fun operand => exists_congr fun s =>
    and_congr_right fun ho => ?_
  rw [hc.get?_of_grows hg hx (by simp [Instr.mentions, ho])]

theorem headers_eq_append (hc : c.Sound symbols) (hg : c.Grows d) {x : Instr} {h : SymbolId × String}
    (hx : d.instrs[c.instrs.size]? = some x) (hh : d.header? symbols x = some h)
    (hnew : ∀ i z, c.instrs.size ≤ i → d.instrs[i]? = some z → z.op = .header → i = c.instrs.size) :
    d.headers symbols = c.headers symbols ++ [(c.instrs.size, h)] := by
  have : Std.Irrefl fun a b : Nat × SymbolId × String => a.1 < b.1 := ⟨fun a => Nat.lt_irrefl a.1⟩
  have : Std.Antisymm fun a b : Nat × SymbolId × String => a.1 < b.1 := ⟨fun a b h k => by omega⟩
  refine (sorted_headers symbols d).eq_of_mem_iff ?_ ?_
  · refine List.pairwise_append.mpr ⟨sorted_headers symbols c, List.pairwise_singleton _ _, fun a ha b hb => ?_⟩
    obtain rfl := List.mem_singleton.mp hb
    exact headers_lt a ha
  · rintro ⟨i, k⟩
    rw [List.mem_append, List.mem_singleton, mem_headers, mem_headers, Prod.mk.injEq]
    constructor
    · rintro ⟨z, hz, hk⟩
      rcases Nat.lt_or_ge i c.instrs.size with hlt | hge
      · have hz' := hg.instr_of_lt hz hlt
        exact Or.inl ⟨z, hz', (hc.header?_of_grows hg hz').symm.trans hk⟩
      · obtain rfl := hnew i z hge hz (header?_eq_some.mp hk).1
        obtain rfl : z = x := by simpa [hx] using hz.symm
        exact Or.inr ⟨rfl, by simpa [hh] using hk.symm⟩
    · rintro (⟨z, hz, hk⟩ | ⟨rfl, rfl⟩)
      · exact ⟨z, hg.instrs i z hz, (hc.header?_of_grows hg hz).trans hk⟩
      · exact ⟨x, hx, hh⟩

theorem EndsInReturns.of_grows (h : c.EndsInReturns) (hg : c.Grows d)
    (hnew : ∀ i z, c.instrs.size ≤ i → d.instrs[i]? = some z → z.op = .header → i = c.instrs.size)
    (hlast : ∃ x, d.instrs.back? = some x ∧ x.op = .ret) : d.EndsInReturns := by
  intro i z hz hend
  rcases Nat.lt_or_ge i c.instrs.size with hlt | hge
  · refine h i z (hg.instr_of_lt hz hlt) ?_
    rcases Nat.lt_or_ge (i + 1) c.instrs.size with hlt' | hge'
    · rcases hend with hend | ⟨x, hx, hop⟩
      · have := hg.size_instrs
        omega
      · exact Or.inr ⟨x, hg.instr_of_lt hx hlt', hop⟩
    · exact Or.inl (by omega)
  · rcases hend with hend | ⟨x, hx, hop⟩
    · obtain ⟨x, hx, hret⟩ := hlast
      rw [Array.back?_eq_getElem?, ← hend, Nat.add_sub_cancel, hz] at hx
      cases hx
      exact hret
    · have := hnew (i + 1) x (by omega) hx hop
      omega

theorem Together.of_grows {i k : Nat} (h : c.Together i k) (hg : c.Grows d) (hi : i < c.instrs.size)
    (hk : k < c.instrs.size) : d.Together i k :=
  fun m x hlo hhi hx => h m x hlo hhi (hg.instr_of_lt hx (by omega))

theorem Together.mem_piece {p : Piece} (hp : p ∈ cut c.instrs.size (c.headers symbols)) {i k : Nat}
    (h : c.Together i k) (hfi : p.first ≤ i) (hil : i ≤ p.last) (hk : k < c.instrs.size) : p.first ≤ k ∧ k ≤ p.last := by
  obtain ⟨hmem, -, -, -, hnext⟩ := mem_cut headers_lt (sorted_headers symbols c) hp
  constructor
  · by_contra hlt
    obtain ⟨x, hx, hh⟩ := (mem_headers symbols c p.first _).mp hmem
    exact h p.first x (by omega) (by omega) hx (header?_eq_some.mp hh).1
  · by_contra hlt
    rcases hnext with hsize | ⟨q, hq, hpos⟩
    · omega
    · obtain ⟨x, hx, hh⟩ := (mem_headers symbols c q.1 q.2).mp hq
      exact h q.1 x (by omega) (by omega) hx (header?_eq_some.mp hh).1

theorem lt_of_places {y : OperandId} {k : Nat} (h : c.places y k = true) : k < c.instrs.size := by
  obtain ⟨x, hx, -⟩ := (places_iff c y k).mp h
  exact (Array.getElem?_eq_some_iff.mp hx).1

theorem Formed.empty (symbols : SymbolTable) : Formed symbols [] {} where
  sound := .empty symbols
  declared := rfl
  header := fun i z hz => by simp at hz
  entry := fun z hz => by simp at hz
  exit := fun i z hz => by simp at hz
  target := fun i z hz => by simp at hz
  label := fun y hy => by simp [Arena.isLabel, Arena.get?] at hy

end Code

theorem lowerDecl_formed {symbols : SymbolTable} {ds : List Decl} {e : Decl} {b b' : Builder} {u : Unit}
    (h : lowerDecl symbols e b = .ok u b') (hb : b.code.Formed symbols ds)
    (htyped : ∀ id s, e.function? = some id → symbols.get? id = some s → s.ty.isFunction = true) :
    b'.code.Formed symbols (ds ++ [e]) := by
  obtain ⟨hgrows, hsound⟩ := lowerDecl_sound h hb.sound
  cases e with
  | global id init =>
    rw [lowerGlobal_eq_ok h]
    exact ⟨hb.sound, by simp [hb.declared, Decl.function?], hb.header, hb.entry, hb.exit, hb.target, hb.label⟩
  | function id params body =>
    obtain ⟨hlands, hret⟩ := lowerFunction_lands h
    obtain ⟨c, s, hs, -, -, -, ⟨x, y, hx, hop, -, hres, -, hget⟩, hsteps⟩ := lowerFunction_steps h hb.sound
    have hnew : ∀ i z, b.code.instrs.size ≤ i → b'.code.instrs[i]? = some z → z.op = .header →
        i = b.code.instrs.size :=
      fun i z hi hz hop => ((lowerFunction_new h hb.sound hz hi).1 hop).1
    have hx' := hsteps.grows.instrs _ x hx
    have hhead : b'.code.header? symbols x = some (id, s.name) := header?_eq_some.mpr
      ⟨hop, y, s.operand id, s, hres, hsteps.grows.operands _ _ hget, rfl, hs, htyped id s rfl hs, rfl⟩
    have hheaders := headers_eq_append hb.sound hgrows hx' hhead hnew
    refine ⟨hsound, ?_, fun i z hz hop => ?_, fun z hz => ?_, hb.exit.of_grows hgrows hnew hret,
      fun i z hz hop => ?_, fun v hv => ?_⟩
    · rw [hheaders, List.map_append, hb.declared, List.filterMap_append]
      rfl
    · rw [hheaders]
      rcases Nat.lt_or_ge i b.code.instrs.size with hlt | hge
      · obtain ⟨k, hk⟩ := hb.header i z (hgrows.instr_of_lt hz hlt) hop
        exact ⟨k, List.mem_append_left _ hk⟩
      · obtain rfl := hnew i z hge hz hop
        exact ⟨(id, s.name), by simp⟩
    · rcases Nat.eq_zero_or_pos b.code.instrs.size with hzero | hpos
      · obtain rfl : x = z := by simpa [← hzero, hx'] using hz
        exact hop
      · exact hb.entry z (hgrows.instr_of_lt hz hpos)
    · rcases Nat.lt_or_ge i b.code.instrs.size with hlt | hge
      · obtain ⟨v, k, hv, hl, hp, htog⟩ := hb.target i z (hgrows.instr_of_lt hz hlt) hop
        exact ⟨v, k, hv, hgrows.isLabel hl, hgrows.places hp, htog.of_grows hgrows hlt (lt_of_places hp)⟩
      · obtain ⟨v, hv, hto⟩ := hlands.target i z hge hz hop
        obtain ⟨k, hk, hp⟩ := hto.resolve_left (by simp)
        refine ⟨v, k, hv, hlands.placed v k hk hp, hp, fun m q hlo _ hq hqop => ?_⟩
        have := hnew m q (by omega) hq hqop
        omega
    · rcases Nat.lt_or_ge v b.code.operands.size with hlt | hge
      · obtain ⟨k, hp⟩ := hb.label v (hgrows.isLabel_of_lt hlt hv)
        exact ⟨k, hgrows.places hp⟩
      · obtain ⟨k, -, hp⟩ := (hlands.label v hge hv).resolve_left (by simp)
        exact ⟨k, hp⟩

theorem lowerDecls_formed {symbols : SymbolTable} {ds es : List Decl} {b b' : Builder} {u : Unit}
    (h : lowerDecls symbols es b = .ok u b') (hb : b.code.Formed symbols ds)
    (htyped : ∀ e ∈ es, ∀ id s, e.function? = some id → symbols.get? id = some s → s.ty.isFunction = true) :
    b'.code.Formed symbols (ds ++ es) := by
  induction es generalizing ds b with
  | nil =>
    simp only [lowerDecls] at h
    obtain ⟨-, rfl⟩ := LowerM.pure_eq_ok.mp h
    rwa [List.append_nil]
  | cons e es ih =>
    simp only [lowerDecls, LowerM.bind_eq_ok] at h
    obtain ⟨_, b₁, he, hes⟩ := h
    rw [List.append_cons]
    exact ih hes (lowerDecl_formed he hb (htyped e (by simp))) fun d hd => htyped d (List.mem_cons_of_mem _ hd)

theorem Program.lower_formed {p : Program} {l : Lowered} (h : p.lower = .ok l) (htyped : p.FunctionsTyped) :
    l.code.Formed p.symbols p.decls := by
  obtain ⟨b, hb, hcode⟩ := lowerProgram_eq_ok h
  rw [hcode]
  exact lowerDecls_formed hb (.empty p.symbols) htyped

/-- A function that starts with its only header, ends with a return, and goes only to labels of its own. -/
structure Routine.WellFormed (symbols : SymbolTable) (c : Code) (r : Routine) : Prop where
  name : ∃ x name, c.instrs[r.first]? = some x ∧ c.header? symbols x = some (r.symbol, name)
  header : ∀ i x, r.first ≤ i → i ≤ r.last → c.instrs[i]? = some x → (x.op = .header ↔ i = r.first)
  ret : ∃ x, c.instrs[r.last]? = some x ∧ x.op = .ret
  target : ∀ i x, r.first ≤ i → i ≤ r.last → c.instrs[i]? = some x → (x.op = .jump ∨ x.op = .branch) →
    ∃ label k, x.target? = some label ∧ c.operands.isLabel label = true ∧ c.places label k = true ∧
      r.first ≤ k ∧ k ≤ r.last

namespace Code.Formed

variable {symbols : SymbolTable} {ds : List Decl} {c : Code}

theorem piece_target (hc : c.Formed symbols ds) {p : Piece} (hp : p ∈ cut c.instrs.size (c.headers symbols)) {i : Nat}
    {x : Instr} (hfi : p.first ≤ i) (hil : i ≤ p.last) (hx : c.instrs[i]? = some x)
    (hop : x.op = .jump ∨ x.op = .branch) : ∃ label k, x.target? = some label ∧ c.operands.isLabel label = true ∧
      c.places label k = true ∧ p.first ≤ k ∧ k ≤ p.last := by
  obtain ⟨y, k, hy, hl, hpl, htog⟩ := hc.target i x hx hop
  exact ⟨y, k, hy, hl, hpl, htog.mem_piece hp hfi hil (lt_of_places hpl)⟩

theorem exists_routines (hc : c.Formed symbols ds) : ∃ rs, c.routines symbols = .ok rs := by
  have hpieces : c.pieces symbols = .ok (cut c.instrs.size (c.headers symbols)) := by
    refine pieces_eq_ok_iff.mpr ⟨?_, rfl⟩
    rcases Nat.eq_zero_or_pos c.instrs.size with hzero | hpos
    · exact Or.inl hzero
    · have hz : c.instrs[0]? = some c.instrs[0] := Array.getElem?_eq_getElem hpos
      obtain ⟨h, hh⟩ := hc.header 0 _ hz (hc.entry _ hz)
      exact Or.inr (head?_headers hh)
  have hbuild : ∀ p ∈ cut c.instrs.size (c.headers symbols), ∃ r, c.routine p = .ok r := by
    intro p hp
    obtain ⟨-, hfl, hl, -, -⟩ := mem_cut headers_lt (sorted_headers symbols c) hp
    have hplaced : c.TargetsPlaced p.first p.last := by
      intro i x hfi hil hx hop
      obtain ⟨y, k, hy, -, hpl, hfk, hkl⟩ := hc.piece_target hp hfi hil hx hop
      obtain ⟨j, hj⟩ := exists_labelAt? hfk hkl hpl
      exact ⟨y, j, hy, hj⟩
    obtain ⟨g, hg⟩ := (FlowGraph.exists_build_iff hc.sound.numbered p.name hfl hl).mpr hplaced
    exact ⟨_, Except.bind_eq_ok.mpr ⟨g, hg, rfl⟩⟩
  obtain ⟨rs, hrs⟩ := exists_mapM_eq_ok hbuild
  exact ⟨rs, Except.bind_eq_ok.mpr ⟨_, hpieces, hrs⟩⟩

theorem routine_wellFormed (hc : c.Formed symbols ds) {rs : List Routine} (hrs : c.routines symbols = .ok rs)
    {r : Routine} (hr : r ∈ rs) : r.WellFormed symbols c := by
  obtain ⟨p, hp, hpr⟩ := (mem_of_forall₂ (routines_become hrs)).1 r hr
  obtain ⟨hmem, hfl, hl, hbetween, hnext⟩ := mem_cut headers_lt (sorted_headers symbols c) hp
  obtain ⟨x, hx, hh⟩ := (mem_headers symbols c p.first _).mp hmem
  rw [← hpr.first] at hx
  refine ⟨⟨x, p.name, hx, hpr.symbol ▸ hh⟩, fun i z hfi hil hz => ?_, ?_, fun i z hfi hil hz hop => ?_⟩
  · rw [hpr.first] at hfi hx ⊢
    rw [hpr.last] at hil
    constructor
    · intro hop
      obtain ⟨k, hk⟩ := hc.header i z hz hop
      have := hbetween _ hk
      dsimp only at this
      omega
    · rintro rfl
      obtain rfl : x = z := by simpa [hx] using hz
      exact (header?_eq_some.mp hh).1
  · have hz : c.instrs[p.last]? = some c.instrs[p.last] := Array.getElem?_eq_getElem hl
    rw [hpr.last]
    refine ⟨_, hz, hc.exit _ _ hz ?_⟩
    rcases hnext with hsize | ⟨q, hq, hpos⟩
    · exact Or.inl hsize
    · obtain ⟨w, hw, hk⟩ := (mem_headers symbols c q.1 q.2).mp hq
      exact Or.inr ⟨w, hpos ▸ hw, (header?_eq_some.mp hk).1⟩
  · rw [hpr.first] at hfi ⊢
    rw [hpr.last] at hil ⊢
    exact hc.piece_target hp hfi hil hz hop

end Code.Formed

/-- Lowered code is well formed. In the code of a program whose functions have function types, instructions are
numbered by position and every label that is mentioned is placed once. Flow graphs can be built, there is one
function for each that was declared, in that order, they take up the whole code, and each of them is well
formed. -/
theorem lowered_code_is_well_formed (p : Program) (htyped : p.FunctionsTyped) (l : Lowered) (hl : p.lower = .ok l) :
    l.code.Numbered ∧
    (∀ (i : Nat) (x : Instr), l.code.instrs[i]? = some x → ∀ y ∈ x.mentions, l.code.operands.isLabel y = true →
      ∃! k, l.code.places y k = true) ∧
    ∃ rs, l.code.routines p.symbols = .ok rs ∧ rs.map (·.symbol) = p.decls.filterMap Decl.function? ∧
      Spans l.code.instrs.size 0 (rs.map fun r => (r.first, r.last)) ∧ ∀ r ∈ rs, r.WellFormed p.symbols l.code := by
  have hc := Program.lower_formed hl htyped
  refine ⟨hc.sound.numbered, fun i x _ y _ hy => ?_, ?_⟩
  · obtain ⟨k, hk⟩ := hc.label y hy
    exact ⟨k, hk, fun j hj => hc.sound.once y j k hj hk⟩
  · obtain ⟨rs, hrs⟩ := hc.exists_routines
    exact ⟨rs, hrs, (Code.routines_symbols hrs).trans hc.declared, Code.routines_spans hrs,
      fun r hr => hc.routine_wellFormed hrs hr⟩

/-- Two functions with a global variable between them:

    int f(int n) { while (n) { if (n) break; else if (n) return n; else continue; } }
    int total;
    void g() { for (;;) {} } -/
def spinner : Program where
  symbols.symbols := #[
    { name := "f", kind := .function, ty := .function [.int] .int },
    { name := "n", kind := .param, ty := .int },
    { name := "total", kind := .globalVar, ty := .int },
    { name := "g", kind := .function, ty := .function [] .void }]
  decls := [
    .function 0 [1] (.whileLoop (.name 1 .int) (.cond (.arm (.name 1 .int) .leave
      (.arm (.name 1 .int) (.ret (some (.name 1 .int))) (.otherwise .next))))),
    .global 2 none,
    .function 3 [] (.loop .skip none .skip .skip)]

/-- Neither function ends in a return of its own, and both are well formed. -/
theorem spinner_well_formed : spinner.FunctionsTyped ∧ ∃ l, spinner.lower = .ok l ∧ ∃ rs,
    l.code.routines spinner.symbols = .ok rs ∧ rs.map (·.symbol) = [0, 3] ∧
      ∀ r ∈ rs, r.WellFormed spinner.symbols l.code := by
  have htyped : spinner.FunctionsTyped := by decide
  have hrun : spinner.lower.toOption.isSome = true := by decide +kernel
  cases hl : spinner.lower with
  | error e => rw [hl] at hrun; cases hrun
  | ok l =>
    obtain ⟨-, -, rs, hrs, hsymbols, -, hall⟩ := lowered_code_is_well_formed spinner htyped l hl
    exact ⟨htyped, l, rfl, rs, hrs, hsymbols, hall⟩

end MiddleEnd
