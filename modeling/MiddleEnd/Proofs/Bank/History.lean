import MiddleEnd.Proofs.Bank
import MiddleEnd.Proofs.FirstOccurrences

/-! Operands that are asked for and written on, request by request. Symbols, temporaries, labels and integers ask for
operands; in between, any operand can be given a register, put in the frame or kept out of registers. Whatever was
asked, an id names what it named at first, a symbol has one operand and no other has it, no operand is in two places,
and what is noted on an operand can be read off the requests. -/

namespace MiddleEnd.Bank

/-- What a bank is asked for: the id of an operand, or a note on one. -/
inductive Request where
  | symbol (id : SymbolId) (s : Symbol)
  | temp (t : Temp) (tag : Tag)
  | label (l : Label)
  | int (value : Int64)
  | assign (x : OperandId) (reg : Register)
  | spill (x : OperandId)
  | restrict (x : OperandId) (regs : List Register)

namespace Request

/-- The operand that is asked for, as it is when it is new. -/
def cell? : Request → Option Cell
  | symbol id s => some (s.cell id)
  | temp t tag => some { kind := .temp t tag, isValue := true }
  | label l => some { kind := .label l, isValue := false }
  | int value => some { kind := .int value, isValue := false }
  | _ => none

def subject? : Request → Option OperandId
  | assign x _ | spill x | restrict x _ => some x
  | _ => none

/-- The operand that a note is made on is one of the first `n`. -/
def Fits (n : Nat) (e : Request) : Prop := ∀ x ∈ e.subject?, x < n

instance (n : Nat) (e : Request) : Decidable (e.Fits n) := inferInstanceAs (Decidable (∀ x ∈ e.subject?, x < n))

def answer? (b : Bank) : Request → Option OperandId
  | symbol id s => some (b.symbol id s).1
  | temp t tag => some (b.temp t tag).1
  | label l => some (b.label l).1
  | int value => some (b.int value).1
  | _ => none

/-- The bank afterwards, unless the request fails. -/
def serve (b : Bank) : Request → Except Fault Bank
  | symbol id s => .ok (b.symbol id s).2
  | temp t tag => .ok (b.temp t tag).2
  | label l => .ok (b.label l).2
  | int value => .ok (b.int value).2
  | assign x reg => b.assign x reg
  | spill x => b.spill x
  | restrict x regs => b.restrict x regs

/-- The bank afterwards; a request that fails changes nothing. -/
def apply (b : Bank) (e : Request) : Bank := (e.serve b).toOption.getD b

/-- What becomes of operand `x`. -/
def note (x : OperandId) (c : Cell) : Request → Cell
  | assign y reg => if y = x then (c.assign reg).toOption.getD c else c
  | spill y => if y = x then c.spill else c
  | restrict y regs => if y = x then c.restrict regs else c
  | _ => c

def given? (x : OperandId) : Request → Option Register
  | assign y reg => if y = x then some reg else none
  | _ => none

def barred (x : OperandId) : Request → List Register
  | restrict y regs => if y = x then regs else []
  | _ => []

end Request

/-- The bank after requests that were made of an empty one. -/
def after (es : List Request) : Bank := es.foldl Request.apply {}

/-- Each request finds the operand that it makes a note on. -/
def Orderly : Bank → List Request → Prop
  | _, [] => True
  | b, e :: es => e.Fits b.size ∧ Orderly (e.apply b) es

instance decidableOrderly : (b : Bank) → (es : List Request) → Decidable (Orderly b es)
  | _, [] => .isTrue trivial
  | b, e :: es => @instDecidableAnd _ _ _ (decidableOrderly (e.apply b) es)

theorem Orderly.of_append {b : Bank} {es fs : List Request} (h : Orderly b (es ++ fs)) : Orderly b es := by
  induction es generalizing b with
  | nil => trivial
  | cons e es ih => exact ⟨h.1, ih h.2⟩

/-! ### One request -/

/-- Bank `b` answers a request with `x?` and is `d` afterwards: the symbol has an operand already, or a new operand
comes in at the end, or a note is made. -/
inductive Serves (b : Bank) : Request → Option OperandId → Bank → Prop
  | found {s : SymbolId} {d : Symbol} {y : OperandId} (hintern : b.interned[s]? = some y) :
      Serves b (.symbol s d) (some y) b
  | added {e : Request} {c : Cell} {d : Bank} (hasked : e.cell? = some c)
      (hfirst : ∀ s, c.kind = .symbol s → b.interned[s]? = none)
      (hget : ∀ y, d.get? y = if y = b.size then some c else b.get? y)
      (hintern : ∀ s : SymbolId, d.interned[s]? = if c.kind = .symbol s then some b.size else b.interned[s]?) :
      Serves b e (some b.size) d
  | noted {e : Request} {d : Bank} (hget : ∀ y, d.get? y = (b.get? y).map fun c => e.note y c)
      (hintern : d.interned = b.interned) : Serves b e none d

theorem serves_push (b : Bank) {e : Request} {c : Cell} (hasked : e.cell? = some c)
    (hkind : ∀ s, c.kind ≠ .symbol s) : Serves b e (some b.size) (b.push c).2 := by
  refine .added hasked (fun s hs => absurd hs (hkind s)) (b.get?_push c) fun s => ?_
  rw [if_neg (hkind s)]
  rfl

theorem serves_update (b : Bank) {e : Request} {x : OperandId} {f : Cell → Except Fault Cell}
    (hserve : e.serve b = b.update x f) (hnote : ∀ y c, e.note y c = if x = y then (f c).toOption.getD c else c) :
    Serves b e none (e.apply b) := by
  rw [Request.apply, hserve]
  cases h : b.update x f with
  | ok d =>
    obtain ⟨c, c', hc, hc', hintern, hget⟩ := update_eq_ok.mp h
    refine .noted (fun y => ?_) hintern
    rw [Except.toOption, Option.getD_some, hget]
    split
    case isTrue hxy =>
      subst hxy
      rw [hc, Option.map_some, hnote, if_pos rfl, hc']
      rfl
    case isFalse hxy =>
      simp only [hnote, if_neg hxy, Option.map_id_fun', id_eq]
  | error fault =>
    refine .noted (fun y => ?_) rfl
    cases hy : b.get? y with
    | none => exact hy
    | some c =>
      rw [Option.map_some, hnote]
      split
      case isTrue hxy =>
        subst hxy
        have hrefused : f c = .error fault := by
          simpa [update, fetch_of_get? hy, Except.bind_eq_error, pure, Except.pure] using h
        rw [hrefused]
        exact hy
      case isFalse => exact hy

theorem serves (b : Bank) (e : Request) : Serves b e (e.answer? b) (e.apply b) := by
  cases e with
  | symbol id s =>
    obtain ⟨y, hy, h⟩ | ⟨hnone, hfst, hget, hintern⟩ := b.symbol_cases id s
    · rw [Request.answer?, Request.apply, Request.serve, h]
      exact .found hy
    · rw [Request.answer?, hfst]
      refine .added rfl (fun t ht => ?_) hget fun t => (hintern t).trans ?_
      · cases ht
        exact hnone
      · simp [Symbol.cell, eq_comm]
  | temp t tag => exact b.serves_push rfl (by simp)
  | label l => exact b.serves_push rfl (by simp)
  | int value => exact b.serves_push rfl (by simp)
  | assign x reg => exact b.serves_update rfl fun _ _ => rfl
  | spill x => exact b.serves_update rfl fun _ _ => rfl
  | restrict x regs => exact b.serves_update rfl fun _ _ => rfl

/-! ### Notes -/

namespace Request

variable (e : Request) (x : OperandId) (c : Cell)

theorem kept_note : (e.note x c).kind = c.kind ∧ (e.note x c).isValue = c.isValue := by
  cases e with
  | assign y reg =>
    rw [note, Cell.getD_assign]
    repeat' split
    all_goals exact ⟨rfl, rfl⟩
  | spill y =>
    rw [note]
    split <;> exact ⟨rfl, rfl⟩
  | restrict y regs =>
    rw [note]
    split <;> exact ⟨rfl, rfl⟩
  | _ => exact ⟨rfl, rfl⟩

theorem inFrame_note : (e.note x c).inFrame = true ↔ c.inFrame = true ∨ e = .spill x := by
  cases e with
  | assign y reg =>
    simp only [note, Cell.getD_assign]
    repeat' split
    all_goals simp
  | spill y =>
    simp only [note]
    split
    case isTrue hy => simp [hy, Cell.spill]
    case isFalse hy => simp [hy]
  | restrict y regs =>
    simp only [note]
    split <;> simp [Cell.restrict]
  | _ => simp [note]

theorem apart_note {c : Cell} (h : c.Apart) : (e.note x c).Apart := by
  cases e with
  | assign y reg =>
    rw [note, Cell.getD_assign]
    repeat' split
    case isTrue.isFalse hout => exact fun hboth => hout hboth.2
    all_goals exact h
  | spill y =>
    rw [note]
    split
    case isTrue => simp [Cell.Apart, Cell.spill]
    case isFalse => exact h
  | restrict y regs =>
    rw [note]
    split <;> exact h
  | _ => exact h

theorem register_note (hout : (e.note x c).inFrame = false) : (e.note x c).register = (e.given? x).or c.register := by
  cases e with
  | assign y reg =>
    simp only [note, given?, Cell.getD_assign] at hout ⊢
    by_cases hy : y = x
    · rw [if_pos hy] at hout
      have hin : c.inFrame = false := by
        by_contra hin
        rw [if_pos (by simpa using hin)] at hout
        exact hin hout
      simp [hy, hin]
    · simp [hy]
  | spill y =>
    simp only [note, given?, Option.none_or] at hout ⊢
    split at hout
    case isTrue => cases hout
    case isFalse hy => rw [if_neg hy]
  | restrict y regs =>
    simp only [note, given?, Option.none_or]
    split <;> rfl
  | _ => rfl

theorem restricted_note : (e.note x c).restricted =
    (e.barred x).foldl (fun rs r => if r ∈ rs then rs else rs ++ [r]) c.restricted := by
  cases e with
  | assign y reg =>
    simp only [note, barred, Cell.getD_assign, List.foldl_nil]
    repeat' split
    all_goals rfl
  | spill y =>
    simp only [note, barred, List.foldl_nil]
    split <;> rfl
  | restrict y regs =>
    simp only [note, barred]
    split <;> rfl
  | _ => rfl

variable {e} {x}

theorem note_of_cell? {c' : Cell} (h : e.cell? = some c') : e.note x c = c := by
  cases e with
  | symbol | temp | label | int => rfl
  | assign | spill | restrict => cases h

end Request

/-- The notes on operand `x` are those of the requests: it is in the frame once it was put there, else in the register
that it was given last, and kept out of all registers that were named for it, in the order they were named. -/
structure Bears (es : List Request) (x : OperandId) (c : Cell) : Prop where
  inFrame : c.inFrame = true ↔ .spill x ∈ es
  register : c.inFrame = false → c.register = (es.filterMap (·.given? x)).getLast?
  apart : c.Apart
  restricted : c.restricted = (es.flatMap (·.barred x)).eraseDups

theorem Bears.note {es : List Request} {x : OperandId} {c : Cell} (h : Bears es x c) (e : Request) :
    Bears (es ++ [e]) x (e.note x c) where
  inFrame := by
    rw [e.inFrame_note, h.inFrame, List.mem_append, List.mem_singleton, eq_comm]
  register hout := by
    have hbefore : c.inFrame = false := by
      by_contra hin
      rw [(e.inFrame_note x c).mpr (Or.inl (by simpa using hin))] at hout
      cases hout
    rw [e.register_note x c hout, h.register hbefore, List.filterMap_append, List.getLast?_append]
    cases hgiven : e.given? x <;> simp [hgiven]
  apart := e.apart_note x h.apart
  restricted := by
    rw [e.restricted_note, h.restricted, foldl_eraseDups, List.flatMap_append, List.flatMap_singleton]

theorem bears_new {es : List Request} {x : OperandId} (h : ∀ e ∈ es, e.subject? ≠ some x) {e : Request} {c : Cell}
    (hc : e.cell? = some c) : Bears es x c := by
  have hnew : c.register = none ∧ c.inFrame = false ∧ c.restricted = [] := by
    cases e <;> cases hc <;> exact ⟨rfl, rfl, rfl⟩
  refine ⟨?_, fun _ => ?_, fun hboth => ?_, ?_⟩
  · have hspill : .spill x ∉ es := fun hx => h _ hx rfl
    simp [hnew.2.1, hspill]
  · have hgiven : es.filterMap (·.given? x) = [] := by
      refine List.filterMap_eq_nil_iff.mpr fun e he => ?_
      have := h e he
      cases e <;> simp_all [Request.given?, Request.subject?]
    rw [hgiven, hnew.1]
    rfl
  · rw [hnew.1] at hboth
    cases hboth.1
  · have hbarred : es.flatMap (·.barred x) = [] := by
      refine List.flatMap_eq_nil_iff.mpr fun e he => ?_
      have := h e he
      cases e <;> simp_all [Request.barred, Request.subject?]
    rw [hbarred, hnew.2.2]
    rfl

/-! ### Runs of requests -/

/-- The operand of a symbol is the one of its kind. -/
def Interns (b : Bank) : Prop :=
  ∀ (s : SymbolId) (x : OperandId), b.interned[s]? = some x ↔ ∃ c, b.get? x = some c ∧ c.kind = .symbol s

namespace Serves

variable {b d : Bank} {e : Request} {x? : Option OperandId} {y : OperandId}

theorem get?_of_get? (h : Serves b e x? d) {c : Cell} (hc : b.get? y = some c) : d.get? y = some (e.note y c) := by
  cases h with
  | found => exact hc
  | added hasked _ hget _ =>
    rw [hget, if_neg (Nat.ne_of_lt (lt_size_of_get? hc)), hc, Request.note_of_cell? c hasked]
  | noted hget _ => rw [hget, hc, Option.map_some]

theorem origin (h : Serves b e x? d) {c' : Cell} (hc' : d.get? y = some c') :
    (∃ c, b.get? y = some c ∧ c' = e.note y c) ∨ (y = b.size ∧ e.cell? = some c') := by
  cases hc : b.get? y with
  | some c => exact Or.inl ⟨c, rfl, Option.some.inj (hc'.symm.trans (h.get?_of_get? hc))⟩
  | none =>
    cases h with
    | found => rw [hc] at hc'; cases hc'
    | added hasked _ hget _ =>
      rw [hget, hc] at hc'
      split at hc'
      case isTrue hy => exact Or.inr ⟨hy, hasked.trans hc'⟩
      case isFalse => cases hc'
    | noted hget _ => rw [hget, hc] at hc'; cases hc'

theorem size_le (h : Serves b e x? d) : b.size ≤ d.size := by
  by_contra hlt
  obtain ⟨c, hc⟩ := exists_of_lt_size (Nat.lt_of_not_le hlt)
  exact absurd (lt_size_of_get? (h.get?_of_get? hc)) (Nat.lt_irrefl _)

theorem interns (h : Serves b e x? d) (hb : b.Interns) : d.Interns := by
  intro s x
  cases h with
  | found => exact hb s x
  | @added _ c _ _ hfirst hget hintern =>
    rw [hintern, hget]
    by_cases hkind : c.kind = .symbol s <;> by_cases hx : x = b.size
    · simp [hkind, hx]
    · -- the symbol had no operand, so no other is of its kind
      have hnone := hb s x
      rw [hfirst s hkind] at hnone
      simp [hkind, hx, Ne.symm hx, ← hnone]
    · -- no symbol had the new id
      have hnew : b.interned[s]? ≠ some b.size := by
        intro hmem
        obtain ⟨c, hc, -⟩ := (hb s b.size).mp hmem
        exact absurd (lt_size_of_get? hc) (Nat.lt_irrefl _)
      simp [hkind, hx, hnew]
    · simp only [hkind, hx, if_false, hb s x]
  | noted hget hintern =>
    rw [hintern, hb s x, hget]
    simp [(Request.kept_note e x _).1]

theorem answer {x : OperandId} (h : Serves b e (some x) d) (hb : b.Interns) :
    ∃ c, d.get? x = some c ∧ e.cell?.map (·.kind) = some c.kind ∧ (x = b.size → e.cell? = some c) := by
  cases h with
  | found hintern =>
    obtain ⟨c, hc, hkind⟩ := (hb _ x).mp hintern
    refine ⟨c, hc, by rw [hkind]; rfl, fun hx => ?_⟩
    exact absurd (lt_size_of_get? hc) (hx ▸ Nat.lt_irrefl _)
  | @added _ c _ hasked _ hget _ => exact ⟨c, by rw [hget, if_pos rfl], by rw [hasked]; rfl, fun _ => hasked⟩

end Serves

structure Told (es : List Request) (b : Bank) : Prop where
  fits : ∀ e ∈ es, e.Fits b.size
  interns : b.Interns
  bears : ∀ x c, b.get? x = some c → Bears es x c

theorem Told.step {es : List Request} {b d : Bank} (h : Told es b) {e : Request} {x? : Option OperandId}
    (hserves : Serves b e x? d) (he : e.Fits b.size) : Told (es ++ [e]) d := by
  have hfits : ∀ f ∈ es ++ [e], f.Fits b.size := by
    intro f hf
    rcases List.mem_append.mp hf with hf | hf
    · exact h.fits f hf
    · rw [List.mem_singleton.mp hf]
      exact he
  refine ⟨fun f hf x hx => Nat.lt_of_lt_of_le (hfits f hf x hx) hserves.size_le, hserves.interns h.interns, ?_⟩
  intro x c' hc'
  obtain ⟨c, hc, rfl⟩ | ⟨rfl, hasked⟩ := hserves.origin hc'
  · exact (h.bears x c hc).note e
  · exact bears_new (fun f hf hx => Nat.lt_irrefl _ (hfits f hf _ hx)) hasked

theorem Told.run {es fs : List Request} {b : Bank} (h : Told es b) (hfs : Orderly b fs) :
    Told (es ++ fs) (fs.foldl Request.apply b) := by
  induction fs generalizing es b with
  | nil => rwa [List.append_nil]
  | cons e fs ih =>
    have hstep := ih (h.step (b.serves e) hfs.1) hfs.2
    rwa [List.append_assoc, List.singleton_append] at hstep

theorem told_after {es : List Request} (h : Orderly {} es) : Told es (after es) := by
  have hnone : ∀ x, get? {} x = none := fun _ => Array.getElem?_empty
  have hempty : Told [] {} := by
    refine ⟨fun _ hf => absurd hf List.not_mem_nil, fun s x => ?_, fun x c hc => ?_⟩
    · simp [hnone]
    · rw [hnone] at hc
      cases hc
  exact hempty.run h

theorem after_append (es fs : List Request) : after (es ++ fs) = fs.foldl Request.apply (after es) :=
  List.foldl_append

theorem kept_run {b : Bank} {x : OperandId} {c : Cell} (hc : b.get? x = some c) (fs : List Request) :
    ∃ c', (fs.foldl Request.apply b).get? x = some c' ∧ c'.kind = c.kind ∧ c'.isValue = c.isValue := by
  induction fs generalizing b c with
  | nil => exact ⟨c, hc, rfl, rfl⟩
  | cons e fs ih =>
    obtain ⟨c', hc', hkind, hvalue⟩ := ih ((b.serves e).get?_of_get? hc)
    exact ⟨c', hc', hkind.trans (e.kept_note x c).1, hvalue.trans (e.kept_note x c).2⟩

theorem interned_of_asked {es p : List Request} {s : SymbolId} {d : Symbol} (h : Orderly {} es)
    (hp : p ++ [.symbol s d] <+: es) : (after es).interned[s]? = some ((after p).symbol s d).1 := by
  obtain ⟨fs, rfl⟩ := hp
  have hasked : (after (p ++ [.symbol s d])).interned[s]? = some ((after p).symbol s d).1 := by
    rw [after_append]
    exact (after p).interned_symbol s d
  obtain ⟨c, hc, hkind⟩ := ((told_after h.of_append).interns s _).mp hasked
  obtain ⟨c', hc', hkept, -⟩ := kept_run hc fs
  rw [← after_append] at hc'
  exact ((told_after h).interns s _).mpr ⟨c', hc', hkept.trans hkind⟩

theorem Bears.later {es fs : List Request} {x : OperandId} {c c' : Cell} (h : Bears es x c)
    (k : Bears (es ++ fs) x c') : c.restricted <+: c'.restricted ∧ (c.inFrame = true → c'.inFrame = true) := by
  constructor
  · rw [h.restricted, k.restricted, List.flatMap_append]
    exact eraseDups_append_extends _ _
  · rw [h.inFrame, k.inFrame]
    exact List.mem_append_left fs

theorem Bears.mem_restricted_iff {es : List Request} {x : OperandId} {c : Cell} (h : Bears es x c) (reg : Register) :
    reg ∈ c.restricted ↔ ∃ regs, .restrict x regs ∈ es ∧ reg ∈ regs := by
  have hbarred : ∀ e : Request, reg ∈ e.barred x ↔ ∃ regs, e = .restrict x regs ∧ reg ∈ regs := by
    intro e
    cases e <;> simp [Request.barred]
  rw [h.restricted, List.mem_eraseDups, List.mem_flatMap]
  simp only [hbarred]
  grind

/-! ### Requests of arenas -/

namespace Request

/-- The arena after the request, unless it fails. -/
def serveArena (a : Arena) : Request → Except Fault Arena
  | symbol id s => .ok (a.symbol id s).2
  | temp t tag => .ok (a.temp t tag).2
  | label l => .ok (a.label l).2
  | int value => .ok (a.int value).2
  | assign x reg => a.assign x reg
  | spill x => .ok (a.spill x)
  | restrict x regs => .ok (a.restrict x regs)

/-- On operands that are in one place each, a request does to what is stored what it does to the arena. -/
theorem serve_bank {a : Arena} {e : Request} (he : e.Fits a.size) : e.serve a.bank = (e.serveArena a).map Arena.bank := by
  cases e with
  | symbol id s => rw [serve, a.bank_symbol]; rfl
  | temp t tag => exact congrArg Except.ok (a.bank_push { kind := .temp t tag, isValue := true }).symm
  | label l => exact congrArg Except.ok (a.bank_push { kind := .label l, isValue := false }).symm
  | int value => exact congrArg Except.ok (a.bank_push { kind := .int value, isValue := false }).symm
  | assign x reg =>
    obtain ⟨o, ho⟩ := Arena.exists_of_lt_size (he x rfl)
    exact Arena.assign_bank ho reg
  | spill x =>
    obtain ⟨o, ho⟩ := Arena.exists_of_lt_size (he x rfl)
    exact Arena.spill_bank ho
  | restrict x regs =>
    obtain ⟨o, ho⟩ := Arena.exists_of_lt_size (he x rfl)
    exact Arena.restrict_bank ho regs

theorem fits_of_serve {b d : Bank} {e : Request} (h : e.serve b = .ok d) : e.Fits b.size := by
  have hupdate : ∀ {x : OperandId} {f : Cell → Except Fault Cell}, b.update x f = .ok d → x < b.size := by
    intro x f hx
    obtain ⟨c, -, hc, -⟩ := update_eq_ok.mp hx
    exact lt_size_of_get? hc
  intro x hx
  cases e with
  | symbol | temp | label | int => cases hx
  | assign | spill | restrict =>
    cases hx
    exact hupdate h

theorem exists_of_serve {a : Arena} {e : Request} {d : Bank} (h : e.serve a.bank = .ok d) :
    ∃ a', e.serveArena a = .ok a' ∧ a'.bank = d := by
  rw [serve_bank (a.size_bank ▸ fits_of_serve h)] at h
  cases ha : e.serveArena a with
  | error fault => rw [ha] at h; cases h
  | ok a' => exact ⟨a', rfl, by rw [ha] at h; exact Except.ok.inj h⟩

def applyArena (a : Arena) (e : Request) : Arena := (e.serveArena a).toOption.getD a

theorem apply_bank {a : Arena} {e : Request} (he : e.Fits a.size) : e.apply a.bank = (e.applyArena a).bank := by
  rw [apply, serve_bank he, applyArena]
  cases e.serveArena a <;> rfl

end Request

theorem foldl_apply_bank {a : Arena} {es : List Request} (h : Orderly a.bank es) :
    es.foldl Request.apply a.bank = (es.foldl Request.applyArena a).bank := by
  induction es generalizing a with
  | nil => rfl
  | cons e es ih =>
    have hstep := Request.apply_bank (a.size_bank ▸ h.1)
    rw [List.foldl_cons, List.foldl_cons, hstep]
    exact ih (hstep ▸ h.2)

/-- The bank comes from an empty one by requests none of which failed. -/
def Reachable (b : Bank) : Prop := ∃ es : List Request, es.foldlM (fun b e => e.serve b) {} = .ok b

theorem Reachable.exists_arena {b : Bank} (h : b.Reachable) : ∃ a : Arena, a.bank = b := by
  obtain ⟨es, h⟩ := h
  refine foldlM_preserves (P := fun b => ∃ a : Arena, a.bank = b) ?_ h ⟨{}, Arena.bank_empty⟩
  rintro _ e d - ⟨a, rfl⟩ hserve
  obtain ⟨a', -, ha'⟩ := Request.exists_of_serve hserve
  exact ⟨a', ha'⟩

/-- Operands stay consistent. An id that is handed out is of the operand that was asked for, and goes on naming it: its
kind and whether it is a value never change. Two symbols get the same operand exactly when they are the same, and the
operand of a symbol is the one of its kind. An operand is in the frame exactly when it was put there; else it is in the
register that it was given last. Its two marks never contradict each other, so its location can always be read. From
the frame nothing takes it back: there it is refused every register, and stays as it is. The registers that it is kept
out of are those that were named for it, each once, and new ones come at the end. Read with their locations, the
operands make up the arena that the same requests lead to. -/
theorem bank_stays_consistent (es : List Request) (h : Orderly {} es) :
    (∀ p e x, p ++ [e] <+: es → e.answer? (after p) = some x →
      ∃ c, (after (p ++ [e])).get? x = some c ∧ e.cell?.map (·.kind) = some c.kind ∧
        (x = (after p).size → e.cell? = some c)) ∧
    (∀ p q s t d d', p ++ [.symbol s d] <+: es → q ++ [.symbol t d'] <+: es →
      (((after p).symbol s d).1 = ((after q).symbol t d').1 ↔ s = t)) ∧
    (∀ (s : SymbolId) x, (after es).interned[s]? = some x ↔ ∃ c, (after es).get? x = some c ∧ c.kind = .symbol s) ∧
    (∀ x c, (after es).get? x = some c →
      (c.inFrame = true ↔ .spill x ∈ es) ∧
      (c.inFrame = false → c.register = (es.filterMap (·.given? x)).getLast?) ∧
      ¬(c.register.isSome = true ∧ c.inFrame = true) ∧ (∃ place, c.location = .ok place) ∧
      c.restricted.Nodup ∧ c.restricted = (es.flatMap (·.barred x)).eraseDups ∧
      ∀ reg, reg ∈ c.restricted ↔ ∃ regs, .restrict x regs ∈ es ∧ reg ∈ regs) ∧
    (∀ p x c, p <+: es → (after p).get? x = some c →
      ∃ c', (after es).get? x = some c' ∧ c'.kind = c.kind ∧ c'.isValue = c.isValue ∧ c.restricted <+: c'.restricted ∧
        (c.inFrame = true → c'.inFrame = true ∧
          ∀ reg, (after p).assign x reg = .error .assignedInFrame ∧ after (p ++ [.assign x reg]) = after p)) ∧
    (after es).arena = .ok (es.foldl Request.applyArena {}) := by
  have told := told_after h
  refine ⟨fun p e x hp hx => ?_, fun p q s t d d' hs ht => ?_, told.interns, fun x c hc => ?_, fun p x c hp hc => ?_, ?_⟩
  · obtain ⟨fs, rfl⟩ := hp
    have hserves := (after p).serves e
    rw [hx] at hserves
    rw [after_append]
    exact hserves.answer (told_after h.of_append.of_append).interns
  · have hs := interned_of_asked h hs
    have ht := interned_of_asked h ht
    constructor
    · intro hid
      obtain ⟨c, hc, hkind⟩ := (told.interns s _).mp hs
      obtain ⟨c', hc', hkind'⟩ := (told.interns t _).mp ht
      rw [← hid, hc, Option.some.injEq] at hc'
      rw [← hc', hkind] at hkind'
      exact OperandKind.symbol.inj hkind'
    · rintro rfl
      exact Option.some.inj (hs.symm.trans ht)
  · have hbears := told.bears x c hc
    refine ⟨hbears.inFrame, hbears.register, hbears.apart, Cell.location_eq_ok_iff.mpr hbears.apart, ?_,
      hbears.restricted, hbears.mem_restricted_iff⟩
    rw [hbears.restricted]
    exact nodup_eraseDups _
  · obtain ⟨fs, rfl⟩ := hp
    obtain ⟨c', hc', hkind, hvalue⟩ := kept_run hc fs
    rw [← after_append] at hc'
    obtain ⟨hbegins, hframe⟩ := ((told_after h.of_append).bears x c hc).later (told.bears x c' hc')
    refine ⟨c', hc', hkind, hvalue, hbegins, fun hin => ⟨hframe hin, fun reg => ?_⟩⟩
    have hrefused := assign_in_frame hc hin reg
    refine ⟨hrefused, ?_⟩
    rw [after_append, List.foldl_cons, List.foldl_nil, Request.apply, Request.serve, hrefused]
    rfl
  · rw [after, ← Arena.bank_empty, foldl_apply_bank (Arena.bank_empty ▸ h), Arena.arena_bank]

/-- Two symbols, one of them asked for twice, and a temporary that is given a register, kept out of some, put in the
frame and then refused another register. -/
def errands : List Request :=
  [.symbol 3 ⟨"x", .localVar, .int, none⟩, .temp ⟨0⟩ .copy, .symbol 5 ⟨"f", .function, .int, none⟩,
    .assign 0 ⟨0, "rax"⟩, .assign 1 ⟨1, "rcx"⟩, .restrict 1 [⟨2, "rdx"⟩, ⟨0, "rax"⟩, ⟨2, "rdx"⟩],
    .symbol 3 ⟨"x", .param, .bool, none⟩, .spill 1, .assign 1 ⟨0, "rax"⟩, .restrict 1 [⟨0, "rax"⟩, ⟨1, "rcx"⟩],
    .assign 0 ⟨2, "rdx"⟩, .label ⟨0⟩, .int 7]

theorem errands_done : Orderly {} errands ∧ ((after (errands.take 6)).symbol 3 ⟨"x", .param, .bool, none⟩).1 = 0 ∧
    (after (errands.take 8)).assign 1 ⟨0, "rax"⟩ = .error .assignedInFrame ∧
    (∃ c, (after errands).get? 0 = some c ∧ c.kind = .symbol 3 ∧ c.isValue = true ∧ c.register = some ⟨2, "rdx"⟩) ∧
    ∃ c, (after errands).get? 1 = some c ∧ c.inFrame = true ∧ c.register = none ∧
      c.restricted = [⟨2, "rdx"⟩, ⟨0, "rax"⟩, ⟨1, "rcx"⟩] := by
  have h : Orderly {} errands := by decide
  obtain ⟨-, hsame, -, hnotes, hlater, -⟩ := bank_stays_consistent errands h
  obtain ⟨c, hc, hkind, hvalue, -⟩ := hlater (errands.take 1) 0 _ ⟨_, rfl⟩ rfl
  obtain ⟨d, hd, -, -, -, hframe⟩ := hlater (errands.take 8) 1 _ ⟨_, rfl⟩ rfl
  obtain ⟨hspilled, hregister, -⟩ := hnotes 0 c hc
  obtain ⟨-, -, hplace, -, -, hrestricted, -⟩ := hnotes 1 d hd
  obtain ⟨hin, hrefused⟩ := hframe rfl
  have hout : c.inFrame = false := by
    by_contra hin
    simpa [errands] using hspilled.mp (by simpa using hin)
  refine ⟨h, ?_, (hrefused _).1, ⟨c, hc, hkind, hvalue, (hregister hout).trans (by decide)⟩, d, hd, hin, ?_,
    hrestricted.trans (by decide)⟩
  · exact ((hsame [] (errands.take 6) 3 3 _ _ ⟨_, rfl⟩ ⟨_, rfl⟩).mpr rfl).symm
  · simpa [hin] using hplace

end MiddleEnd.Bank
