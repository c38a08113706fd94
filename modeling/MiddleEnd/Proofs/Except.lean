import Mathlib.Data.List.Forall2

/-! Computations that may fail, once they have not: the parts of one that ended well ended well. -/

theorem Except.bind_eq_ok {ε α β : Type} {x : Except ε α} {f : α → Except ε β} {b : β} :
    (x >>= f) = .ok b ↔ ∃ a, x = .ok a ∧ f a = .ok b := by
  cases x with
  | error e => simp [bind, Except.bind]
  | ok a => simp [bind, Except.bind]

theorem Except.bind_eq_error {ε α β : Type} {x : Except ε α} {f : α → Except ε β} {e : ε} :
    (x >>= f) = .error e ↔ x = .error e ∨ ∃ a, x = .ok a ∧ f a = .error e := by
  cases x with
  | error e => simp [bind, Except.bind]
  | ok a => simp [bind, Except.bind]

namespace MiddleEnd

variable {ε α β σ : Type}

theorem mapError_eq_ok {ε' : Type} {f : ε → ε'} {x : Except ε α} {a : α} (h : x.mapError f = .ok a) : x = .ok a := by
  cases x with
  | error e => cases h
  | ok b => simpa [Except.mapError] using h

theorem mem_of_forall₂ {R : α → β → Prop} {l : List α} {r : List β} (h : List.Forall₂ R l r) :
    (∀ b ∈ r, ∃ a ∈ l, R a b) ∧ ∀ a ∈ l, ∃ b ∈ r, R a b := by
  induction h with
  | nil => simp
  | cons hab _ ih => grind

theorem forall₂_imp_of_mem {R S : α → β → Prop} {l : List α} {r : List β} (h : List.Forall₂ R l r)
    (hRS : ∀ a ∈ l, ∀ b, R a b → S a b) : List.Forall₂ S l r := by
  induction h with
  | nil => exact .nil
  | cons hab _ ih =>
    exact .cons (hRS _ List.mem_cons_self _ hab) (ih fun a ha => hRS a (List.mem_cons_of_mem _ ha))

theorem getElem?_of_forall₂ {R : α → β → Prop} {l : List α} {r : List β} (h : List.Forall₂ R l r) {k : Nat} {a : α}
    (hk : l[k]? = some a) : ∃ b, r[k]? = some b ∧ R a b := by
  induction h generalizing k with
  | nil => simp at hk
  | @cons d e l r hde _ ih =>
    cases k with
    | zero =>
      obtain rfl : d = a := by simpa using hk
      exact ⟨e, rfl, hde⟩
    | succ k => exact ih (by simpa using hk)

theorem map_eq_of_forall₂ {γ : Type} {R : α → β → Prop} {f : α → γ} {g : β → γ} {l : List α} {r : List β}
    (h : List.Forall₂ R l r) (hfg : ∀ a b, R a b → f a = g b) : l.map f = r.map g := by
  rw [← List.forall₂_eq_eq_eq, List.forall₂_map_left_iff, List.forall₂_map_right_iff]
  exact h.imp hfg

theorem pairwise_of_forall₂ {R : α → β → Prop} {P : α → α → Prop} {Q : β → β → Prop} {l : List α} {r : List β}
    (h : List.Forall₂ R l r) (hl : l.Pairwise P) (hPQ : ∀ a a' b b', P a a' → R a b → R a' b' → Q b b') :
    r.Pairwise Q := by
  induction h with
  | nil => exact .nil
  | @cons a b l r hab hrest ih =>
    obtain ⟨ha, hl⟩ := List.pairwise_cons.mp hl
    refine List.pairwise_cons.mpr ⟨fun d hd => ?_, ih hl⟩
    obtain ⟨e, he, hed⟩ := (mem_of_forall₂ hrest).1 d hd
    exact hPQ a e b d (ha e he) hab hed

theorem mapM_forall₂ {f : α → Except ε β} {l : List α} {r : List β} (h : l.mapM f = .ok r) :
    List.Forall₂ (fun a b => f a = .ok b) l r := by
  induction l generalizing r with
  | nil =>
    obtain rfl : [] = r := by simpa [pure, Except.pure] using h
    exact .nil
  | cons a l ih =>
    rw [List.mapM_cons, Except.bind_eq_ok] at h
    obtain ⟨b, hb, h⟩ := h
    obtain ⟨bs, hbs, h⟩ := Except.bind_eq_ok.mp h
    obtain rfl : b :: bs = r := by simpa [pure, Except.pure] using h
    exact .cons hb (ih hbs)

theorem exists_mapM_eq_ok {f : α → Except ε β} {l : List α} (h : ∀ a ∈ l, ∃ b, f a = .ok b) :
    ∃ r, l.mapM f = .ok r := by
  induction l with
  | nil => exact ⟨[], rfl⟩
  | cons a l ih =>
    obtain ⟨b, hb⟩ := h a (by simp)
    obtain ⟨r, hr⟩ := ih fun d hd => h d (List.mem_cons_of_mem _ hd)
    refine ⟨b :: r, ?_⟩
    rw [List.mapM_cons]
    exact Except.bind_eq_ok.mpr ⟨b, hb, Except.bind_eq_ok.mpr ⟨r, hr, rfl⟩⟩

theorem mapM_map_eq_ok {f : α → Except ε β} {key : β → α} {l : List β} (h : ∀ b ∈ l, f (key b) = .ok b) :
    (l.map key).mapM f = .ok l := by
  induction l with
  | nil => rfl
  | cons b l ih =>
    rw [List.map_cons, List.mapM_cons, h b List.mem_cons_self, ih fun d hd => h d (List.mem_cons_of_mem _ hd)]
    rfl

/-- Parts that are done in the order of a key fail the way the first failing one does. -/
theorem mapM_eq_error_iff {f : α → Except ε β} {key : α → Nat} {l : List α}
    (hl : l.Pairwise fun a b => key a < key b) {e : ε} :
    l.mapM f = .error e ↔ ∃ a ∈ l, f a = .error e ∧ ∀ b ∈ l, key b < key a → ∃ r, f b = .ok r := by
  induction l with
  | nil => simp [pure, Except.pure]
  | cons a l ih =>
    obtain ⟨ha, hl⟩ := List.pairwise_cons.mp hl
    rw [List.mapM_cons, Except.bind_eq_error]
    cases hfa : f a with
    | error e' =>
      -- what fails behind the first part has a failure before it
      have hlater : ¬ ∃ b ∈ l, f b = .error e ∧ ∀ d ∈ a :: l, key d < key b → ∃ r, f d = .ok r := by
        rintro ⟨b, hb, -, hbefore⟩
        obtain ⟨r, hr⟩ := hbefore a List.mem_cons_self (ha b hb)
        rw [hfa] at hr
        cases hr
      simp only [reduceCtorEq, false_and, exists_false, or_false, List.mem_cons, exists_eq_or_imp, hfa]
      simp only [List.mem_cons] at hlater
      rw [or_iff_left hlater, iff_self_and]
      rintro - b (rfl | hb) hlt
      · exact absurd hlt (Nat.lt_irrefl _)
      · exact absurd hlt (Nat.lt_asymm (ha b hb))
    | ok r =>
      have hrest : (∃ r', (Except.ok r : Except ε β) = .ok r' ∧ (do let rs ← l.mapM f; pure (r' :: rs)) = .error e) ↔
          l.mapM f = .error e := by
        simp [Except.bind_eq_error, pure, Except.pure]
      rw [or_iff_right (by simp), hrest, ih hl]
      simp only [List.mem_cons, exists_eq_or_imp, forall_eq_or_imp, hfa, reduceCtorEq, false_and, false_or,
        Except.ok.injEq, exists_eq', implies_true, true_and]

theorem foldlM_preserves {f : σ → α → Except ε σ} {P : σ → Prop} {l : List α} {s t : σ}
    (hstep : ∀ s a t, a ∈ l → P s → f s a = .ok t → P t) (h : l.foldlM f s = .ok t) (hs : P s) : P t := by
  induction l generalizing s with
  | nil =>
    obtain rfl : s = t := by simpa [pure, Except.pure] using h
    exact hs
  | cons a l ih =>
    rw [List.foldlM_cons, Except.bind_eq_ok] at h
    obtain ⟨u, hu, h⟩ := h
    exact ih (fun s b t hb => hstep s b t (List.mem_cons_of_mem _ hb)) h (hstep s a u (by simp) hs hu)

/-- Folds whose steps keep states related, and end well together, do the same. -/
theorem foldlM_related {τ : Type} {f : σ → α → Except ε σ} {g : τ → α → Except ε τ} {R : σ → τ → Prop} {l : List α}
    {s s' : σ} {t : τ} (hstep : ∀ s t a s', a ∈ l → R s t → f s a = .ok s' → ∃ t', g t a = .ok t' ∧ R s' t')
    (h : l.foldlM f s = .ok s') (hs : R s t) : ∃ t', l.foldlM g t = .ok t' ∧ R s' t' := by
  induction l generalizing s t with
  | nil =>
    obtain rfl : s = s' := by simpa [pure, Except.pure] using h
    exact ⟨t, rfl, hs⟩
  | cons a l ih =>
    rw [List.foldlM_cons, Except.bind_eq_ok] at h
    obtain ⟨u, hu, h⟩ := h
    obtain ⟨v, hv, huv⟩ := hstep s t a u (by simp) hs hu
    rw [List.foldlM_cons, hv]
    exact ih (fun s t b s' hb => hstep s t b s' (List.mem_cons_of_mem _ hb)) h huv

theorem foldlM_succeeds {f : σ → α → Except ε σ} {P : σ → Prop} {l : List α} {s : σ}
    (hstep : ∀ s a, P s → ∃ t, f s a = .ok t ∧ P t) (hs : P s) : ∃ t, l.foldlM f s = .ok t ∧ P t := by
  induction l generalizing s with
  | nil => exact ⟨s, rfl, hs⟩
  | cons a l ih =>
    obtain ⟨u, hu, hkept⟩ := hstep s a hs
    rw [List.foldlM_cons, hu]
    exact ih hkept

theorem foldlM_eq_foldl {τ : Type} {f : τ → α → Except ε τ} {g : σ → α → σ} {e : σ → τ} {P : σ → Prop} {l : List α}
    (hstep : ∀ s, ∀ a ∈ l, P s → f (e s) a = .ok (e (g s a)) ∧ P (g s a)) {s : σ} (hs : P s) :
    l.foldlM f (e s) = .ok (e (l.foldl g s)) ∧ P (l.foldl g s) := by
  induction l generalizing s with
  | nil => exact ⟨rfl, hs⟩
  | cons a l ih =>
    obtain ⟨hok, hkept⟩ := hstep s a List.mem_cons_self hs
    rw [List.foldlM_cons, hok]
    exact ih (fun s b hb => hstep s b (List.mem_cons_of_mem _ hb)) hkept

theorem foldlM_map {τ : Type} {f : σ → α → Except ε σ} {g : τ → α → Except ε τ} {e : σ → τ} {l : List α}
    (hstep : ∀ s a, g (e s) a = (f s a).map e) (s : σ) : l.foldlM g (e s) = (l.foldlM f s).map e := by
  induction l generalizing s with
  | nil => rfl
  | cons a l ih =>
    rw [List.foldlM_cons, List.foldlM_cons, hstep]
    cases f s a with
    | error e => rfl
    | ok t => exact ih t

end MiddleEnd
