import Mathlib.Order.Basic

/-!
# Loops

A loop is given by what one iteration does with its state: it goes on with another state, or it ends with a result. `Steps` are
iterations that go on, and `Ends step s n r` says that the loop ends with `r` after `n` of them. Nothing here bounds the number of
iterations, so a loop that runs for ever has no result; `exists_ends` is the rule by which a loop is shown to end, with a measure
that every iteration makes smaller.
-/

namespace Loops

variable {σ ρ : Type*} {step : σ → σ ⊕ ρ}

/-- `n` iterations that go on, from one state to another. -/
inductive Steps (step : σ → σ ⊕ ρ) : σ → Nat → σ → Prop where
  | refl (s : σ) : Steps step s 0 s
  | head {s t u : σ} {n : Nat} : step s = .inl t → Steps step t n u → Steps step s (n + 1) u

/-- The loop, begun with the state `s`, ends with `r`, and `n` iterations before the last one went on. -/
def Ends (step : σ → σ ⊕ ρ) (s : σ) (n : Nat) (r : ρ) : Prop := ∃ t, Steps step s n t ∧ step t = .inr r

theorem Ends.done {s : σ} {r : ρ} (h : step s = .inr r) : Ends step s 0 r := ⟨s, .refl s, h⟩

theorem Ends.next {s t : σ} {n : Nat} {r : ρ} (h : step s = .inl t) (ht : Ends step t n r) : Ends step s (n + 1) r := by
  obtain ⟨u, hu, hr⟩ := ht
  exact ⟨u, .head h hu, hr⟩

/-- What every iteration keeps holds after any number of them. -/
theorem Steps.keeps {inv : σ → Prop} (hinv : ∀ s t, inv s → step s = .inl t → inv t) {s t : σ} {n : Nat} (h : Steps step s n t) :
    inv s → inv t := by
  induction h with
  | refl s => exact id
  | head hs _ ih => exact fun hi => ih (hinv _ _ hi hs)

/-- A loop has one result, and one number of iterations. -/
theorem Ends.unique {s : σ} {n m : Nat} {r r' : ρ} (h : Ends step s n r) (h' : Ends step s m r') : n = m ∧ r = r' := by
  obtain ⟨t, ht, hr⟩ := h
  induction ht generalizing m with
  | refl s =>
    obtain ⟨u, hu, hr'⟩ := h'
    cases hu with
    | refl => exact ⟨rfl, Sum.inr.inj (hr.symm.trans hr')⟩
    | head hs _ => exact absurd (hr.symm.trans hs) (by simp)
  | head hs _ ih =>
    obtain ⟨u, hu, hr'⟩ := h'
    cases hu with
    | refl => exact absurd (hr'.symm.trans hs) (by simp)
    | head hs' hu =>
      obtain rfl := Sum.inl.inj (hs.symm.trans hs')
      obtain ⟨hn, hres⟩ := ih ⟨u, hu, hr'⟩ hr
      exact ⟨congrArg (· + 1) hn, hres⟩

/-- A loop whose iterations make a measure smaller ends, after no more iterations than the measure is at its beginning. -/
theorem exists_ends {inv : σ → Prop} {μ : σ → Nat} (hstep : ∀ s t, inv s → step s = .inl t → inv t ∧ μ t < μ s) (m : Nat) :
    ∀ s, inv s → μ s ≤ m → ∃ n r, n ≤ m ∧ Ends step s n r := by
  induction m with
  | zero =>
    intro s hs hm
    cases h : step s with
    | inl t => exact absurd (hstep s t hs h).2 (by omega)
    | inr r => exact ⟨0, r, Nat.le_refl 0, .done h⟩
  | succ m ih =>
    intro s hs hm
    cases h : step s with
    | inl t =>
      obtain ⟨ht, hlt⟩ := hstep s t hs h
      obtain ⟨n, r, hn, hr⟩ := ih t ht (by omega)
      exact ⟨n + 1, r, Nat.succ_le_succ hn, hr.next h⟩
    | inr r => exact ⟨0, r, Nat.zero_le _, .done h⟩

/-- A loop whose iterations keep an invariant and make a measure smaller ends, and with a result of which holds what an iteration that
ends makes true of it. -/
theorem exists_ends_of_step {inv : σ → Prop} {μ : σ → Nat} {post : ρ → Prop}
    (hnext : ∀ s t, inv s → step s = .inl t → inv t ∧ μ t < μ s) (hdone : ∀ s r, inv s → step s = .inr r → post r) {s : σ}
    (hs : inv s) : ∃ n r, n ≤ μ s ∧ Ends step s n r ∧ post r := by
  obtain ⟨n, r, hn, hends⟩ := exists_ends hnext (μ s) s hs (Nat.le_refl _)
  obtain ⟨t, ht, hr⟩ := hends
  exact ⟨n, r, hn, ⟨t, ht, hr⟩, hdone t r (ht.keeps (fun a b ha hab => (hnext a b ha hab).1) hs) hr⟩

/-- The result of a loop that ends within so many iterations. -/
def iterate (step : σ → σ ⊕ ρ) : Nat → σ → Option ρ
  | 0, _ => none
  | n + 1, s =>
    match step s with
    | .inl t => iterate step n t
    | .inr r => some r

theorem Ends.iterate {s : σ} {n k : Nat} {r : ρ} (h : Ends step s n r) (hk : n < k) : Loops.iterate step k s = some r := by
  obtain ⟨t, ht, hr⟩ := h
  induction ht generalizing k with
  | refl s =>
    obtain ⟨k, rfl⟩ : ∃ j, k = j + 1 := ⟨k - 1, by omega⟩
    rw [Loops.iterate, hr]
  | head hs _ ih =>
    obtain ⟨k, rfl⟩ : ∃ j, k = j + 1 := ⟨k - 1, by omega⟩
    rw [Loops.iterate, hs]
    exact ih (by omega) hr

end Loops
