import Mathlib.Data.List.Infix

/-!
# Readers of a stream that has not ended

A reader that is given the beginning of a stream can answer in three ways: it has read what it wants (`ok`, with the items it
has not looked at), what it has seen is malformed (`bad`), or it needs more items (`more`). A reader is `Determined` when the
first two answers do not depend on the items that follow: a stream that goes on gets the same answer. Determined readers
compose (`Determined.bind`), and so do readers that pass over items until one of them takes over (`Determined.loop`).
`Counts` says how many items a success has read.
-/

namespace Incremental

variable {σ α β : Type*}

/-- The answer of a reader. -/
inductive Scan (σ α : Type*) where
  | ok (a : α) (rest : List σ)
  | bad
  | more
  deriving DecidableEq, Repr

namespace Scan

/-- Go on with another reader after a success. -/
def bind : Scan σ α → (α → List σ → Scan σ β) → Scan σ β
  | .ok a rest, g => g a rest
  | .bad, _ => .bad
  | .more, _ => .more

@[simp] theorem bind_ok (a : α) (rest : List σ) (g : α → List σ → Scan σ β) : (Scan.ok a rest).bind g = g a rest := rfl

@[simp] theorem bind_bad (g : α → List σ → Scan σ β) : (Scan.bad : Scan σ α).bind g = .bad := rfl

@[simp] theorem bind_more (g : α → List σ → Scan σ β) : (Scan.more : Scan σ α).bind g = .more := rfl

/-- Two scans one after another succeed if both do. -/
theorem bind_eq_ok {s : Scan σ α} {g : α → List σ → Scan σ β} {b : β} {rest : List σ} :
    s.bind g = .ok b rest ↔ ∃ a r, s = .ok a r ∧ g a r = .ok b rest := by
  cases s <;> simp

end Scan

/-- A success or a refusal stands, whatever items follow. -/
structure Determined (f : List σ → Scan σ α) : Prop where
  ok : ∀ {xs a rest}, f xs = .ok a rest → ∀ t, f (xs ++ t) = .ok a (rest ++ t)
  bad : ∀ {xs}, f xs = .bad → ∀ t, f (xs ++ t) = .bad

/-- A scan that reads nothing is settled. -/
theorem Determined.pure (a : α) : Determined (fun xs : List σ => Scan.ok a xs) := by
  refine ⟨?_, ?_⟩
  · intro xs b rest h t
    simp only [Scan.ok.injEq] at h
    rw [h.1, h.2]
  · intro xs h
    cases h

/-- A scan that refuses is settled. -/
theorem Determined.fail : Determined (fun _ : List σ => (Scan.bad : Scan σ α)) :=
  ⟨fun h => by simp at h, fun _ _ => rfl⟩

/-- Determined readers compose. -/
theorem Determined.bind {f : List σ → Scan σ α} {g : α → List σ → Scan σ β} (hf : Determined f)
    (hg : ∀ a, Determined (g a)) : Determined (fun xs => (f xs).bind g) := by
  refine ⟨?_, ?_⟩
  · intro xs b rest h t
    obtain ⟨a, r, ha, hb⟩ := Scan.bind_eq_ok.mp h
    rw [hf.ok ha t]
    exact (hg a).ok hb t
  · intro xs h t
    cases hxs : f xs with
    | ok a r =>
      simp only [hxs, Scan.bind_ok] at h
      rw [hf.ok hxs t]
      exact (hg a).bad h t
    | bad =>
      rw [hf.bad hxs t]
      rfl
    | more => simp only [hxs, Scan.bind_more] at h; cases h

/-- The next item has to satisfy `p`. -/
def expect (p : σ → Prop) [DecidablePred p] (a : α) : List σ → Scan σ α
  | [] => .more
  | c :: cs => if p c then .ok a cs else .bad

/-- Whether the next item is the expected one is settled by it. -/
theorem Determined.expect (p : σ → Prop) [DecidablePred p] (a : α) : Determined (expect p a) := by
  refine ⟨?_, ?_⟩
  · intro xs b rest h t
    cases xs with
    | nil => simp [Incremental.expect] at h
    | cons c cs =>
      simp only [Incremental.expect, List.cons_append] at h ⊢
      split_ifs at h ⊢
      simp only [Scan.ok.injEq] at h
      rw [h.1, h.2]
  · intro xs h t
    cases xs with
    | nil => simp [Incremental.expect] at h
    | cons c cs =>
      simp only [Incremental.expect, List.cons_append] at h ⊢
      split_ifs at h ⊢
      rfl

/-- A reader that passes over items one by one until, at an item with `halt`, the reader `g` takes over. -/
theorem Determined.loop {f g : List σ → Scan σ α} (halt : σ → Prop) (s : α → α) (hnil : f [] = .more)
    (hhalt : ∀ c cs, halt c → f (c :: cs) = g (c :: cs))
    (hgo : ∀ c cs, ¬ halt c → f (c :: cs) = (f cs).bind fun a rest => .ok (s a) rest) (hg : Determined g) :
    Determined f := by
  refine ⟨?_, ?_⟩
  · intro xs
    induction xs with
    | nil => intro a rest h; rw [hnil] at h; cases h
    | cons c cs ih =>
      intro a rest h t
      rw [List.cons_append]
      by_cases hc : halt c
      · rw [hhalt c _ hc] at h ⊢
        exact hg.ok h t
      · rw [hgo c _ hc] at h ⊢
        obtain ⟨b, r, hb, hr⟩ := Scan.bind_eq_ok.mp h
        rw [ih hb t]
        simp only [Scan.ok.injEq] at hr
        rw [Scan.bind_ok, hr.1, hr.2]
  · intro xs
    induction xs with
    | nil => intro h; rw [hnil] at h; cases h
    | cons c cs ih =>
      intro h t
      rw [List.cons_append]
      by_cases hc : halt c
      · rw [hhalt c _ hc] at h ⊢
        exact hg.bad h t
      · rw [hgo c _ hc] at h ⊢
        cases hcs : f cs with
        | ok b r => rw [hcs] at h; cases h
        | bad => rw [ih hcs t]; rfl
        | more => rw [hcs] at h; cases h

/-- A success has read as many items as its value says, and leaves the others. -/
def Counts (f : List σ → Scan σ α) (size : α → Nat) : Prop :=
  ∀ ⦃xs a rest⦄, f xs = .ok a rest → xs.drop (size a) = rest ∧ xs.length = size a + rest.length

/-- The expected item is one item. -/
theorem Counts.expect (p : σ → Prop) [DecidablePred p] (a : α) {size : α → Nat} (ha : size a = 1) :
    Counts (expect p a) size := by
  intro xs b rest h
  cases xs with
  | nil => simp [Incremental.expect] at h
  | cons c cs =>
    simp only [Incremental.expect] at h
    split_ifs at h
    simp only [Scan.ok.injEq] at h
    rw [← h.1, ← h.2, ha, List.length_cons]
    exact ⟨rfl, Nat.add_comm _ _⟩

/-- By induction over the items: a loop counts if what ends it does, and each turn counts one more. -/
theorem Counts.loop {f g : List σ → Scan σ α} {size : α → Nat} (halt : σ → Prop) (s : α → α) (hnil : f [] = .more)
    (hhalt : ∀ c cs, halt c → f (c :: cs) = g (c :: cs))
    (hgo : ∀ c cs, ¬ halt c → f (c :: cs) = (f cs).bind fun a rest => .ok (s a) rest)
    (hs : ∀ a, size (s a) = size a + 1) (hg : Counts g size) : Counts f size := by
  intro xs
  induction xs with
  | nil => intro a rest h; rw [hnil] at h; cases h
  | cons c cs ih =>
    intro a rest h
    by_cases hc : halt c
    · rw [hhalt c _ hc] at h
      exact hg h
    · rw [hgo c _ hc] at h
      obtain ⟨b, r, hb, hr⟩ := Scan.bind_eq_ok.mp h
      simp only [Scan.ok.injEq] at hr
      obtain ⟨hdrop, hlen⟩ := ih hb
      rw [← hr.1, ← hr.2, hs, List.length_cons, hlen]
      exact ⟨hdrop, by omega⟩

end Incremental
