import Mathlib.Data.List.Basic

/-!
# Machines that read a stream

A machine looks at the items of a stream one by one. It goes on in another state, with or without delivering an item of its own, or it
stops: what it reads has come to its end (`last`), or it refuses the item. `run` is the machine on a part of the stream. A stop stands
whatever follows (`run_append_stop`), and without one the machine goes on with the next part where it was (`run_append_more`), so that
it does not matter how the stream is cut: `feed_eq_run`.
-/

namespace Transducer

variable {σ α β : Type*}

/-- What a machine does at an item. -/
inductive Turn (σ β : Type*) where
  | skip (s : σ)
  | deliver (b : β) (s : σ)
  | last (s : σ)
  | refuse

/-- The state after a reaction, unless the item has been refused. -/
def Turn.next : Turn σ β → Option σ
  | .skip s => some s
  | .deliver _ s => some s
  | .last s => some s
  | .refuse => none

/-- How a run ends: at the end of the items, after the last item, or before an item that is refused. -/
inductive Verdict where
  | more
  | last
  | refused
  deriving DecidableEq, Repr

/-- A run: what it delivers, the state it ends in, and the items that it leaves. -/
structure Run (σ α β : Type*) where
  out : List β
  state : σ
  verdict : Verdict
  rest : List α

/-- The run, with items delivered before it. -/
def Run.after (r : Run σ α β) (out : List β) : Run σ α β := { r with out := out ++ r.out }

@[simp] theorem Run.after_nil (r : Run σ α β) : r.after [] = r := rfl

/-- Output before output before a run. -/
@[simp] theorem Run.after_after (r : Run σ α β) (out out' : List β) : (r.after out').after out = r.after (out ++ out') := by
  simp [Run.after]

@[simp] theorem Run.after_verdict (r : Run σ α β) (out : List β) : (r.after out).verdict = r.verdict := rfl

@[simp] theorem Run.after_state (r : Run σ α β) (out : List β) : (r.after out).state = r.state := rfl

@[simp] theorem Run.after_rest (r : Run σ α β) (out : List β) : (r.after out).rest = r.rest := rfl

@[simp] theorem Run.after_out (r : Run σ α β) (out : List β) : (r.after out).out = out ++ r.out := rfl

variable (react : σ → α → Turn σ β)

/-- The machine, from a state, on a part of the stream. -/
def run (s : σ) : List α → Run σ α β
  | [] => ⟨[], s, .more, []⟩
  | c :: cs =>
    match react s c with
    | .skip t => run t cs
    | .deliver b t => (run t cs).after [b]
    | .last t => ⟨[], t, .last, cs⟩
    | .refuse => ⟨[], s, .refused, c :: cs⟩

/-- A run without input wants more. -/
@[simp] theorem run_nil (s : σ) : run react s [] = ⟨[], s, .more, []⟩ := rfl

variable {react}

/-- A step without output goes on. -/
theorem run_skip {s t : σ} {c : α} (h : react s c = .skip t) (cs : List α) : run react s (c :: cs) = run react t cs := by
  rw [run, h]

/-- A step with output goes on, and its output comes first. -/
theorem run_deliver {s t : σ} {c : α} {b : β} (h : react s c = .deliver b t) (cs : List α) :
    run react s (c :: cs) = (run react t cs).after [b] := by
  rw [run, h]

/-- A last step ends the run, with the rest unread. -/
theorem run_last {s t : σ} {c : α} (h : react s c = .last t) (cs : List α) : run react s (c :: cs) = ⟨[], t, .last, cs⟩ := by
  rw [run, h]

/-- A refusal ends the run, with the item unread. -/
theorem run_refuse {s : σ} {c : α} (h : react s c = .refuse) (cs : List α) :
    run react s (c :: cs) = ⟨[], s, .refused, c :: cs⟩ := by
  rw [run, h]

/-- Two states that take an item alike run alike from it. -/
theorem run_congr {s s' : σ} {c : α} (h : react s c = react s' c) (hc : react s' c ≠ .refuse) (cs : List α) :
    run react s (c :: cs) = run react s' (c :: cs) := by
  cases hturn : react s' c with
  | skip t => rw [run_skip (h.trans hturn), run_skip hturn]
  | deliver b t => rw [run_deliver (h.trans hturn), run_deliver hturn]
  | last t => rw [run_last (h.trans hturn), run_last hturn]
  | refuse => exact absurd hturn hc

/-- Items that change nothing. -/
theorem run_skips {s : σ} : ∀ {pre : List α}, (∀ c ∈ pre, react s c = .skip s) → ∀ xs, run react s (pre ++ xs) = run react s xs := by
  intro pre
  induction pre with
  | nil => intro _ xs; rfl
  | cons c cs ih =>
    intro h xs
    rw [List.cons_append, run_skip (h c (List.mem_cons_self ..)), ih fun d hd => h d (List.mem_cons_of_mem _ hd)]

/-- A run that stops would have stopped there with more items, too. -/
theorem run_append_stop {xs : List α} : ∀ {s : σ}, (run react s xs).verdict ≠ .more → ∀ ys,
    run react s (xs ++ ys) = { run react s xs with rest := (run react s xs).rest ++ ys } := by
  induction xs with
  | nil => intro s h ys; exact absurd rfl h
  | cons c cs ih =>
    intro s h ys
    rw [List.cons_append]
    cases hc : react s c with
    | skip t =>
      rw [run_skip hc] at h ⊢
      rw [run_skip hc, ih h]
    | deliver b t =>
      rw [run_deliver hc] at h ⊢
      rw [run_deliver hc, ih h]
      rfl
    | last t => rw [run_last hc, run_last hc]
    | refuse => rw [run_refuse hc, run_refuse hc]; rfl

/-- A run that does not stop goes on in the state that it has reached. -/
theorem run_append_more {xs : List α} : ∀ {s : σ}, (run react s xs).verdict = .more → ∀ ys,
    run react s (xs ++ ys) = (run react (run react s xs).state ys).after (run react s xs).out := by
  induction xs with
  | nil => intro s _ ys; rfl
  | cons c cs ih =>
    intro s h ys
    rw [List.cons_append]
    cases hc : react s c with
    | skip t =>
      rw [run_skip hc] at h ⊢
      rw [run_skip hc, ih h]
    | deliver b t =>
      rw [run_deliver hc] at h ⊢
      rw [run_deliver hc, ih h, Run.after_after]
      rfl
    | last t => rw [run_last hc] at h; cases h
    | refuse => rw [run_refuse hc] at h; cases h

/-- What every reaction keeps holds in the state that a run ends in. -/
theorem run_keeps {inv : σ → Prop} (hinv : ∀ s c t, inv s → (react s c).next = some t → inv t) (xs : List α) :
    ∀ {s : σ}, inv s → inv (run react s xs).state := by
  induction xs with
  | nil => intro s h; exact h
  | cons c cs ih =>
    intro s h
    have hnext := hinv s c
    cases hc : react s c with
    | skip t => rw [run_skip hc]; rw [hc] at hnext; exact ih (hnext t h rfl)
    | deliver b t => rw [run_deliver hc]; rw [hc] at hnext; exact ih (hnext t h rfl)
    | last t => rw [run_last hc]; rw [hc] at hnext; exact hnext t h rfl
    | refuse => rw [run_refuse hc]; exact h

/-! ## The language of a machine -/

/-- A family of relations between what is read and what is delivered, one for each state, such that every reaction takes the relation
of a state to that of the next one. -/
structure Derives (react : σ → α → Turn σ β) (inv : σ → Prop) (L : σ → List α → List β → Prop) : Prop where
  keeps : ∀ {s c t}, inv s → (react s c).next = some t → inv t
  nil : ∀ {s out}, inv s → ¬L s [] out
  skip : ∀ {s c t}, inv s → react s c = .skip t → ∀ xs out, L s (c :: xs) out ↔ L t xs out
  deliver : ∀ {s c b t}, inv s → react s c = .deliver b t → ∀ xs out, L s (c :: xs) out ↔ ∃ out', out = b :: out' ∧ L t xs out'
  last : ∀ {s c t}, inv s → react s c = .last t → ∀ xs out, L s (c :: xs) out ↔ xs = [] ∧ out = []
  refuse : ∀ {s c}, inv s → react s c = .refuse → ∀ xs out, ¬L s (c :: xs) out

namespace Derives

variable {inv : σ → Prop} {L : σ → List α → List β → Prop}

/-- A run comes to an end exactly behind what is in the relation with what it delivers. -/
theorem run_iff (h : Derives react inv L) {rest : List α} (xs : List α) : ∀ {s : σ} {out : List β}, inv s →
    ((run react s xs).verdict = .last ∧ (run react s xs).out = out ∧ (run react s xs).rest = rest ↔
      ∃ ys, xs = ys ++ rest ∧ L s ys out) := by
  induction xs with
  | nil =>
    intro s out hs
    refine ⟨fun hrun => absurd hrun.1 (by simp), ?_⟩
    rintro ⟨ys, hys, hL⟩
    rw [(List.append_eq_nil_iff.mp hys.symm).1] at hL
    exact absurd hL (h.nil hs)
  | cons c cs ih =>
    intro s out hs
    -- A text of the relation is not empty, so that its first item is the one that is looked at.
    have hhead : (∃ ys, c :: cs = ys ++ rest ∧ L s ys out) ↔ ∃ ys, cs = ys ++ rest ∧ L s (c :: ys) out := by
      constructor
      · rintro ⟨ys, hys, hL⟩
        cases ys with
        | nil => exact absurd hL (h.nil hs)
        | cons y ys =>
          obtain ⟨rfl, hcs⟩ := List.cons.inj hys
          exact ⟨ys, hcs, hL⟩
      · rintro ⟨ys, rfl, hL⟩
        exact ⟨c :: ys, rfl, hL⟩
    rw [hhead]
    have hnext := @h.keeps s c
    cases hc : react s c with
    | skip t =>
      rw [hc] at hnext
      simp only [run_skip hc, ih (hnext hs rfl), h.skip hs hc]
    | deliver b t =>
      rw [hc] at hnext
      simp only [run_deliver hc, Run.after_verdict, Run.after_out, Run.after_rest, h.deliver hs hc]
      constructor
      · rintro ⟨hlast, hout, hrest⟩
        obtain ⟨ys, hys, hL⟩ := (ih (hnext hs rfl)).mp ⟨hlast, rfl, hrest⟩
        exact ⟨ys, hys, _, hout.symm, hL⟩
      · rintro ⟨ys, hys, out', rfl, hL⟩
        obtain ⟨hlast, hout, hrest⟩ := (ih (hnext hs rfl)).mpr ⟨ys, hys, hL⟩
        exact ⟨hlast, by rw [hout]; rfl, hrest⟩
    | last t =>
      simp only [run_last hc, h.last hs hc, true_and]
      constructor
      · rintro ⟨rfl, rfl⟩
        exact ⟨[], rfl, rfl, rfl⟩
      · rintro ⟨ys, hcs, rfl, rfl⟩
        exact ⟨rfl, hcs⟩
    | refuse =>
      simp only [run_refuse hc, h.refuse hs hc]
      simp

/-- A run is refused exactly when nothing that begins with the items is in the relation, if there is a text for every state. -/
theorem refused_iff (h : Derives react inv L) (hlive : ∀ s, inv s → ∃ ys out, L s ys out) {s : σ} (hs : inv s) (xs : List α) :
    (run react s xs).verdict = .refused ↔ ∀ more ys rest out, xs ++ more = ys ++ rest → ¬L s ys out := by
  constructor
  · intro hrefused more ys rest out heq hL
    have hrun := (h.run_iff (xs ++ more) hs).mpr ⟨ys, heq, hL⟩
    rw [run_append_stop (by rw [hrefused]; decide)] at hrun
    exact absurd (hrefused.symm.trans hrun.1) (by decide)
  · intro hnone
    cases hv : (run react s xs).verdict with
    | refused => rfl
    | last =>
      obtain ⟨ys, heq, hL⟩ := (h.run_iff xs hs).mp ⟨hv, rfl, rfl⟩
      exact absurd hL (hnone [] ys _ _ (by rw [List.append_nil, ← heq]))
    | more =>
      obtain ⟨ys, out, hL⟩ := hlive _ (run_keeps (fun s c t hs hc => h.keeps hs hc) xs hs)
      have hrun := (h.run_iff ys (run_keeps (fun s c t hs hc => h.keeps hs hc) xs hs)).mpr ⟨ys, (List.append_nil ys).symm, hL⟩
      have hall : (run react s (xs ++ ys)).verdict = .last ∧ (run react s (xs ++ ys)).out = (run react s xs).out ++ out ∧
          (run react s (xs ++ ys)).rest = [] := by
        rw [run_append_more hv]
        exact ⟨hrun.1, by rw [Run.after_out, hrun.2.1], hrun.2.2⟩
      obtain ⟨zs, heq, hL'⟩ := (h.run_iff (xs ++ ys) hs).mp hall
      exact absurd hL' (hnone ys zs [] _ heq)

/-- A run goes on exactly when it is not refused and nothing that the items begin with is in the relation. -/
theorem more_iff (h : Derives react inv L) (hlive : ∀ s, inv s → ∃ ys out, L s ys out) {s : σ} (hs : inv s) (xs : List α) :
    (run react s xs).verdict = .more ↔
      (∀ ys rest out, xs = ys ++ rest → ¬L s ys out) ∧ ∃ more ys rest out, xs ++ more = ys ++ rest ∧ L s ys out := by
  have hrefused := h.refused_iff hlive hs xs
  have hlast : (run react s xs).verdict = .last ↔ ∃ ys rest out, xs = ys ++ rest ∧ L s ys out := by
    constructor
    · intro hv
      obtain ⟨ys, heq, hL⟩ := (h.run_iff xs hs).mp ⟨hv, rfl, rfl⟩
      exact ⟨ys, _, _, heq, hL⟩
    · rintro ⟨ys, rest, out, heq, hL⟩
      exact ((h.run_iff xs hs).mpr ⟨ys, heq, hL⟩).1
  constructor
  · intro hv
    refine ⟨fun ys rest out heq hL => ?_, ?_⟩
    · exact absurd (hv.symm.trans (hlast.mpr ⟨ys, rest, out, heq, hL⟩)) (by decide)
    · by_contra hnone
      have hv' := hrefused.mpr fun more ys rest out heq hL => hnone ⟨more, ys, rest, out, heq, hL⟩
      exact absurd (hv.symm.trans hv') (by decide)
  · rintro ⟨hno, more, ys, rest, out, heq, hL⟩
    cases hv : (run react s xs).verdict with
    | more => rfl
    | last =>
      obtain ⟨ys, rest, out, heq, hL⟩ := hlast.mp hv
      exact absurd hL (hno ys rest out heq)
    | refused => exact absurd hL (hrefused.mp hv more ys rest out heq)

end Derives

variable (react)

/-- The machine on the parts of a stream, one after the other. -/
def feed (s : σ) : List (List α) → Run σ α β
  | [] => ⟨[], s, .more, []⟩
  | p :: ps =>
    match (run react s p).verdict with
    | .more => (feed (run react s p).state ps).after (run react s p).out
    | _ => { run react s p with rest := (run react s p).rest ++ ps.flatten }

/-- It does not matter how a stream is cut. -/
theorem feed_eq_run (ps : List (List α)) : ∀ s : σ, feed react s ps = run react s ps.flatten := by
  induction ps with
  | nil => intro s; rfl
  | cons p ps ih =>
    intro s
    rw [feed, List.flatten_cons]
    cases hp : (run react s p).verdict with
    | more => rw [run_append_more hp, ih]
    | last => rw [run_append_stop (by rw [hp]; decide)]
    | refused => rw [run_append_stop (by rw [hp]; decide)]

end Transducer
