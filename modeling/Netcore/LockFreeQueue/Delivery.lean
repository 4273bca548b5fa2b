import Mathlib.Data.Nat.ModEq
import Netcore.LockFreeQueue.Tickets

/-!
# Delivery

The permits of `lockFreeQueue` counted over the calls (`Counts`), and with them the invariant `Ring.Inv` of an orderly run: no call
is at a slot whose number is below the permits that its side has given. So a slot is only written once its last element has been
read, and only read once it has been written, and `exact_of_orderly` follows.
-/

namespace Netcore.LockFreeQueue

open Threads

variable {T : Type} {size : Nat}

/-! ## Permits -/

/-- The number of calls of a side at certain stages. -/
def number (calls : List (Call T)) (d : Side) (p : Stage → Bool) : Nat := calls.countP fun c => decide (c.side = d) && p c.stage

/-- A call that changes its stage is counted for its new stage in place of the old one. -/
theorem number_set {calls : List (Call T)} {k : Nat} {c : Call T} (hk : calls[k]? = some c) {c' : Call T} (hs : c'.side = c.side)
    (p : Stage → Bool) : number (calls.set k c') c.side p + (p c.stage).toNat = number calls c.side p + (p c'.stage).toNat := by
  have hbit : ∀ b : Bool, b.toNat = if b then 1 else 0 := by decide
  have := countP_set hk (fun c₁ => decide (c₁.side = c.side) && p c₁.stage) c'
  simpa only [number, hs, decide_true, Bool.true_and, hbit] using this

theorem Side.eq_or (e d : Side) : d = e ∨ d = e.other := by
  cases e <;> cases d <;> decide

theorem Side.other_ne (d : Side) : d.other ≠ d := by
  cases d <;> decide

theorem Side.other_other (d : Side) : d.other.other = d := by
  cases d <;> rfl

/-- The calls of the other side are counted as before. -/
theorem number_set_other {calls : List (Call T)} {k : Nat} {c : Call T} (hk : calls[k]? = some c) {c' : Call T}
    (hs : c'.side = c.side) (p : Stage → Bool) : number (calls.set k c') c.side.other p = number calls c.side.other p := by
  have := countP_set hk (fun c₁ => decide (c₁.side = c.side.other) && p c₁.stage) c'
  simpa only [number, hs, (Side.other_ne c.side).symm, decide_false, Bool.false_and, Bool.false_eq_true, if_false,
    Nat.add_zero] using this

/-- Of a weaker property there are at least as many. -/
theorem number_mono (calls : List (Call T)) (d : Side) {p p' : Stage → Bool} (h : ∀ st, p st = true → p' st = true) :
    number calls d p ≤ number calls d p' := by
  refine List.countP_mono_left fun c _ hc => ?_
  rw [Bool.and_eq_true] at hc ⊢
  exact ⟨hc.1, h _ hc.2⟩

/-- A slot has been reserved. -/
def Stage.numbered (st : Stage) : Bool := st.ticket.isSome

/-- A call that has returned has a ticket. -/
theorem Stage.numbered_of_isReturned (st : Stage) (h : st.isReturned = true) : st.numbered = true := by
  cases st <;> first | rfl | exact absurd h (by decide)

/-- A call that has a ticket has passed its semaphore. -/
theorem Stage.passed_of_numbered (st : Stage) (h : st.numbered = true) : st.passed = true := by
  cases st <;> first | rfl | exact absurd h (by decide)

/-- The counters against the calls: a side has the permits it began with and those given by the other side, less those taken. -/
structure Counts (size : Nat) (calls : List (Call T)) (count : Side → Int) (reserved : Side → Nat) : Prop where
  avail : ∀ d, count d = permits size d + number calls d.other Stage.isReturned - number calls d Stage.passed -
    number calls d Stage.isRefused
  enough : ∀ d, number calls d Stage.passed ≤ permits size d + number calls d.other Stage.isReturned
  empty : size = 0 → ∀ d, number calls d Stage.passed = 0
  reserved : ∀ d, reserved d = number calls d Stage.numbered
  low : ∀ d, -2147483648 ≤ count d

/-- The permits given by a side, the slots reserved on it, and the permits taken. -/
theorem Counts.chain {calls : List (Call T)} {count : Side → Int} {reserved : Side → Nat} (h : Counts size calls count reserved)
    (d : Side) : number calls d Stage.isReturned ≤ reserved d ∧ reserved d ≤ number calls d Stage.passed := by
  rw [h.reserved]
  exact ⟨number_mono calls d Stage.numbered_of_isReturned, number_mono calls d Stage.passed_of_numbered⟩

/-- There are never more than `size` permits. -/
theorem Counts.count_le {calls : List (Call T)} {count : Side → Int} {reserved : Side → Nat}
    (h : Counts size calls count reserved) (d : Side) : count d + number calls d Stage.isRefused ≤ size := by
  have ha := h.avail d
  have hself := h.chain d
  have hother := h.chain d.other
  have he := h.enough d.other
  rw [Side.other_other] at he
  cases d <;> simp only [permits, Side.other] at * <;> omega

/-- One call goes on to another stage, with the counters changed as its permits ask for. -/
theorem Counts.step {calls : List (Call T)} {count count' : Side → Int} {reserved reserved' : Side → Nat}
    (h : Counts size calls count reserved) {k : Nat} {c : Call T} (hk : calls[k]? = some c) {c' : Call T} (hs : c'.side = c.side)
    (hret : c.stage.isReturned = false)
    (hself : count' c.side + c'.stage.passed.toNat + c'.stage.isRefused.toNat =
      count c.side + c.stage.passed.toNat + c.stage.isRefused.toNat)
    (hother : count' c.side.other = count c.side.other + c'.stage.isReturned.toNat)
    (hres : reserved' c.side + c.stage.numbered.toNat = reserved c.side + c'.stage.numbered.toNat)
    (hreso : reserved' c.side.other = reserved c.side.other)
    (hpermit : c'.stage.passed = true → c.stage.passed = true ∨ 0 < count c.side)
    (hlow : ∀ d, -2147483648 ≤ count' d) : Counts size (calls.set k c') count' reserved' := by
  have hp := number_set hk hs Stage.passed
  have hf := number_set hk hs Stage.isRefused
  have hr := number_set hk hs Stage.isReturned
  have hn := number_set hk hs Stage.numbered
  have hpo := number_set_other hk hs Stage.passed
  have hfo := number_set_other hk hs Stage.isRefused
  have hro := number_set_other hk hs Stage.isReturned
  have hno := number_set_other hk hs Stage.numbered
  have ha := h.avail c.side
  have hao := h.avail c.side.other
  rw [Side.other_other] at hao
  rw [hret, Bool.toNat_false, Nat.add_zero] at hr
  have hpass : number calls c.side Stage.passed < permits size c.side + number calls c.side.other Stage.isReturned ∨
      c'.stage.passed.toNat ≤ c.stage.passed.toNat := by
    cases hc' : c'.stage.passed with
    | false => exact Or.inr (Nat.zero_le _)
    | true =>
      rcases hpermit hc' with hc | hc
      · exact Or.inr (Nat.le_of_eq (by rw [hc]))
      · left
        omega
  have hle : c'.stage.passed.toNat ≤ 1 := Bool.toNat_le _
  refine ⟨?_, ?_, ?_, ?_, hlow⟩
  · intro d
    rcases Side.eq_or c.side d with rfl | rfl
    · omega
    · rw [Side.other_other]
      omega
  · intro d
    rcases Side.eq_or c.side d with rfl | rfl
    · have := h.enough c.side
      omega
    · have := h.enough c.side.other
      rw [Side.other_other] at this ⊢
      omega
  · intro h0 d
    rcases Side.eq_or c.side d with rfl | rfl
    · have hz := h.empty h0 c.side
      have hzo := h.empty h0 c.side.other
      have hchain := h.chain c.side.other
      have hpz : permits size c.side = 0 := by cases c.side <;> simp [permits, h0]
      omega
    · rw [hpo]
      exact h.empty h0 _
  · intro d
    have hd := h.reserved d
    rcases Side.eq_or c.side d with rfl | rfl
    · omega
    · omega

/-! ## The order of the slots -/

/-- A call is at the slot of its ticket, and behind the calls of its side that have given their permit. -/
structure Line (size : Nat) (calls : List (Call T)) : Prop where
  pos : ∀ (k : Nat) (c : Call T) p t, calls[k]? = some c → c.stage = .access p t → p = t % size
  order : ∀ (k k' : Nat) (c c' : Call T) t p t', calls[k]? = some c → calls[k']? = some c' → c.side = c'.side →
    c.stage = .returned t → c'.stage = .access p t' → t < t'

/-- The order of the slots is kept by a call that changes its stage, if its new stage fits in. -/
theorem Line.set {calls : List (Call T)} (h : Line size calls) {k : Nat} {c' : Call T}
    (hpos : ∀ p t, c'.stage = .access p t → p = t % size)
    (hret : ∀ t, c'.stage = .returned t → ∀ (j : Nat) (c : Call T) p t', j ≠ k → calls[j]? = some c → c.side = c'.side →
      c.stage = .access p t' → t < t')
    (hacc : ∀ p t', c'.stage = .access p t' → ∀ (j : Nat) (c : Call T) t, calls[j]? = some c → c.side = c'.side →
      c.stage = .returned t → t < t') : Line size (calls.set k c') := by
  refine ⟨?_, ?_⟩
  · intro j c p t hj hc
    rcases set_cases hj with ⟨-, rfl⟩ | ⟨-, hj₀⟩
    · exact hpos p t hc
    · exact h.pos j c p t hj₀ hc
  · intro i j c₁ c₂ t p t' hi hj hs ht ht'
    rcases set_cases hi with ⟨hik, rfl⟩ | ⟨-, hi₀⟩
    · rcases set_cases hj with ⟨-, rfl⟩ | ⟨hjk, hj₀⟩
      · rw [ht] at ht'
        exact absurd ht' (by simp)
      · exact hret t ht j c₂ p t' hjk hj₀ hs.symm ht'
    · rcases set_cases hj with ⟨-, rfl⟩ | ⟨-, hj₀⟩
      · exact hacc p t' ht' i c₁ t hi₀ hs ht
      · exact h.order i j c₁ c₂ t p t' hi₀ hj₀ hs ht ht'

/-- A call that goes on to a stage away from the slots. -/
theorem Line.set_apart {calls : List (Call T)} (h : Line size calls) (k : Nat) {c' : Call T}
    (hacc : ∀ p t, c'.stage ≠ .access p t) (hret : ∀ t, c'.stage ≠ .returned t) : Line size (calls.set k c') :=
  h.set (fun p t ht => absurd ht (hacc p t)) (fun t ht => absurd ht (hret t)) (fun p t ht => absurd ht (hacc p t))

/-! ## The invariant -/

namespace Ring

/-- What holds all along an orderly run. -/
structure Inv (size : Nat) (s : Ring T) : Prop where
  counts : Counts size s.calls s.count s.reserved
  line : Line size s.calls
  index : ∀ d, 0 ≤ s.index d ∧ s.index d ≤ 2147483647 ∧ (s.index d).toNat % size = s.reserved d % size
  numbered : Numbered (s.calls.map Call.view) s.reserved
  slots : Slots size (s.calls.map Call.view) s.q

/-- An `int` that does not overflow is what it is. -/
theorem wrap_eq {x : Int} (hlo : -2147483648 ≤ x) (hhi : x < 2147483648) : wrap x = x := by
  rw [wrap, Int.bmod_def]
  split_ifs
  · omega
  · omega

/-- A call is seen at its place. -/
theorem view_get {calls : List (Call T)} {k : Nat} {c : Call T} (h : calls[k]? = some c) :
    (calls.map Call.view)[k]? = some c.view := by rw [List.getElem?_map, h, Option.map_some]

/-- A call that goes on without touching a slot. -/
theorem views_goto {calls : List (Call T)} {k : Nat} {c c' : Call T} (h : calls[k]? = some c) (hv : c'.view = c.view) :
    (calls.set k c').map Call.view = calls.map Call.view := by
  refine List.ext_getElem? fun j => ?_
  rw [List.map_set, hv]
  by_cases hj : j = k
  · rw [hj, set_same (view_get h), view_get h]
  · rw [List.getElem?_set_ne (Ne.symm hj)]

/-- No call is at a slot whose number is below the permits that its side has given. -/
theorem Inv.behind {s : Ring T} (h : s.Inv size) {k : Nat} {c : Call T} {p t : Nat} (hk : s.calls[k]? = some c)
    (hc : c.stage = .access p t) : number s.calls c.side Stage.isReturned ≤ t := by
  have hret : ∀ {a : Call T}, (decide (a.side = c.side) && a.stage.isReturned) = true →
      a.side = c.side ∧ ∃ t', a.stage = .returned t' := by
    intro a ha
    rw [Bool.and_eq_true, decide_eq_true_eq] at ha
    refine ⟨ha.1, ?_⟩
    cases hst : a.stage with
    | returned t' => exact ⟨t', rfl⟩
    | _ => exact absurd ha.2 (by simp [hst, Stage.isReturned])
  refine @countP_le_of_numbered _ _ _ (fun a : Call T => a.stage.ticket) t ?_ ?_
  · intro a ha hpa
    obtain ⟨j, hj⟩ := List.mem_iff_getElem?.mp ha
    obtain ⟨hs, t', ht'⟩ := hret hpa
    exact ⟨t', by rw [ht']; rfl, h.line.order j k a c t' p t hj hk hs ht' hc⟩
  · intro i j a b t' hi hj ha hb hta htb
    exact h.numbered.inj i j a.view b.view t' (view_get hi) (view_get hj) ((hret ha).1.trans (hret hb).1.symm) hta htb

/-- A ticket below the permits of its side is that of a call that has been at its slot. -/
theorem Inv.did_of_lt {s : Ring T} (h : s.Inv size) {d : Side} {t : Nat} (ht : t < number s.calls d Stage.isReturned) :
    ∃ x, Did (s.calls.map Call.view) d t x := by
  obtain ⟨k, v, hk, hs, hvt⟩ := h.numbered.ex d t (Nat.lt_of_lt_of_le ht (h.counts.chain d).1)
  rw [List.getElem?_map] at hk
  obtain ⟨c, hc, rfl⟩ := Option.map_eq_some_iff.mp hk
  cases hacc : c.stage.accessed with
  | true => exact ⟨c.view.node, k, c.view, view_get hc, hs, hacc, hvt, rfl⟩
  | false =>
    have hticket : c.stage.ticket = some t := hvt
    cases hst : c.stage with
    | access p t' =>
      rw [hst] at hticket
      have := h.behind hc hst
      rw [show c.side = d from hs] at this
      rw [Option.some.inj hticket] at this
      omega
    | publish t' => exact absurd hacc (by simp [hst, Stage.accessed])
    | returned t' => exact absurd hacc (by simp [hst, Stage.accessed])
    | _ => exact absurd hticket (by simp [hst, Stage.ticket])

/-- What was in the slot that a call of `queue` is about to write has been read. -/
theorem Inv.free {s : Ring T} (h : s.Inv size) {k : Nat} {c : Call T} {p t₀ : Nat} (hk : s.calls[k]? = some c)
    (hside : c.side = .queue) (hc : c.stage = .access p t₀) {t : Nat} {x : Option (Nat × T)}
    (hd : Did (s.calls.map Call.view) .queue t x) (hmod : t % size = t₀ % size) :
    ∃ y, Did (s.calls.map Call.view) .deque t y := by
  have hacc : c.view.accessed = false := by simp [Call.view, hc, Stage.accessed]
  have hticket : c.view.ticket = some t₀ := by simp [Call.view, hc, Stage.ticket]
  have hlt₀ := h.numbered.lt k c.view t₀ (view_get hk) hticket
  have hne : t ≠ t₀ := by
    rintro rfl
    exact h.numbered.unique (view_get hk) hticket hacc x (by rw [show c.view.side = .queue from hside]; exact hd)
  obtain ⟨j, w, hj, hs, -, hwt, -⟩ := hd
  have hlt := h.numbered.lt j w t hj hwt
  rw [hs] at hlt
  rw [show c.view.side = .queue from hside] at hlt₀
  have hbehind := h.behind hk hc
  rw [hside] at hbehind
  have hq := h.counts.chain .queue
  have hd := h.counts.chain .deque
  have heq := h.counts.enough .queue
  have hed := h.counts.enough .deque
  simp only [Side.other, permits] at heq hed
  -- both tickets are less than `size` ahead of the slots that have been read
  refine h.did_of_lt (Nat.lt_of_not_le fun hge => hne ?_)
  have hbase : ∀ a b : Nat, a ≤ b → b < a + size → a % size = b % size → a = b := by
    intro a b hab hba he
    obtain ⟨e, rfl⟩ := Nat.exists_eq_add_of_le hab
    have hdvd : e % size = 0 := by
      have := Nat.sub_mod_eq_zero_of_mod_eq he.symm
      rwa [Nat.add_sub_cancel_left] at this
    rw [Nat.mod_eq_of_lt (by omega)] at hdvd
    omega
  rcases Nat.le_total t t₀ with hle | hle
  · exact hbase t t₀ hle (by omega) hmod
  · exact (hbase t₀ t hle (by omega) hmod.symm).symm

/-- A step that does not touch the slots or the indices. -/
theorem Inv.goto {s : Ring T} (h : s.Inv size) {k : Nat} {c : Call T} (hk : s.calls[k]? = some c) {st : Stage}
    (hview : ({ c with stage := st } : Call T).view = c.view) {count : Side → Int}
    (hcounts : Counts size (s.calls.set k { c with stage := st }) count s.reserved)
    (hline : Line size (s.calls.set k { c with stage := st })) : (({ s with count := count } : Ring T).goto k c st).Inv size := by
  refine ⟨hcounts, hline, h.index, ?_, ?_⟩
  · show Numbered ((s.calls.set k { c with stage := st }).map Call.view) s.reserved
    rw [views_goto hk hview]
    exact h.numbered
  · show Slots size ((s.calls.set k { c with stage := st }).map Call.view) s.q
    rw [views_goto hk hview]
    exact h.slots

/-- The permit is taken, or found missing. -/
theorem Inv.step_start (hsize : size < 2147483648) {s : Ring T} (h : s.Inv size) {k : Nat} {c : Call T}
    (hk : s.calls[k]? = some c) (hc : c.stage = .start) (hlow : -2147483648 < s.count c.side) :
    (({ s with count := Function.update s.count c.side (wrap (s.count c.side - 1)) } : Ring T).goto k c
      (if s.count c.side ≤ 0 then .refused else .reset)).Inv size := by
  have hle := h.counts.count_le c.side
  rw [wrap_eq (by omega) (by omega)]
  have hlow' : ∀ d, -2147483648 ≤ Function.update s.count c.side (s.count c.side - 1) d := by
    intro d
    rw [Function.update_apply]
    split_ifs
    · omega
    · exact h.counts.low d
  have hother : Function.update s.count c.side (s.count c.side - 1) c.side.other = s.count c.side.other :=
    Function.update_of_ne (Side.other_ne _) _ _
  split_ifs with hneg
  · refine h.goto hk (by simp [Call.view, hc, Stage.ticket, Stage.accessed]) ?_
      (h.line.set_apart k (fun p t => by simp) (fun t => by simp))
    refine h.counts.step hk rfl (by rw [hc]; rfl) ?_ ?_ (by simp [hc, Stage.numbered, Stage.ticket]) rfl
      (fun hp => absurd hp (by simp [Stage.passed])) hlow'
    · simp [hc, Stage.passed, Stage.isRefused]
    · simp [hother, Stage.isReturned]
  · refine h.goto hk (by simp [Call.view, hc, Stage.ticket, Stage.accessed]) ?_
      (h.line.set_apart k (fun p t => by simp) (fun t => by simp))
    refine h.counts.step hk rfl (by rw [hc]; rfl) ?_ ?_ (by simp [hc, Stage.numbered, Stage.ticket]) rfl
      (fun _ => Or.inr (by omega)) hlow'
    · simp [hc, Stage.passed, Stage.isRefused]
    · simp [hother, Stage.isReturned]

/-- The missing permit is put back. -/
theorem Inv.step_refused (hsize : size < 2147483648) {s : Ring T} (h : s.Inv size) {k : Nat} {c : Call T}
    (hk : s.calls[k]? = some c) (hc : c.stage = .refused) :
    (({ s with count := Function.update s.count c.side (wrap (s.count c.side + 1)) } : Ring T).goto k c .failed).Inv size := by
  have hlow := h.counts.low c.side
  have hcounts : Counts size (s.calls.set k { c with stage := .failed })
      (Function.update s.count c.side (s.count c.side + 1)) s.reserved := by
    refine h.counts.step hk rfl (by rw [hc]; rfl) ?_ ?_ (by simp [hc, Stage.numbered, Stage.ticket]) rfl
      (fun hp => absurd hp (by simp [Stage.passed])) ?_
    · simp [hc, Stage.passed, Stage.isRefused]
    · simp [Function.update_of_ne (Side.other_ne c.side), Stage.isReturned]
    · intro d
      rw [Function.update_apply]
      split_ifs
      · omega
      · exact h.counts.low d
  have hle := hcounts.count_le c.side
  rw [Function.update_self] at hle
  rw [wrap_eq (by omega) (by omega)]
  exact h.goto hk (by simp [Call.view, hc, Stage.ticket, Stage.accessed]) hcounts
    (h.line.set_apart k (fun p t => by simp) (fun t => by simp))

/-- The index is set back when it is at the end. -/
theorem Inv.step_reset {s : Ring T} (h : s.Inv size) {k : Nat} {c : Call T}
    (hk : s.calls[k]? = some c) (hc : c.stage = .reset) :
    (({ s with index := Function.update s.index c.side (if s.index c.side = size then 0 else s.index c.side) } : Ring T).goto k c
      .reserve).Inv size := by
  have hinv : (({ s with count := s.count } : Ring T).goto k c .reserve).Inv size := by
    refine h.goto hk (by simp [Call.view, hc, Stage.ticket, Stage.accessed]) ?_
      (h.line.set_apart k (fun p t => by simp) (fun t => by simp))
    exact h.counts.step hk rfl (by rw [hc]; rfl) (by simp [hc, Stage.passed, Stage.isRefused]) (by simp [Stage.isReturned])
      (by simp [hc, Stage.numbered, Stage.ticket]) rfl (fun _ => Or.inl (by rw [hc]; rfl)) h.counts.low
  refine ⟨hinv.counts, hinv.line, fun d => ?_, hinv.numbered, hinv.slots⟩
  obtain ⟨hlo, hhi, hmod⟩ := h.index d
  show 0 ≤ Function.update s.index c.side _ d ∧ Function.update s.index c.side _ d ≤ 2147483647 ∧
    (Function.update s.index c.side _ d).toNat % size = s.reserved d % size
  rw [Function.update_apply]
  split_ifs with hd hend
  · rw [← hd] at hend
    rw [hend, Int.toNat_natCast, Nat.mod_self] at hmod
    exact ⟨Int.le_refl 0, by omega, by rw [Int.toNat_zero, Nat.zero_mod]; exact hmod⟩
  · rw [← hd]
    exact ⟨hlo, hhi, hmod⟩
  · exact ⟨hlo, hhi, hmod⟩

/-- A slot is reserved. -/
theorem Inv.step_reserve {s : Ring T} (h : s.Inv size) {k : Nat} {c : Call T} (hk : s.calls[k]? = some c)
    (hc : c.stage = .reserve) (hlt : s.index c.side < 2147483647) :
    (({ s with
      index := Function.update s.index c.side (wrap (s.index c.side + 1))
      reserved := Function.update s.reserved c.side (s.reserved c.side + 1) } : Ring T).goto k c
        (.access ((s.index c.side % 18446744073709551616).toNat % size) (s.reserved c.side))).Inv size := by
  obtain ⟨hlo, hhi, hmod⟩ := h.index c.side
  rw [wrap_eq (by omega) (by omega), Int.emod_eq_of_lt hlo (by omega), hmod]
  have hview : ({ c with stage := .access (s.reserved c.side % size) (s.reserved c.side) } : Call T).view =
      { c.view with ticket := some (s.reserved c.side) } := by simp [Call.view, hc, Stage.ticket, Stage.accessed]
  have hviews : (s.calls.set k { c with stage := .access (s.reserved c.side % size) (s.reserved c.side) }).map Call.view =
      (s.calls.map Call.view).set k { c.view with ticket := some (s.reserved c.side) } := by rw [List.map_set, hview]
  refine ⟨?_, ?_, fun d => ?_, ?_, ?_⟩
  · refine h.counts.step hk rfl (by rw [hc]; rfl) (by simp [hc, Ring.goto, Stage.passed, Stage.isRefused])
      (by simp [Ring.goto, Stage.isReturned]) ?_ ?_ (fun _ => Or.inl (by rw [hc]; rfl)) h.counts.low
    · simp [hc, Ring.goto, Stage.numbered, Stage.ticket]
    · exact Function.update_of_ne (Side.other_ne _) _ _
  · refine h.line.set ?_ (fun t ht => absurd ht (by simp)) ?_
    · intro p t ht
      obtain ⟨rfl, rfl⟩ := Stage.access.inj ht
      rfl
    · intro p t' ht' j c₁ t hj hs ht
      obtain ⟨-, rfl⟩ := Stage.access.inj ht'
      have := h.numbered.lt j c₁.view t (view_get hj) (by simp [Call.view, ht, Stage.ticket])
      rwa [show c₁.view.side = c.side from hs] at this
  · show 0 ≤ Function.update s.index c.side _ d ∧ Function.update s.index c.side _ d ≤ 2147483647 ∧
      (Function.update s.index c.side _ d).toNat % size = Function.update s.reserved c.side _ d % size
    rw [Function.update_apply, Function.update_apply]
    split_ifs with hd
    · refine ⟨by omega, by omega, ?_⟩
      rw [Int.toNat_add hlo (by omega)]
      exact Nat.ModEq.add_right 1 hmod
    · exact h.index d
  · show Numbered ((s.calls.set k _).map Call.view) (Function.update s.reserved c.side (s.reserved c.side + 1))
    rw [hviews]
    exact h.numbered.reserve (view_get hk) (by simp [Call.view, hc, Stage.ticket])
  · show Slots size ((s.calls.set k _).map Call.view) s.q
    rw [hviews]
    exact h.slots.reserve (view_get hk) (by simp [Call.view, hc, Stage.accessed]) _

/-- What the counters and the order of the slots make of a call that has been at its slot. -/
theorem Inv.counts_publish {s : Ring T} (h : s.Inv size) {k : Nat} {c : Call T} {p t : Nat} (hk : s.calls[k]? = some c)
    (hc : c.stage = .access p t) (node : Option (Nat × T)) :
    Counts size (s.calls.set k { c with node := node, stage := .publish t }) s.count s.reserved ∧
      Line size (s.calls.set k { c with node := node, stage := .publish t }) := by
  refine ⟨h.counts.step hk rfl (by rw [hc]; rfl) (by simp [hc, Stage.passed, Stage.isRefused]) (by simp [Stage.isReturned])
      (by simp [hc, Stage.numbered, Stage.ticket]) rfl (fun _ => Or.inl (by rw [hc]; rfl)) h.counts.low,
    h.line.set_apart k (fun p t => by simp) (fun t => by simp)⟩

/-- A call of `queue` writes its slot. -/
theorem Inv.step_write {s : Ring T} (h : s.Inv size) {k : Nat} {c : Call T} {p t : Nat} (hk : s.calls[k]? = some c)
    (hside : c.side = .queue) (hc : c.stage = .access p t) :
    (({ s with q := Function.update s.q p c.node } : Ring T).goto k c (.publish t)).Inv size := by
  obtain ⟨hcounts, hline⟩ := h.counts_publish hk hc c.node
  have hticket : c.view.ticket = some t := by simp [Call.view, hc, Stage.ticket]
  have hacc : c.view.accessed = false := by simp [Call.view, hc, Stage.accessed]
  have hview : ({ c with stage := .publish t } : Call T).view = { c.view with accessed := true } := by
    simp [Call.view, hc, Stage.ticket, Stage.accessed]
  have hviews : (s.calls.set k { c with stage := .publish t }).map Call.view =
      (s.calls.map Call.view).set k { c.view with accessed := true } := by rw [List.map_set, hview]
  refine ⟨hcounts, hline, h.index, ?_, ?_⟩
  · show Numbered ((s.calls.set k _).map Call.view) s.reserved
    rw [hviews]
    exact h.numbered.access (view_get hk) rfl hticket hticket
  · show Slots size ((s.calls.set k _).map Call.view) (Function.update s.q p c.node)
    rw [hviews, h.line.pos k c p t hk hc]
    exact h.slots.write (view_get hk) hside hticket hacc fun t' x hd hmod => h.free hk hside hc hd hmod

/-- A call of `deque` reads its slot. -/
theorem Inv.step_take {s : Ring T} (h : s.Inv size) {k : Nat} {c : Call T} {p t : Nat} (hk : s.calls[k]? = some c)
    (hside : c.side = .deque) (hc : c.stage = .access p t) :
    (s.goto k { c with node := s.q p } (.publish t)).Inv size := by
  obtain ⟨hcounts, hline⟩ := h.counts_publish hk hc (s.q p)
  have hticket : c.view.ticket = some t := by simp [Call.view, hc, Stage.ticket]
  have hacc : c.view.accessed = false := by simp [Call.view, hc, Stage.accessed]
  have hpos := h.line.pos k c p t hk hc
  have hview : ({ c with node := s.q p, stage := .publish t } : Call T).view =
      { c.view with node := s.q (t % size), accessed := true } := by
    simp [Call.view, hc, hpos, Stage.ticket, Stage.accessed]
  have hviews : (s.calls.set k { c with node := s.q p, stage := .publish t }).map Call.view =
      (s.calls.map Call.view).set k { c.view with node := s.q (t % size), accessed := true } := by rw [List.map_set, hview]
  have hwritten : ∃ x, Did (s.calls.map Call.view) .queue t x := by
    refine h.did_of_lt ?_
    have hlt := h.numbered.lt k c.view t (view_get hk) hticket
    rw [show c.view.side = .deque from hside] at hlt
    have hd := h.counts.chain .deque
    have he := h.counts.enough .deque
    simp only [Side.other, permits] at he
    omega
  refine ⟨hcounts, hline, h.index, ?_, ?_⟩
  · show Numbered ((s.calls.set k _).map Call.view) s.reserved
    rw [hviews]
    exact h.numbered.access (view_get hk) rfl hticket hticket
  · show Slots size ((s.calls.set k _).map Call.view) s.q
    rw [hviews]
    exact h.slots.take h.numbered (view_get hk) hside hticket hacc hwritten

/-- The permit is given to the other side. -/
theorem Inv.step_publish (hsize : size < 2147483648) {s : Ring T} (h : s.Inv size) {k : Nat} {c : Call T} {t : Nat}
    (hk : s.calls[k]? = some c) (hc : c.stage = .publish t)
    (ho : ∀ c' ∈ s.calls, c'.side = c.side → ∀ t' ∈ c'.stage.waiting, t ≤ t') :
    (({ s with count := Function.update s.count c.side.other (wrap (s.count c.side.other + 1)) } : Ring T).goto k c
      (.returned t)).Inv size := by
  have hlow := h.counts.low c.side.other
  have hcounts : Counts size (s.calls.set k { c with stage := .returned t })
      (Function.update s.count c.side.other (s.count c.side.other + 1)) s.reserved := by
    refine h.counts.step hk rfl (by rw [hc]; rfl) ?_ ?_ (by simp [hc, Stage.numbered, Stage.ticket]) rfl
      (fun _ => Or.inl (by rw [hc]; rfl)) ?_
    · simp [hc, Function.update_of_ne (Side.other_ne c.side).symm, Stage.passed, Stage.isRefused]
    · simp [Stage.isReturned]
    · intro d
      rw [Function.update_apply]
      split_ifs
      · omega
      · exact h.counts.low d
  have hle := hcounts.count_le c.side.other
  rw [Function.update_self] at hle
  rw [wrap_eq (by omega) (by omega)]
  refine h.goto hk (by simp [Call.view, hc, Stage.ticket, Stage.accessed]) hcounts
    (h.line.set (fun p t ht => absurd ht (by simp)) ?_ (fun p t ht => absurd ht (by simp)))
  intro t₀ ht₀ j c' p t' hj hj' hs hst
  obtain rfl := Stage.returned.inj ht₀
  refine Nat.lt_of_le_of_ne (ho c' (List.mem_of_getElem? hj') hs t' (by rw [hst]; rfl)) ?_
  rintro rfl
  exact hj (h.numbered.inj j k c'.view c.view t (view_get hj') (view_get hk) hs (by simp [Call.view, hst, Stage.ticket])
    (by simp [Call.view, hc, Stage.ticket]))

/-- An orderly step keeps the invariant. -/
theorem Inv.step (hsize : size < 2147483648) {s s' : Ring T} (h : s.Inv size) {k : Nat} (ho : s.StepOrderly k)
    (hs : s.step size k = some s') : s'.Inv size := by
  rw [Ring.step] at hs
  cases hk : s.calls[k]? with
  | none =>
    rw [hk] at hs
    exact absurd hs (by simp)
  | some c =>
    have ho := ho c hk
    rw [hk] at hs
    cases hc : c.stage with
    | start =>
      simp only [hc] at hs ho
      exact Option.some.inj hs ▸ h.step_start hsize hk hc ho
    | refused =>
      simp only [hc] at hs
      exact Option.some.inj hs ▸ h.step_refused hsize hk hc
    | reset =>
      simp only [hc] at hs
      exact Option.some.inj hs ▸ h.step_reset hk hc
    | reserve =>
      simp only [hc] at hs ho
      exact Option.some.inj hs ▸ h.step_reserve hk hc ho
    | access p t =>
      simp only [hc] at hs
      cases hside : c.side with
      | queue =>
        simp only [hside] at hs
        exact Option.some.inj hs ▸ h.step_write hk hside hc
      | deque =>
        simp only [hside] at hs
        have htake := h.step_take hk hside hc
        simp only [hc, hside] at htake
        exact Option.some.inj hs ▸ htake
    | publish t =>
      simp only [hc] at hs ho
      exact Option.some.inj hs ▸ h.step_publish hsize hk hc ho
    | returned t =>
      simp only [hc] at hs
      exact absurd hs (by simp)
    | failed =>
      simp only [hc] at hs
      exact absurd hs (by simp)

/-- By induction over the schedule: an orderly run keeps the invariant. -/
theorem Inv.run (hsize : size < 2147483648) (ks : List Nat) : ∀ {s : Ring T}, s.Inv size → s.Orderly size ks →
    (s.run size ks).Inv size := by
  induction ks with
  | nil => exact fun h _ => h
  | cons k ks ih =>
    intro s h ho
    refine ih ?_ ho.2
    cases hs : s.step size k with
    | none => exact h
    | some s' => exact h.step hsize ho.1 hs

/-- At the beginning no call has done anything. -/
theorem inv_start (requests : List (Option T)) : (start size requests).Inv size := by
  have hcall : ∀ {k : Nat} {c : Call T}, (start size requests).calls[k]? = some c →
      c.stage = .start ∧ (c.side = .queue → ∃ x, c.node = some (k, x)) := by
    intro k c hk
    simp only [start, List.getElem?_mapIdx] at hk
    obtain ⟨r, -, rfl⟩ := Option.map_eq_some_iff.mp hk
    cases r with
    | none => exact ⟨rfl, fun h => absurd h (by simp)⟩
    | some x => exact ⟨rfl, fun _ => ⟨x, rfl⟩⟩
  have hview : ∀ {k : Nat} {v : View T}, ((start size requests).calls.map Call.view)[k]? = some v →
      v.ticket = none ∧ v.accessed = false := by
    intro k v hk
    rw [List.getElem?_map] at hk
    obtain ⟨c, hc, rfl⟩ := Option.map_eq_some_iff.mp hk
    simp [Call.view, (hcall hc).1, Stage.ticket, Stage.accessed]
  have hzero : ∀ d p, p Stage.start = false → number (start size requests).calls d p = 0 := by
    intro d p hp
    refine List.countP_eq_zero.mpr fun c hc => ?_
    obtain ⟨k, hk⟩ := List.mem_iff_getElem?.mp hc
    simp [(hcall hk).1, hp]
  have hdid : ∀ {d t x}, ¬ Did ((start size requests).calls.map Call.view) d t x := by
    rintro d t x ⟨k, v, hk, -, hv, -⟩
    exact absurd hv (by simp [(hview hk).2])
  refine ⟨⟨?_, ?_, ?_, ?_, ?_⟩, ⟨?_, ?_⟩, ?_, ⟨?_, ?_, ?_, ?_⟩, ⟨?_, ?_, ?_⟩⟩
  · intro d
    rw [hzero d _ rfl, hzero d _ rfl, hzero d.other _ rfl]
    simp [start]
  · intro d
    rw [hzero d _ rfl]
    exact Nat.zero_le _
  · exact fun _ d => hzero d _ rfl
  · exact fun d => (hzero d _ rfl).symm
  · intro d
    simp only [start]
    omega
  · exact fun k c p t hk hc => absurd hc (by simp [(hcall hk).1])
  · exact fun k k' c c' t p t' hk _ _ hc _ => absurd hc (by simp [(hcall hk).1])
  · exact fun d => ⟨Int.le_refl 0, by simp [start], rfl⟩
  · exact fun k v t hk hv => absurd hv (by simp [(hview hk).1])
  · exact fun k k' v v' t hk _ _ hv _ => absurd hv (by simp [(hview hk).1])
  · exact fun d t ht => absurd ht (Nat.not_lt_zero t)
  · exact fun k v hk hv => absurd hv (by simp [(hview hk).2])
  · intro k v hk hs
    rw [List.getElem?_map] at hk
    obtain ⟨c, hc, rfl⟩ := Option.map_eq_some_iff.mp hk
    exact (hcall hc).2 hs
  · exact fun t x h => absurd h hdid
  · exact fun t x h => absurd h hdid

/-! ## Delivery -/

/-- A call that has been at its slot, by its ticket. -/
theorem Inv.did {s : Ring T} (h : s.Inv size) {k : Nat} {c : Call T} (hk : s.calls[k]? = some c) (hacc : c.stage.accessed = true) :
    ∃ t, c.view.ticket = some t ∧ Did (s.calls.map Call.view) c.side t c.node := by
  obtain ⟨t, ht⟩ := h.numbered.acc k c.view (view_get hk) hacc
  exact ⟨t, ht, k, c.view, view_get hk, rfl, hacc, ht, rfl⟩

/-- What has been done was done by a call that is past its access. -/
theorem did_call {s : Ring T} {d : Side} {t : Nat} {x : Option (Nat × T)} (h : Did (s.calls.map Call.view) d t x) :
    ∃ (k : Nat) (c : Call T), s.calls[k]? = some c ∧ c.side = d ∧ c.stage.accessed = true ∧ c.view.ticket = some t ∧
      c.node = x := by
  obtain ⟨k, v, hk, hs, hacc, ht, hx⟩ := h
  rw [List.getElem?_map] at hk
  obtain ⟨c, hc, rfl⟩ := Option.map_eq_some_iff.mp hk
  exact ⟨k, c, hc, hs, hacc, ht, hx⟩

/-- A call of `queue` holds its own element. -/
theorem Inv.own {s : Ring T} (h : s.Inv size) {k : Nat} {c : Call T} (hk : s.calls[k]? = some c) (hs : c.side = .queue) :
    ∃ x, c.node = some (k, x) := h.slots.own k c.view (view_get hk) hs

/-- What is taken was stored under the same ticket. -/
theorem Inv.taken {s : Ring T} (h : s.Inv size) {k : Nat} {x : Option (Nat × T)} (hx : s.Taken k x) :
    ∃ c t k' y, s.calls[k]? = some c ∧ c.side = .deque ∧ c.view.ticket = some t ∧ x = some y ∧ s.Stored k' y ∧ y.1 = k' ∧
      ∃ c', s.calls[k']? = some c' ∧ c'.side = .queue ∧ c'.view.ticket = some t := by
  obtain ⟨c, hk, hs, hacc, rfl⟩ := hx
  obtain ⟨t, ht, hdid⟩ := h.did hk hacc
  rw [hs] at hdid
  obtain ⟨k', c', hk', hs', hacc', ht', hn⟩ := did_call (h.slots.taken t _ hdid)
  obtain ⟨y, hy⟩ := h.own hk' hs'
  exact ⟨c, t, k', (k', y), hk, hs, ht, hn.symm.trans hy, ⟨c', hk', hs', hacc', hy⟩, rfl, c', hk', hs', ht'⟩

/-- Under the invariant, what was taken is what was put, ticket by ticket. -/
theorem Inv.exact {s : Ring T} (h : s.Inv size) : s.Exact size := by
  have honce : ∀ k k' x, s.Taken k x → s.Taken k' x → k = k' := by
    intro k k' x hx hx'
    obtain ⟨c, t, j, y, hk, hs, ht, rfl, -, rfl, e, hj, -, he⟩ := h.taken hx
    obtain ⟨c', t', j', y', hk', hs', ht', hy, -, rfl, e', hj', -, he'⟩ := h.taken hx'
    obtain rfl := Option.some.inj hy
    rw [hj, Option.some_inj] at hj'
    rw [← hj', he, Option.some_inj] at he'
    exact h.numbered.inj k k' c.view c'.view t (view_get hk) (view_get hk') (hs.trans hs'.symm) ht (by rw [he']; exact ht')
  have hkept : ∀ k x, s.Stored k x → (∃ k', s.Taken k' (some x)) ∨ ∃ pos, pos < size ∧ s.q pos = some x := by
    rintro k x ⟨c, hk, hs, hacc, hx⟩
    obtain ⟨t, ht, hdid⟩ := h.did hk hacc
    rw [hs, hx] at hdid
    rcases h.slots.kept t _ hdid with hq | ⟨y, hy⟩
    · refine Or.inr ⟨t % size, Nat.mod_lt _ ?_, hq⟩
      -- there is a slot, for a permit has been taken
      rcases Nat.eq_zero_or_pos size with h0 | h0
      · have hlt := h.numbered.lt k c.view t (view_get hk) ht
        have hz := h.counts.empty h0 c.side
        have := (h.counts.chain c.side).2
        exact absurd (show t < s.reserved c.side from hlt) (by omega)
      · exact h0
    · obtain ⟨k', c', hk', hs', hacc', ht', rfl⟩ := did_call hy
      refine Or.inl ⟨k', c', hk', hs', hacc', ?_⟩
      obtain ⟨j, e, hj, he, -, het, hn⟩ := did_call (h.slots.taken t _ hy)
      have hjk := h.numbered.inj j k e.view c.view t (view_get hj) (view_get hk) (he.trans hs.symm) het ht
      rw [hjk, hk, Option.some_inj] at hj
      rw [← hn, ← hj, hx]
  refine ⟨?_, honce, hkept, ?_⟩
  · intro k x hx
    obtain ⟨-, -, k', y, -, -, -, rfl, hy, -⟩ := h.taken hx
    exact ⟨k', y, rfl, hy⟩
  · intro ks hnd hheld
    -- the elements that are held are in different slots
    have hslot : ∀ k ∈ ks, ∃ pos, pos < size ∧ ∃ x, s.q pos = some (k, x) := by
      intro k hk
      obtain ⟨x, hx, hnot⟩ := hheld k hk
      obtain ⟨pos, hpos, hq⟩ := (hkept k x hx).resolve_left fun ⟨k', hk'⟩ => hnot k' hk'
      obtain ⟨c, hc, hs, -, hcx⟩ := hx
      obtain ⟨y, hy⟩ := h.own hc hs
      exact ⟨pos, hpos, y, by rw [hq, ← hcx, hy]⟩
    choose! pos hpos hq using hslot
    have hinj : (ks.map pos).Nodup := by
      refine (List.nodup_map_iff_inj_on hnd).mpr fun k hk k' hk' he => ?_
      obtain ⟨x, hx⟩ := hq k hk
      obtain ⟨x', hx'⟩ := hq k' hk'
      rw [he, hx', Option.some_inj] at hx
      exact (congrArg Prod.fst hx).symm
    rw [← List.length_map pos]
    refine length_le_of_nodup_lt hinj fun p hp => ?_
    obtain ⟨k, hk, rfl⟩ := List.mem_map.mp hp
    exact hpos k hk

/-- **Every element is delivered exactly once** in a run of any calls of `queue` and `deque`, under any schedule, as long as a permit
is only given when the slots reserved earlier on the same side have been written, or read, and no counter leaves the range of
`int`. (A `size` that is not in this range does not compile.) -/
theorem exact_of_orderly (hsize : size < 2147483648) (requests : List (Option T)) {ks : List Nat}
    (ho : (start size requests).Orderly size ks) : ((start size requests).run size ks).Exact size :=
  ((inv_start requests).run hsize ks ho).exact

/-- Two calls of `queue` and two of `deque` in turns, on a ring of two slots. -/
def inTurns : List Nat := [0, 1, 0, 1, 0, 1, 1, 0, 0, 2, 1, 3, 2, 3, 3, 2, 2, 3, 2, 3]

theorem exact_of_orderly_two : ((start 2 [some 7, some 8, none, none]).run 2 inTurns).Exact 2 :=
  exact_of_orderly (by decide) _ (by decide +kernel)

/-- Two calls of `queue` have reserved a slot, and the second one gives its permit before the first one has written. -/
def overtaken : List Nat := [0, 0, 0, 1, 1, 1, 1, 1, 2, 2, 2, 2]

/-- The call of `deque` then returns what is in the slot that has not been written. -/
theorem not_exact : ¬ ((start 2 [some 1, some 2, none]).run 2 overtaken).Exact 2 := by
  intro h
  obtain ⟨k', y, hy, -⟩ := h.stored 2 none ⟨⟨.deque, none, .publish 0⟩, by decide +kernel, rfl, rfl, rfl⟩
  exact absurd hy (by simp)

end Ring

end Netcore.LockFreeQueue
