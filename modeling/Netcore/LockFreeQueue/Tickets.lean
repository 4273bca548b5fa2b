import Netcore.Lib.Threads
import Netcore.LockFreeQueue

/-!
# Tickets

Which slot a call of `lockFreeQueue` is on, apart from the permits. The ticket of a call is the number of its reservation, and
tells the slot. `Numbered` says that the tickets of a side are told apart, and `Slots` what the slots and the calls hold. The
steps that touch a slot need what the permits provide: the slot that is written has been read before (`Slots.write`), and the
slot that is read has been written (`Slots.take`).
-/

namespace Netcore.LockFreeQueue

open Threads

/-- What a call shows of itself. -/
structure View (T : Type) where
  side : Side
  node : Option (Nat × T)
  ticket : Option Nat
  accessed : Bool

def Call.view {T : Type} (c : Call T) : View T := ⟨c.side, c.node, c.stage.ticket, c.stage.accessed⟩

variable {T : Type} {size : Nat}

/-- The calls that have reserved a slot on a side are numbered from 0. -/
structure Numbered (views : List (View T)) (reserved : Side → Nat) : Prop where
  lt : ∀ (k : Nat) (v : View T) t, views[k]? = some v → v.ticket = some t → t < reserved v.side
  inj : ∀ (k k' : Nat) (v v' : View T) t, views[k]? = some v → views[k']? = some v' → v.side = v'.side →
    v.ticket = some t → v'.ticket = some t → k = k'
  ex : ∀ d t, t < reserved d → ∃ (k : Nat) (v : View T), views[k]? = some v ∧ v.side = d ∧ v.ticket = some t
  acc : ∀ (k : Nat) (v : View T), views[k]? = some v → v.accessed = true → ∃ t, v.ticket = some t

/-- The call with the ticket `t` of a side has been at its slot, and has the element `x`. -/
def Did (views : List (View T)) (d : Side) (t : Nat) (x : Option (Nat × T)) : Prop :=
  ∃ (k : Nat) (v : View T), views[k]? = some v ∧ v.side = d ∧ v.accessed = true ∧ v.ticket = some t ∧ v.node = x

/-- What is in the slots: an element stays in its slot until the call of `deque` with the same ticket has it. -/
structure Slots (size : Nat) (views : List (View T)) (q : Nat → Option (Nat × T)) : Prop where
  own : ∀ (k : Nat) (v : View T), views[k]? = some v → v.side = .queue → ∃ x, v.node = some (k, x)
  kept : ∀ t x, Did views .queue t x → q (t % size) = x ∨ ∃ y, Did views .deque t y
  taken : ∀ t x, Did views .deque t x → Did views .queue t x

/-- The call with a ticket that is at its slot is not among those that have been there. -/
theorem Numbered.unique {views : List (View T)} {reserved : Side → Nat} (h : Numbered views reserved) {k t : Nat} {v : View T}
    (hk : views[k]? = some v) (ht : v.ticket = some t) (hv : v.accessed = false) (x : Option (Nat × T)) :
    ¬ Did views v.side t x := by
  rintro ⟨j, w, hj, hs, hw, hwt, -⟩
  have hjk := h.inj j k w v t hj hk hs hwt ht
  rw [hjk, hk, Option.some_inj] at hj
  rw [← hj, hv] at hw
  exact absurd hw (by simp)

/-- The next slot is reserved. -/
theorem Numbered.reserve {views : List (View T)} {reserved : Side → Nat} (h : Numbered views reserved) {k : Nat} {v : View T}
    (hk : views[k]? = some v) (hv : v.ticket = none) :
    Numbered (views.set k { v with ticket := some (reserved v.side) })
      (Function.update reserved v.side (reserved v.side + 1)) := by
  refine ⟨?_, ?_, ?_, ?_⟩
  · intro j w t hj ht
    rcases set_cases hj with ⟨-, rfl⟩ | ⟨-, hj⟩
    · rw [Function.update_self, ← Option.some.inj ht]
      exact Nat.lt_succ_self _
    · have := h.lt j w t hj ht
      rw [Function.update_apply]
      split_ifs with hs
      · rw [hs] at this
        omega
      · exact this
  · intro j j' w w' t hj hj' hs ht ht'
    rcases set_cases hj with ⟨rfl, rfl⟩ | ⟨-, hj₀⟩
    · rcases set_cases hj' with ⟨rfl, -⟩ | ⟨-, hj₀'⟩
      · rfl
      · have := h.lt j' w' t hj₀' ht'
        rw [← hs, ← Option.some.inj ht] at this
        exact absurd this (Nat.lt_irrefl _)
    · rcases set_cases hj' with ⟨rfl, rfl⟩ | ⟨-, hj₀'⟩
      · have := h.lt j w t hj₀ ht
        rw [hs, ← Option.some.inj ht'] at this
        exact absurd this (Nat.lt_irrefl _)
      · exact h.inj j j' w w' t hj₀ hj₀' hs ht ht'
  · intro d t ht
    by_cases hnew : d = v.side ∧ t = reserved v.side
    · exact ⟨k, _, set_same hk _, hnew.1.symm, by rw [hnew.2]⟩
    · have hlt : t < reserved d := by
        rw [Function.update_apply] at ht
        split_ifs at ht with hd
        · rw [hd]
          have : t ≠ reserved v.side := fun he => hnew ⟨hd, he⟩
          omega
        · exact ht
      obtain ⟨j, w, hj, hs, hwt⟩ := h.ex d t hlt
      refine ⟨j, w, set_of_ne hj ?_ _, hs, hwt⟩
      rintro rfl
      rw [hk, Option.some_inj] at hj
      exact absurd hwt (by simp [← hj, hv])
  · intro j w hj hw
    rcases set_cases hj with ⟨-, rfl⟩ | ⟨-, hj⟩
    · exact ⟨_, rfl⟩
    · exact h.acc j w hj hw

/-- A call that has a ticket goes on with it. -/
theorem Numbered.access {views : List (View T)} {reserved : Side → Nat} (h : Numbered views reserved) {k t₀ : Nat}
    {v v' : View T} (hk : views[k]? = some v) (hs₀ : v'.side = v.side) (ht₀ : v.ticket = some t₀) (ht' : v'.ticket = some t₀) :
    Numbered (views.set k v') reserved := by
  -- the call `k` before and after is the same for the tickets
  have hold : ∀ {j : Nat} {w : View T}, (views.set k v')[j]? = some w → ∃ w₀ : View T, views[j]? = some w₀ ∧ w₀.side = w.side ∧ w₀.ticket = w.ticket := by
    intro j w hj
    rcases set_cases hj with ⟨rfl, rfl⟩ | ⟨-, hj⟩
    · exact ⟨v, hk, hs₀.symm, ht₀.trans ht'.symm⟩
    · exact ⟨w, hj, rfl, rfl⟩
  refine ⟨?_, ?_, ?_, ?_⟩
  · intro j w t hj ht
    obtain ⟨w₀, hj₀, hs, hwt⟩ := hold hj
    rw [← hs]
    exact h.lt j w₀ t hj₀ (hwt.trans ht)
  · intro j j' w w' t hj hj' hs ht ht'
    obtain ⟨w₀, hj₀, hs₀, hwt⟩ := hold hj
    obtain ⟨w₁, hj₁, hs₁, hwt'⟩ := hold hj'
    exact h.inj j j' w₀ w₁ t hj₀ hj₁ (by rw [hs₀, hs₁, hs]) (hwt.trans ht) (hwt'.trans ht')
  · intro d t ht
    obtain ⟨j, w, hj, hs, hwt⟩ := h.ex d t ht
    by_cases hjk : j = k
    · rw [hjk, hk, Option.some_inj] at hj
      subst hj
      exact ⟨k, v', set_same hk v', hs₀.trans hs, by rw [ht', ← ht₀, hwt]⟩
    · exact ⟨j, w, set_of_ne hj hjk v', hs, hwt⟩
  · intro j w hj hw
    rcases set_cases hj with ⟨-, rfl⟩ | ⟨-, hj⟩
    · exact ⟨t₀, ht'⟩
    · exact h.acc j w hj hw

/-- What the calls have done stays done when a call changes that has not been at its slot. -/
theorem Did.set {views : List (View T)} {d : Side} {t k : Nat} {x : Option (Nat × T)} {v : View T} (h : Did views d t x)
    (hk : views[k]? = some v) (hv : v.accessed = false) (v' : View T) : Did (views.set k v') d t x := by
  obtain ⟨j, w, hj, hs, hw, hwt, hx⟩ := h
  refine ⟨j, w, set_of_ne hj ?_ v', hs, hw, hwt, hx⟩
  rintro rfl
  rw [hk, Option.some_inj] at hj
  exact absurd hw (by simp [← hj, hv])

/-- What is done after a call has changed was done by it, or before. -/
theorem did_of_set {views : List (View T)} {d : Side} {t k : Nat} {x : Option (Nat × T)} {v' : View T}
    (h : Did (views.set k v') d t x) :
    v'.side = d ∧ v'.accessed = true ∧ v'.ticket = some t ∧ v'.node = x ∨ Did views d t x := by
  obtain ⟨j, w, hj, hs, hw, hwt, hx⟩ := h
  rcases set_cases hj with ⟨-, rfl⟩ | ⟨-, hj⟩
  · exact Or.inl ⟨hs, hw, hwt, hx⟩
  · exact Or.inr ⟨j, w, hj, hs, hw, hwt, hx⟩

/-- A call that is still not at its slot changes nothing there. -/
theorem Slots.reserve {views : List (View T)} {q : Nat → Option (Nat × T)} (h : Slots size views q) {k : Nat} {v : View T}
    (hk : views[k]? = some v) (hv : v.accessed = false) (t₀ : Option Nat) : Slots size (views.set k { v with ticket := t₀ }) q := by
  have hnew : ∀ {d t x}, Did (views.set k { v with ticket := t₀ }) d t x → Did views d t x := by
    intro d t x hd
    rcases did_of_set hd with ⟨-, hacc, -⟩ | hd
    · exact absurd hacc (by simp [hv])
    · exact hd
  refine ⟨?_, ?_, ?_⟩
  · intro j w hj hw
    rcases set_cases hj with ⟨rfl, rfl⟩ | ⟨-, hj⟩
    · exact h.own j v hk hw
    · exact h.own j w hj hw
  · intro t x hd
    rcases h.kept t x (hnew hd) with hq | ⟨y, hy⟩
    · exact Or.inl hq
    · exact Or.inr ⟨y, hy.set hk hv _⟩
  · intro t x hd
    exact (h.taken t x (hnew hd)).set hk hv _

/-- A slot is written: what was in it has been read. -/
theorem Slots.write {views : List (View T)} {q : Nat → Option (Nat × T)} (h : Slots size views q) {k t₀ : Nat} {v : View T}
    (hk : views[k]? = some v) (hs₀ : v.side = .queue) (ht₀ : v.ticket = some t₀) (hv : v.accessed = false)
    (hfree : ∀ t x, Did views .queue t x → t % size = t₀ % size → ∃ y, Did views .deque t y) :
    Slots size (views.set k { v with accessed := true }) (Function.update q (t₀ % size) v.node) := by
  refine ⟨?_, ?_, ?_⟩
  · intro j w hj hw
    rcases set_cases hj with ⟨rfl, rfl⟩ | ⟨-, hj⟩
    · exact h.own j v hk hw
    · exact h.own j w hj hw
  · intro t x hd
    rcases did_of_set hd with ⟨-, -, ht, hx⟩ | hd
    · rw [← Option.some.inj (ht₀.symm.trans ht), Function.update_self]
      exact Or.inl hx
    · have hlater : (∃ y, Did views .deque t y) → ∃ y, Did (views.set k { v with accessed := true }) .deque t y :=
        fun ⟨y, hy⟩ => ⟨y, hy.set hk hv _⟩
      rw [Function.update_apply]
      split_ifs with ht
      · exact Or.inr (hlater (hfree t x hd ht))
      · rcases h.kept t x hd with hq | hy
        · exact Or.inl hq
        · exact Or.inr (hlater hy)
  · intro t x hd
    rcases did_of_set hd with ⟨hs, -⟩ | hd
    · exact absurd (hs₀.symm.trans hs) (by simp)
    · exact (h.taken t x hd).set hk hv _

/-- A slot is read: what is in it is what the call of `queue` with the same ticket has put there. -/
theorem Slots.take {views : List (View T)} {q : Nat → Option (Nat × T)} {reserved : Side → Nat} (h : Slots size views q)
    (hn : Numbered views reserved) {k t₀ : Nat} {v : View T}
    (hk : views[k]? = some v) (hs₀ : v.side = .deque) (ht₀ : v.ticket = some t₀) (hv : v.accessed = false)
    (hwritten : ∃ x, Did views .queue t₀ x) :
    Slots size (views.set k { v with node := q (t₀ % size), accessed := true }) q := by
  refine ⟨?_, ?_, ?_⟩
  · intro j w hj hw
    rcases set_cases hj with ⟨-, rfl⟩ | ⟨-, hj⟩
    · exact absurd (hs₀.symm.trans hw) (by simp)
    · exact h.own j w hj hw
  · intro t x hd
    rcases did_of_set hd with ⟨hs, -⟩ | hd
    · exact absurd (hs₀.symm.trans hs) (by simp)
    · rcases h.kept t x hd with hq | ⟨y, hy⟩
      · exact Or.inl hq
      · exact Or.inr ⟨y, hy.set hk hv _⟩
  · intro t x hd
    rcases did_of_set hd with ⟨-, -, ht, hx⟩ | hd
    · obtain ⟨y, hy⟩ := hwritten
      rw [← Option.some.inj (ht₀.symm.trans ht), ← hx]
      rcases h.kept t₀ y hy with hq | ⟨z, hz⟩
      · rw [show ({ v with node := q (t₀ % size), accessed := true } : View T).node = y from hq]
        exact hy.set hk hv _
      · rw [← hs₀] at hz
        exact absurd hz (hn.unique hk ht₀ hv z)
    · exact (h.taken t x hd).set hk hv _

end Netcore.LockFreeQueue
