import Mathlib.Data.List.Basic

/-!
# Octets in groups of six bits

The base 64 coding without its alphabet: three octets are four sextets, the first bits first, and what is left at the end is filled up
with zeros. `join_sextets` reads the octets back, with a state that takes one sextet at a time.
-/

namespace Sextets

/-- The groups of six bits of a text. -/
def sextets : List UInt8 → List Nat
  | a :: b :: c :: rest =>
    [a.toNat / 4, a.toNat % 4 * 16 + b.toNat / 16, b.toNat % 16 * 4 + c.toNat / 64, c.toNat % 64] ++ sextets rest
  | [a, b] => [a.toNat / 4, a.toNat % 4 * 16 + b.toNat / 16, b.toNat % 16 * 4]
  | [a] => [a.toNat / 4, a.toNat % 4 * 16]
  | [] => []

/-- How many sextets the last group lacks. -/
def missing (n : Nat) : Nat := (3 - n % 3) % 3

/-- The octets read so far: how many sextets there were, and the bits of them that are in no octet yet. -/
structure Joined where
  count : Nat := 0
  bits : Nat := 0
  octets : List UInt8 := []
  deriving DecidableEq, Repr

/-- A sextet more. -/
def Joined.step (s : Joined) (x : Nat) : Joined :=
  if s.count % 4 = 0 then ⟨s.count + 1, x * 4, s.octets⟩
  else if s.count % 4 = 1 then ⟨s.count + 1, x % 16 * 16, s.octets ++ [UInt8.ofNat (s.bits + x / 16)]⟩
  else if s.count % 4 = 2 then ⟨s.count + 1, x % 4 * 64, s.octets ++ [UInt8.ofNat (s.bits + x / 4)]⟩
  else ⟨s.count + 1, s.bits + x, s.octets ++ [UInt8.ofNat (s.bits + x)]⟩

section Steps

variable {n bits : Nat} {octets : List UInt8}

/-- The first of four sextets is kept for the next. -/
theorem step_first (h : n % 4 = 0) (x : Nat) : Joined.step ⟨n, bits, octets⟩ x = ⟨n + 1, x * 4, octets⟩ := if_pos h

/-- The second makes an octet with it, and leaves four bits. -/
theorem step_second (h : n % 4 = 1) (x : Nat) :
    Joined.step ⟨n, bits, octets⟩ x = ⟨n + 1, x % 16 * 16, octets ++ [UInt8.ofNat (bits + x / 16)]⟩ :=
  (if_neg (by dsimp only; omega)).trans (if_pos h)

/-- The third makes an octet with these, and leaves two bits. -/
theorem step_third (h : n % 4 = 2) (x : Nat) :
    Joined.step ⟨n, bits, octets⟩ x = ⟨n + 1, x % 4 * 64, octets ++ [UInt8.ofNat (bits + x / 4)]⟩ :=
  (if_neg (by dsimp only; omega)).trans ((if_neg (by dsimp only; omega)).trans (if_pos h))

/-- The fourth makes the last octet. -/
theorem step_fourth (h : n % 4 = 3) (x : Nat) :
    Joined.step ⟨n, bits, octets⟩ x = ⟨n + 1, bits + x, octets ++ [UInt8.ofNat (bits + x)]⟩ :=
  (if_neg (by dsimp only; omega)).trans ((if_neg (by dsimp only; omega)).trans (if_neg (by dsimp only; omega)))

end Steps

/-- The sextets of a text are below 64. -/
theorem sextets_lt (text : List UInt8) : ∀ x ∈ sextets text, x < 64 := by
  fun_induction sextets text with
  | case1 a b c rest ih =>
    have ha := a.toNat_lt
    have hb := b.toNat_lt
    have hc := c.toNat_lt
    intro x hx
    simp only [List.cons_append, List.nil_append, List.mem_cons] at hx
    rcases hx with rfl | rfl | rfl | rfl | hx
    · omega
    · omega
    · omega
    · omega
    · exact ih x hx
  | case2 a b =>
    have ha := a.toNat_lt
    have hb := b.toNat_lt
    simp only [List.forall_mem_cons]
    exact ⟨by omega, by omega, by omega, fun x hx => absurd hx List.not_mem_nil⟩
  | case3 a =>
    have ha := a.toNat_lt
    simp only [List.forall_mem_cons]
    exact ⟨by omega, by omega, fun x hx => absurd hx List.not_mem_nil⟩
  | case4 => exact fun x hx => absurd hx List.not_mem_nil

/-- With what is missing the sextets are groups of four. -/
theorem length_sextets (text : List UInt8) : (sextets text).length + missing text.length = (text.length + 2) / 3 * 4 := by
  fun_induction sextets text with
  | case1 a b c rest ih =>
    simp only [List.length_cons, List.length_append, List.length_nil, missing] at ih ⊢
    omega
  | case2 a b => simp [missing]
  | case3 a => simp [missing]
  | case4 => simp [missing]

/-- The octet with this number. -/
theorem ofNat_eq {a : UInt8} {n : Nat} (h : n = a.toNat) : UInt8.ofNat n = a := by rw [h, UInt8.ofNat_toNat]

/-- The sextets of a text are joined to the text again. -/
theorem foldl_step_sextets (text : List UInt8) : ∀ {n bits : Nat} {octets : List UInt8}, n % 4 = 0 →
    ((sextets text).foldl Joined.step ⟨n, bits, octets⟩).octets = octets ++ text ∧
      ((sextets text).foldl Joined.step ⟨n, bits, octets⟩).count = n + (sextets text).length := by
  fun_induction sextets text with
  | case1 a b c rest ih =>
    intro n bits octets hn
    have ha : UInt8.ofNat (a.toNat / 4 * 4 + (a.toNat % 4 * 16 + b.toNat / 16) / 16) = a :=
      ofNat_eq (by have := b.toNat_lt; omega)
    have hb : UInt8.ofNat ((a.toNat % 4 * 16 + b.toNat / 16) % 16 * 16 + (b.toNat % 16 * 4 + c.toNat / 64) / 4) = b :=
      ofNat_eq (by have := b.toNat_lt; have := c.toNat_lt; omega)
    have hc : UInt8.ofNat ((b.toNat % 16 * 4 + c.toNat / 64) % 4 * 64 + c.toNat % 64) = c :=
      ofNat_eq (by have := c.toNat_lt; omega)
    have hn1 : (n + 1) % 4 = 1 := by omega
    have hn2 : (n + 1 + 1) % 4 = 2 := by omega
    have hn3 : (n + 1 + 1 + 1) % 4 = 3 := by omega
    rw [List.foldl_append, List.foldl_cons, List.foldl_cons, List.foldl_cons, List.foldl_cons, List.foldl_nil, step_first hn,
      step_second hn1, step_third hn2, step_fourth hn3, ha, hb, hc]
    have hn4 : (n + 1 + 1 + 1 + 1) % 4 = 0 := by omega
    obtain ⟨h1, h2⟩ := @ih _ ((b.toNat % 16 * 4 + c.toNat / 64) % 4 * 64 + c.toNat % 64) (octets ++ [a] ++ [b] ++ [c]) hn4
    refine ⟨h1.trans (by simp), h2.trans ?_⟩
    simp only [List.length_append, List.length_cons, List.length_nil]
    omega
  | case2 a b =>
    intro n bits octets hn
    have ha : UInt8.ofNat (a.toNat / 4 * 4 + (a.toNat % 4 * 16 + b.toNat / 16) / 16) = a :=
      ofNat_eq (by have := b.toNat_lt; omega)
    have hb : UInt8.ofNat ((a.toNat % 4 * 16 + b.toNat / 16) % 16 * 16 + b.toNat % 16 * 4 / 4) = b :=
      ofNat_eq (by have := b.toNat_lt; omega)
    have hn1 : (n + 1) % 4 = 1 := by omega
    have hn2 : (n + 1 + 1) % 4 = 2 := by omega
    rw [List.foldl_cons, List.foldl_cons, List.foldl_cons, List.foldl_nil, step_first hn, step_second hn1, step_third hn2, ha, hb]
    exact ⟨by simp, rfl⟩
  | case3 a =>
    intro n bits octets hn
    have ha : UInt8.ofNat (a.toNat / 4 * 4 + a.toNat % 4 * 16 / 16) = a := ofNat_eq (by omega)
    have hn1 : (n + 1) % 4 = 1 := by omega
    rw [List.foldl_cons, List.foldl_cons, List.foldl_nil, step_first hn, step_second hn1, ha]
    exact ⟨rfl, rfl⟩
  | case4 =>
    intro n bits octets _
    exact ⟨(List.append_nil octets).symm, rfl⟩

end Sextets
