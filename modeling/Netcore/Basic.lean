import Mathlib.Algebra.GroupWithZero.Nat
import Mathlib.Algebra.Ring.Int.Defs
import Mathlib.Data.List.Infix
import Mathlib.Data.List.Sort
import Netcore.Lib.Slices

/-!
# Bytes, sizes and character codes

What every module of the model shares: a byte string is a list of `UInt8` (a C++ `char` is compared with letters, digits
and control codes only, where signed and unsigned comparison agree), a `size_t` is a natural number, and the one place
where a negative number becomes a `size_t` is written `sizeT`.
-/

namespace Netcore

/-- A byte string: the content of a `std::string`, a `std::string_view` or a slice of a buffer. -/
abbrev Bytes := List UInt8

/-- The bytes of a string literal of the source (all of them ASCII). -/
def bytes (s : String) : Bytes := s.toList.map fun c => UInt8.ofNat c.toNat

/-- What holds of the 256 bytes holds of every byte. -/
theorem forall_byte {p : UInt8 → Prop} (h : ∀ n : Fin 256, p (UInt8.ofNat n)) (c : UInt8) : p c := by
  have hc := h ⟨c.toNat, c.toNat_lt⟩
  rwa [show UInt8.ofNat (⟨c.toNat, c.toNat_lt⟩ : Fin 256) = c from UInt8.ofNat_toNat] at hc

/-- A byte of a class is none of the bytes outside it. -/
theorem ne_of_class {p : UInt8 → Bool} {c d : UInt8} (hc : p c = true) (hd : p d = false) : c ≠ d := by
  rintro rfl
  exact Bool.false_ne_true (hd.symm.trans hc)

/-- A text without `c` is passed over by a scan for `c`. -/
theorem ne_of_notMem {s : Bytes} {c : UInt8} (h : c ∉ s) : ∀ d ∈ s, decide (d ≠ c) = true := by
  intro d hd
  rw [decide_eq_true_eq]
  rintro rfl
  exact h hd

/-- The conversion of a signed number to `size_t`: reduction modulo `2 ^ 64`. -/
def sizeT (x : Int) : Nat := (x % 18446744073709551616).toNat

/-- A number below `2 ^ 64` is a `size_t`. -/
theorem sizeT_ofNat {n : Nat} (h : n < 18446744073709551616) : sizeT n = n := by
  unfold sizeT
  omega

/-! ## Character codes -/

def CR : UInt8 := 13
def LF : UInt8 := 10
def SPACE : UInt8 := 32
def HYPHEN : UInt8 := 45
def COLON : UInt8 := 58
def DOT : UInt8 := 46
def SLASH : UInt8 := 47
def QUOTE : UInt8 := 34

@[simp] theorem CR_ne_LF : CR ≠ LF := by decide
@[simp] theorem CR_ne_SPACE : CR ≠ SPACE := by decide
@[simp] theorem CR_ne_HYPHEN : CR ≠ HYPHEN := by decide
@[simp] theorem HYPHEN_ne_CR : HYPHEN ≠ CR := by decide
@[simp] theorem HYPHEN_ne_LF : HYPHEN ≠ LF := by decide
@[simp] theorem COLON_ne_CR : COLON ≠ CR := by decide
@[simp] theorem COLON_ne_HYPHEN : COLON ≠ HYPHEN := by decide

/-- The line end of HTTP and of a multipart body. -/
def CRLF : Bytes := [CR, LF]

end Netcore
