import Netcore.Lib.IteratedHash

/-!
# The secure hash algorithm

SHA-1 as the standard for secure hashing describes it: a message is padded to blocks of 64 bytes, and each block, as a schedule of 80
words, changes a state of five words in 80 steps. `sha1_eq` says what the hash of a text is whose whole blocks and rest are known.
-/

namespace SecureHash

open IteratedHash

/-- The five words of a state. -/
structure State where
  a : UInt32
  b : UInt32
  c : UInt32
  d : UInt32
  e : UInt32
  deriving DecidableEq, Repr

def initial : State := ⟨0x67452301, 0xefcdab89, 0x98badcfe, 0x10325476, 0xc3d2e1f0⟩

/-- The rotation of a word to the left. -/
def rotl (k x : UInt32) : UInt32 := (x <<< k) ||| (x >>> (32 - k))

def choose (x y z : UInt32) : UInt32 := (x &&& y) ^^^ (~~~x &&& z)

def parity (x y z : UInt32) : UInt32 := x ^^^ y ^^^ z

def majority (x y z : UInt32) : UInt32 := (x &&& y) ^^^ (x &&& z) ^^^ (y &&& z)

/-- The function of a step. -/
def logical (t : Nat) : UInt32 → UInt32 → UInt32 → UInt32 :=
  if t < 20 then choose else if t < 40 then parity else if t < 60 then majority else parity

/-- The constant of a step. -/
def constant (t : Nat) : UInt32 :=
  if t < 20 then 0x5a827999 else if t < 40 then 0x6ed9eba1 else if t < 60 then 0x8f1bbcdc else 0xca62c1d6

/-- The word of a block at position `t`, its first byte the highest. -/
def word (block : List UInt8) (t : Nat) : UInt32 :=
  ((block.getD (4 * t) 0).toUInt32 <<< 24) ||| ((block.getD (4 * t + 1) 0).toUInt32 <<< 16) |||
    ((block.getD (4 * t + 2) 0).toUInt32 <<< 8) ||| (block.getD (4 * t + 3) 0).toUInt32

/-- The message schedule of a block. -/
def schedule (m : Nat → UInt32) (t : Nat) : UInt32 :=
  if t < 16 then m t
  else rotl 1 (schedule m (t - 3) ^^^ schedule m (t - 8) ^^^ schedule m (t - 14) ^^^ schedule m (t - 16))
termination_by t

/-- A step with the word `w` of the schedule. -/
def step (w : Nat → UInt32) (s : State) (t : Nat) : State where
  a := rotl 5 s.a + logical t s.b s.c s.d + s.e + constant t + w t
  b := s.a
  c := rotl 30 s.b
  d := s.c
  e := s.d

/-- What a block with these words does to a state. -/
def compressWords (s : State) (m : Nat → UInt32) : State :=
  let r := (List.range 80).foldl (step (schedule m)) s
  ⟨s.a + r.a, s.b + r.b, s.c + r.c, s.d + r.d, s.e + r.e⟩

def compress (s : State) (block : List UInt8) : State := compressWords s (word block)

/-- A number in eight bytes, the highest first. -/
def bytes64 (n : Nat) : List UInt8 := (List.range 8).map fun i => UInt8.ofNat (n >>> (56 - 8 * i))

/-- The bytes after a message of `len` bytes: a bit, zeros, and the length in bits. -/
def padding (len : Nat) : List UInt8 := 128 :: (List.replicate ((119 - len % 64) % 64) 0 ++ bytes64 (8 * len))

/-- The four bytes of a word, the highest first. -/
def bytes32 (x : UInt32) : List UInt8 := [(x >>> 24).toUInt8, (x >>> 16).toUInt8, (x >>> 8).toUInt8, x.toUInt8]

def State.digest (s : State) : List UInt8 := bytes32 s.a ++ bytes32 s.b ++ bytes32 s.c ++ bytes32 s.d ++ bytes32 s.e

/-- The hash of a message. -/
def sha1 (message : List UInt8) : List UInt8 :=
  ((blocks 64 (message ++ padding message.length)).foldl compress initial).digest

/-! ## The schedule -/

/-- The first sixteen words of the schedule are the block. -/
theorem schedule_of_lt (m : Nat → UInt32) {t : Nat} (h : t < 16) : schedule m t = m t := by rw [schedule, if_pos h]

/-- The others are made of four before them. -/
theorem schedule_of_le (m : Nat → UInt32) {t : Nat} (h : 16 ≤ t) : schedule m t =
    rotl 1 (schedule m (t - 3) ^^^ schedule m (t - 8) ^^^ schedule m (t - 14) ^^^ schedule m (t - 16)) := by
  rw [schedule, if_neg (by omega)]

/-- A schedule is that of sixteen words. -/
theorem schedule_congr {m m' : Nat → UInt32} (h : ∀ t < 16, m t = m' t) : schedule m = schedule m' := by
  funext t
  induction t using Nat.strongRecOn with
  | ind t ih =>
    by_cases ht : t < 16
    · rw [schedule_of_lt m ht, schedule_of_lt m' ht, h t ht]
    · have hle : 16 ≤ t := by omega
      rw [schedule_of_le m hle, schedule_of_le m' hle, ih _ (by omega), ih _ (by omega), ih _ (by omega), ih _ (by omega)]

/-- A block is its sixteen words. -/
theorem compressWords_congr (s : State) {m m' : Nat → UInt32} (h : ∀ t < 16, m t = m' t) :
    compressWords s m = compressWords s m' := by
  rw [compressWords, compressWords, schedule_congr h]

/-! ## The words of a block -/

/-- A word of the first text. -/
theorem word_append_left {p q : List UInt8} {t : Nat} (h : 4 * t + 3 < p.length) : word (p ++ q) t = word p t := by
  have hget : ∀ k < 4, (p ++ q).getD (4 * t + k) 0 = p.getD (4 * t + k) 0 := by
    intro k hk
    rw [List.getD_eq_getElem?_getD, List.getD_eq_getElem?_getD, List.getElem?_append_left (by omega)]
  rw [word, word, hget 1 (by omega), hget 2 (by omega), hget 3 (by omega)]
  exact congrArg (fun x : UInt8 => x.toUInt32 <<< 24 ||| _ ||| _ ||| _) (hget 0 (by omega))

/-- A word of the second text, when the first has whole words. -/
theorem word_append_right {p q : List UInt8} {t k : Nat} (h : p.length = 4 * k) : word (p ++ q) (k + t) = word q t := by
  have hget : ∀ j, (p ++ q).getD (4 * (k + t) + j) 0 = q.getD (4 * t + j) 0 := by
    intro j
    rw [List.getD_eq_getElem?_getD, List.getD_eq_getElem?_getD, List.getElem?_append_right (by omega)]
    congr 2
    omega
  rw [word, word, hget 1, hget 2, hget 3]
  exact congrArg (fun x : UInt8 => x.toUInt32 <<< 24 ||| _ ||| _ ||| _) (hget 0)

/-- The words of zeros are zero. -/
theorem word_zeros (n t : Nat) : word (List.replicate n 0) t = 0 := by
  have hget : ∀ j, (List.replicate n (0 : UInt8)).getD j 0 = 0 := by
    intro j
    rw [List.getD_eq_getElem?_getD, List.getElem?_replicate]
    split <;> rfl
  rw [word, hget, hget, hget, hget]
  rfl

/-- The bits of a byte are those of its number. -/
theorem getLsbD_ofNat (n i : Nat) : (UInt8.ofNat n).toBitVec.getLsbD i = (decide (i < 8) && n.testBit i) :=
  BitVec.getLsbD_ofNat 8 n i

/-- Four bytes of a number are 32 bits of it. -/
theorem join_shiftRight (n k : Nat) : (UInt8.ofNat (n >>> (k + 24))).toUInt32 <<< 24 |||
    (UInt8.ofNat (n >>> (k + 16))).toUInt32 <<< 16 ||| (UInt8.ofNat (n >>> (k + 8))).toUInt32 <<< 8 |||
      (UInt8.ofNat (n >>> k)).toUInt32 = UInt32.ofNat (n >>> k) := by
  apply UInt32.toBitVec_inj.mp
  ext i hi
  have hright : (UInt32.ofNat (n >>> k)).toBitVec[i] = n.testBit (k + i) := by
    rw [← BitVec.getLsbD_eq_getElem]
    refine (BitVec.getLsbD_ofNat 32 _ i).trans ?_
    rw [decide_eq_true hi, Bool.true_and, Nat.testBit_shiftRight]
  rw [hright]
  simp [getLsbD_ofNat, Nat.testBit_shiftRight]
  -- the byte that has the bit
  by_cases h1 : i < 8
  · simp [h1, show i < 16 by omega, show i < 24 by omega]
  · by_cases h2 : i < 16
    · simp [h1, h2, show i < 24 by omega, show i - 8 < 8 by omega, show k + 8 + (i - 8) = k + i by omega]
    · by_cases h3 : i < 24
      · simp [h1, h2, h3, show ¬i - 8 < 8 by omega, show i - 16 < 8 by omega, show k + 16 + (i - 16) = k + i by omega]
      · simp [h1, h2, h3, show ¬i - 8 < 8 by omega, show ¬i - 16 < 8 by omega, show i - 24 < 8 by omega,
          show k + 24 + (i - 24) = k + i by omega]

/-- The length is two words, high one first. -/
theorem word_bytes64 (n : Nat) : word (bytes64 n) 0 = UInt32.ofNat (n >>> 32) ∧ word (bytes64 n) 1 = UInt32.ofNat n :=
  ⟨join_shiftRight n 32, join_shiftRight n 0⟩

/-! ## The padding -/

/-- The length is eight bytes long. -/
theorem length_bytes64 (n : Nat) : (bytes64 n).length = 8 := by simp [bytes64]

/-- The padding fills up the last block. -/
theorem length_padding (len : Nat) : (padding len).length = (119 - len % 64) % 64 + 9 := by
  simp [padding, length_bytes64]

/-- A padded message consists of blocks. -/
theorem dvd_length_padded (message : List UInt8) : 64 ∣ (message ++ padding message.length).length := by
  rw [List.length_append, length_padding]
  omega

/-- The hash, by what is left in the buffer after the message. -/
theorem sha1_eq (message : List UInt8) : sha1 message =
    (feed 64 compress (feed 64 compress (initial, []) message) (padding message.length)).1.digest := by
  rw [← feed_append, feed_eq_blocks (by decide) (dvd_length_padded message), sha1]

end SecureHash
