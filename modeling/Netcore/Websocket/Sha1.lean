import Netcore.Basic
import Netcore.Lib.SecureHash

/-!
# `sha1.hpp`

The hash of the WebSocket handshake. `transform` keeps the words of the schedule in the sixteen words of the block, and moves the names
of its five variables from call to call instead of their values; `update` copies into a buffer of 64 bytes as much as fits. The bytes of
the buffer from `buflen` on are never read before they are written, so the buffer is the list of the bytes before `buflen`.
-/

namespace Netcore

open SecureHash IteratedHash

namespace Sha1

/-- `rol`. -/
def rol (value bits : UInt32) : UInt32 := (value <<< bits) ||| (value >>> (32 - bits))

/-- The words of a block. -/
abbrev Block := Vector UInt32 16

/-- `blk`; the additions are made modulo 16. -/
def blk (block : Block) (i : Fin 16) : UInt32 := rol (block[i + 13] ^^^ block[i + 8] ^^^ block[i + 2] ^^^ block[i]) 1

/-- The variables of `transform` that hold the state. -/
inductive Reg where
  | a
  | b
  | c
  | d
  | e
  deriving DecidableEq, Repr

def Reg.get (s : State) : Reg → UInt32
  | .a => s.a
  | .b => s.b
  | .c => s.c
  | .d => s.d
  | .e => s.e

def Reg.set (s : State) (value : UInt32) : Reg → State
  | .a => { s with a := value }
  | .b => { s with b := value }
  | .c => { s with c := value }
  | .d => { s with d := value }
  | .e => { s with e := value }

/-- What `transform` works on. -/
structure Working where
  block : Block
  regs : State
  deriving DecidableEq, Repr

/-- What `R0` to `R4` do: `R0` alone leaves the block as it is. -/
def round (expand : Bool) (f : UInt32 → UInt32 → UInt32 → UInt32) (k : UInt32) (s : Working) (v w x y z : Reg) (i : Fin 16) :
    Working :=
  let block := if expand then s.block.set i (blk s.block i) else s.block
  let regs := z.set s.regs (z.get s.regs + (f (w.get s.regs) (x.get s.regs) (y.get s.regs) + block[i] + k + rol (v.get s.regs) 5))
  { block, regs := w.set regs (rol (w.get regs) 30) }

def R0 : Working → Reg → Reg → Reg → Reg → Reg → Fin 16 → Working := round false (fun w x y => (w &&& (x ^^^ y)) ^^^ y) 0x5a827999

def R1 : Working → Reg → Reg → Reg → Reg → Reg → Fin 16 → Working := round true (fun w x y => (w &&& (x ^^^ y)) ^^^ y) 0x5a827999

def R2 : Working → Reg → Reg → Reg → Reg → Reg → Fin 16 → Working := round true (fun w x y => w ^^^ x ^^^ y) 0x6ed9eba1

def R3 : Working → Reg → Reg → Reg → Reg → Reg → Fin 16 → Working :=
  round true (fun w x y => ((w ||| x) &&& y) ||| (w &&& x)) 0x8f1bbcdc

def R4 : Working → Reg → Reg → Reg → Reg → Reg → Fin 16 → Working := round true (fun w x y => w ^^^ x ^^^ y) 0xca62c1d6

inductive Kind where
  | R0
  | R1
  | R2
  | R3
  | R4
  deriving DecidableEq, Repr

/-- A call that `transform` makes. -/
structure Call where
  kind : Kind
  v : Reg
  w : Reg
  x : Reg
  y : Reg
  z : Reg
  i : Fin 16
  deriving DecidableEq, Repr

def Call.run (s : Working) (c : Call) : Working :=
  match c.kind with
  | .R0 => R0 s c.v c.w c.x c.y c.z c.i
  | .R1 => R1 s c.v c.w c.x c.y c.z c.i
  | .R2 => R2 s c.v c.w c.x c.y c.z c.i
  | .R3 => R3 s c.v c.w c.x c.y c.z c.i
  | .R4 => R4 s c.v c.w c.x c.y c.z c.i

/-- The calls of `transform`, in their order. -/
def calls : List Call :=
  [⟨.R0, .a, .b, .c, .d, .e, 0⟩, ⟨.R0, .e, .a, .b, .c, .d, 1⟩, ⟨.R0, .d, .e, .a, .b, .c, 2⟩, ⟨.R0, .c, .d, .e, .a, .b, 3⟩, ⟨.R0, .b, .c, .d, .e, .a, 4⟩,
   ⟨.R0, .a, .b, .c, .d, .e, 5⟩, ⟨.R0, .e, .a, .b, .c, .d, 6⟩, ⟨.R0, .d, .e, .a, .b, .c, 7⟩, ⟨.R0, .c, .d, .e, .a, .b, 8⟩, ⟨.R0, .b, .c, .d, .e, .a, 9⟩,
   ⟨.R0, .a, .b, .c, .d, .e, 10⟩, ⟨.R0, .e, .a, .b, .c, .d, 11⟩, ⟨.R0, .d, .e, .a, .b, .c, 12⟩, ⟨.R0, .c, .d, .e, .a, .b, 13⟩, ⟨.R0, .b, .c, .d, .e, .a, 14⟩,
   ⟨.R0, .a, .b, .c, .d, .e, 15⟩, ⟨.R1, .e, .a, .b, .c, .d, 0⟩, ⟨.R1, .d, .e, .a, .b, .c, 1⟩, ⟨.R1, .c, .d, .e, .a, .b, 2⟩, ⟨.R1, .b, .c, .d, .e, .a, 3⟩,
   ⟨.R2, .a, .b, .c, .d, .e, 4⟩, ⟨.R2, .e, .a, .b, .c, .d, 5⟩, ⟨.R2, .d, .e, .a, .b, .c, 6⟩, ⟨.R2, .c, .d, .e, .a, .b, 7⟩, ⟨.R2, .b, .c, .d, .e, .a, 8⟩,
   ⟨.R2, .a, .b, .c, .d, .e, 9⟩, ⟨.R2, .e, .a, .b, .c, .d, 10⟩, ⟨.R2, .d, .e, .a, .b, .c, 11⟩, ⟨.R2, .c, .d, .e, .a, .b, 12⟩, ⟨.R2, .b, .c, .d, .e, .a, 13⟩,
   ⟨.R2, .a, .b, .c, .d, .e, 14⟩, ⟨.R2, .e, .a, .b, .c, .d, 15⟩, ⟨.R2, .d, .e, .a, .b, .c, 0⟩, ⟨.R2, .c, .d, .e, .a, .b, 1⟩, ⟨.R2, .b, .c, .d, .e, .a, 2⟩,
   ⟨.R2, .a, .b, .c, .d, .e, 3⟩, ⟨.R2, .e, .a, .b, .c, .d, 4⟩, ⟨.R2, .d, .e, .a, .b, .c, 5⟩, ⟨.R2, .c, .d, .e, .a, .b, 6⟩, ⟨.R2, .b, .c, .d, .e, .a, 7⟩,
   ⟨.R3, .a, .b, .c, .d, .e, 8⟩, ⟨.R3, .e, .a, .b, .c, .d, 9⟩, ⟨.R3, .d, .e, .a, .b, .c, 10⟩, ⟨.R3, .c, .d, .e, .a, .b, 11⟩, ⟨.R3, .b, .c, .d, .e, .a, 12⟩,
   ⟨.R3, .a, .b, .c, .d, .e, 13⟩, ⟨.R3, .e, .a, .b, .c, .d, 14⟩, ⟨.R3, .d, .e, .a, .b, .c, 15⟩, ⟨.R3, .c, .d, .e, .a, .b, 0⟩, ⟨.R3, .b, .c, .d, .e, .a, 1⟩,
   ⟨.R3, .a, .b, .c, .d, .e, 2⟩, ⟨.R3, .e, .a, .b, .c, .d, 3⟩, ⟨.R3, .d, .e, .a, .b, .c, 4⟩, ⟨.R3, .c, .d, .e, .a, .b, 5⟩, ⟨.R3, .b, .c, .d, .e, .a, 6⟩,
   ⟨.R3, .a, .b, .c, .d, .e, 7⟩, ⟨.R3, .e, .a, .b, .c, .d, 8⟩, ⟨.R3, .d, .e, .a, .b, .c, 9⟩, ⟨.R3, .c, .d, .e, .a, .b, 10⟩, ⟨.R3, .b, .c, .d, .e, .a, 11⟩,
   ⟨.R4, .a, .b, .c, .d, .e, 12⟩, ⟨.R4, .e, .a, .b, .c, .d, 13⟩, ⟨.R4, .d, .e, .a, .b, .c, 14⟩, ⟨.R4, .c, .d, .e, .a, .b, 15⟩, ⟨.R4, .b, .c, .d, .e, .a, 0⟩,
   ⟨.R4, .a, .b, .c, .d, .e, 1⟩, ⟨.R4, .e, .a, .b, .c, .d, 2⟩, ⟨.R4, .d, .e, .a, .b, .c, 3⟩, ⟨.R4, .c, .d, .e, .a, .b, 4⟩, ⟨.R4, .b, .c, .d, .e, .a, 5⟩,
   ⟨.R4, .a, .b, .c, .d, .e, 6⟩, ⟨.R4, .e, .a, .b, .c, .d, 7⟩, ⟨.R4, .d, .e, .a, .b, .c, 8⟩, ⟨.R4, .c, .d, .e, .a, .b, 9⟩, ⟨.R4, .b, .c, .d, .e, .a, 10⟩,
   ⟨.R4, .a, .b, .c, .d, .e, 11⟩, ⟨.R4, .e, .a, .b, .c, .d, 12⟩, ⟨.R4, .d, .e, .a, .b, .c, 13⟩, ⟨.R4, .c, .d, .e, .a, .b, 14⟩, ⟨.R4, .b, .c, .d, .e, .a, 15⟩]

/-- `transform`: the digest, and what is in the block then. -/
def transform (digest : State) (block : Block) : State × Block :=
  let s := calls.foldl Call.run ⟨block, digest⟩
  (⟨digest.a + s.regs.a, digest.b + s.regs.b, digest.c + s.regs.c, digest.d + s.regs.d, digest.e + s.regs.e⟩, s.block)

/-- `make_block`. -/
def makeBlock (p : Bytes) : Block := Vector.ofFn fun i =>
  (p.getD (4 * i + 3) 0).toUInt32 ||| ((p.getD (4 * i + 2) 0).toUInt32 <<< 8) ||| ((p.getD (4 * i + 1) 0).toUInt32 <<< 16) |||
    ((p.getD (4 * i) 0).toUInt32 <<< 24)

/-- `sha1_context`. -/
structure Context where
  buf : Bytes := []
  blocks : UInt64 := 0
  digest : State := ⟨0x67452301, 0xefcdab89, 0x98badcfe, 0x10325476, 0xc3d2e1f0⟩
  buf_lt : buf.length < 64 := by decide

/-- A new context. -/
def Context.init : Context := {}

/-- `update`. -/
def update (ctx : Context) (message : Bytes) : Context :=
  let n := min message.length (64 - ctx.buf.length)
  let buf := ctx.buf ++ message.take n
  if h : buf.length ≠ 64 then { ctx with buf, buf_lt := by have := ctx.buf_lt; simp only [buf, n] at h ⊢; grind }
  else update { digest := (transform ctx.digest (makeBlock buf)).1, blocks := ctx.blocks + 1 } (message.drop n)
termination_by message.length
decreasing_by
  have := ctx.buf_lt
  simp only [buf, n] at h
  grind

/-- `finish`. -/
def finish (ctx : Context) : Bytes :=
  let totalBits : UInt64 := (ctx.blocks * 64 + UInt64.ofNat ctx.buf.length) * 8
  let buf := ctx.buf ++ [0x80]
  let block := makeBlock (buf ++ List.replicate (64 - buf.length) 0)
  let (digest, block) :=
    if 56 < buf.length then
      let (digest, block) := transform ctx.digest block
      (digest, Vector.ofFn fun i => if i.val < 14 then 0 else block[i])
    else (ctx.digest, block)
  let block := (block.set 15 (totalBits &&& 0xffffffff).toUInt32).set 14 (totalBits >>> 32).toUInt32
  let d := (transform digest block).1
  [d.a, d.b, d.c, d.d, d.e].flatMap fun x : UInt32 =>
    [((x >>> 24) &&& 0xff).toUInt8, ((x >>> 16) &&& 0xff).toUInt8, ((x >>> 8) &&& 0xff).toUInt8, (x &&& 0xff).toUInt8]

/-! ## The calls of `transform`

Call `t` works on the variables from `v` on, in the order of their names, and the next call begins one name earlier: `view` reads the
state that a variable begins. The block is a window of sixteen words of the schedule that moves by a word in each call. -/

def Reg.next : Reg → Reg
  | .a => .b
  | .b => .c
  | .c => .d
  | .d => .e
  | .e => .a

def Reg.prev : Reg → Reg
  | .a => .e
  | .b => .a
  | .c => .b
  | .d => .c
  | .e => .d

/-- The variable that call `t` begins with. -/
def Reg.first (t : Nat) : Reg := Reg.prev^[t] .a

def kindAt (t : Nat) : Kind :=
  if t < 16 then .R0 else if t < 20 then .R1 else if t < 40 then .R2 else if t < 60 then .R3 else .R4

def callAt (t : Nat) : Call :=
  let v := Reg.first t
  ⟨kindAt t, v, v.next, v.next.next, v.next.next.next, v.prev, Fin.ofNat 16 t⟩

/-- The list of the source is the eighty rounds in order: the operation of each, its registers in turn, its word. -/
theorem calls_eq : calls = (List.range 80).map callAt := by decide

/-- The state whose first word is in `v`. -/
def view (v : Reg) (s : State) : State := ⟨v.get s, v.next.get s, v.next.next.get s, v.next.next.next.get s, v.prev.get s⟩

/-- What a round does to the state: its words move by a place, and the new one is in the variable before `v`. -/
theorem view_round (expand : Bool) (f : UInt32 → UInt32 → UInt32 → UInt32) (k : UInt32) (s : Working) (v : Reg) (i : Fin 16) :
    view v.prev (round expand f k s v v.next v.next.next v.next.next.next v.prev i).regs =
      { a := (view v s.regs).e + (f (view v s.regs).b (view v s.regs).c (view v s.regs).d +
          (if expand then s.block.set i (blk s.block i) else s.block)[i] + k + rol (view v s.regs).a 5)
        b := (view v s.regs).a
        c := rol (view v s.regs).b 30
        d := (view v s.regs).c
        e := (view v s.regs).d } := by
  cases v <;> rfl

/-- The `w & (x ^ y) ^ y` of the source is Ch. -/
theorem choose_eq (w x y : UInt32) : (w &&& (x ^^^ y)) ^^^ y = choose w x y := by
  apply UInt32.toBitVec_inj.mp
  simp only [choose, UInt32.toBitVec_and, UInt32.toBitVec_xor, UInt32.toBitVec_not]
  ext i hi
  simp only [BitVec.getElem_xor, BitVec.getElem_and, BitVec.getElem_not]
  cases w.toBitVec[i] <;> simp

/-- The `((w | x) & y) | (w & x)` of the source is Maj. -/
theorem majority_eq (w x y : UInt32) : ((w ||| x) &&& y) ||| (w &&& x) = majority w x y := by
  apply UInt32.toBitVec_inj.mp
  simp only [majority, UInt32.toBitVec_and, UInt32.toBitVec_xor, UInt32.toBitVec_or]
  ext i hi
  simp only [BitVec.getElem_xor, BitVec.getElem_and, BitVec.getElem_or]
  cases w.toBitVec[i] <;> cases x.toBitVec[i] <;> simp

/-- A call is a round with the function and the constant of its step. -/
theorem run_callAt (t : Nat) (s : Working) : (callAt t).run s = round (decide (16 ≤ t)) (logical t) (constant t) s (Reg.first t)
    (Reg.first t).next (Reg.first t).next.next (Reg.first t).next.next.next (Reg.first t).prev (Fin.ofNat 16 t) := by
  have hchoose : (fun w x y : UInt32 => (w &&& (x ^^^ y)) ^^^ y) = choose :=
    funext fun w => funext fun x => funext fun y => choose_eq w x y
  have hmajority : (fun w x y : UInt32 => ((w ||| x) &&& y) ||| (w &&& x)) = majority :=
    funext fun w => funext fun x => funext fun y => majority_eq w x y
  have hparity : (fun w x y : UInt32 => w ^^^ x ^^^ y) = parity := rfl
  unfold Call.run callAt kindAt logical constant
  simp only
  by_cases h1 : t < 16
  · rw [if_pos h1, if_pos (by omega), if_pos (by omega), decide_eq_false (by omega), R0, hchoose]
  · rw [if_neg h1, decide_eq_true (by omega)]
    by_cases h2 : t < 20
    · rw [if_pos h2, if_pos h2, if_pos h2, R1, hchoose]
    · rw [if_neg h2, if_neg h2, if_neg h2]
      by_cases h3 : t < 40
      · rw [if_pos h3, if_pos h3, if_pos h3, R2, hparity]
      · rw [if_neg h3, if_neg h3, if_neg h3]
        by_cases h4 : t < 60
        · rw [if_pos h4, if_pos h4, if_pos h4, R3, hmajority]
        · rw [if_neg h4, if_neg h4, if_neg h4, R4, hparity]

/-! ## The window -/

/-- The words of a block, again and again. -/
def words (block : Block) (t : Nat) : UInt32 := block[Fin.ofNat 16 t]

/-- The block is a ring of sixteen words. -/
theorem words_mod (block : Block) {t j : Nat} (h : t % 16 = j % 16) : words block t = words block j := by
  simp [words, h]

/-- The word that is written is the one that stands there. -/
theorem words_set_self (block : Block) (t : Nat) (x : UInt32) : words (block.set (Fin.ofNat 16 t) x) t = x := by
  simp [words]

/-- The other fifteen words stay. -/
theorem words_set_of_ne (block : Block) {t j : Nat} (x : UInt32) (h : t % 16 ≠ j % 16) :
    words (block.set (Fin.ofNat 16 t) x) j = words block j := by
  simp [words, h]

/-- The index of a word, taken modulo sixteen. -/
theorem getElem_add (block : Block) (t k : Nat) : block[Fin.ofNat 16 t + Fin.ofNat 16 k] = words block (t + k) := by
  simp [words, Fin.add_def]

/-- What holds before call `t` of a block with the words `m`. -/
structure Holds (m : Nat → UInt32) (digest : State) (t : Nat) (s : Working) : Prop where
  regs : view (Reg.first t) s.regs = (List.range t).foldl (step (schedule m)) digest
  window : ∀ j, j < max t 16 → t ≤ j + 16 → words s.block j = schedule m j

/-- Before the first round the registers hold the digest and the block the message. -/
theorem holds_init (digest : State) (block : Block) : Holds (words block) digest 0 ⟨block, digest⟩ where
  regs := rfl
  window := fun _ hj _ => (schedule_of_lt _ (by omega)).symm

section Step

variable {m : Nat → UInt32} {digest : State} {s : Working} {t : Nat}

/-- `blk` makes the next word of the schedule from four of the window. -/
theorem Holds.blk_eq (h : Holds m digest t s) (ht : 16 ≤ t) : blk s.block (Fin.ofNat 16 t) = schedule m t := by
  have hword : ∀ j k, (t + k) % 16 = j % 16 → j < t → t ≤ j + 16 → words s.block (t + k) = schedule m j := fun j k hmod hlt hle =>
    (words_mod s.block hmod).trans (h.window j (by omega) hle)
  have h3 := hword (t - 3) 13 (by omega) (by omega) (by omega)
  have h8 := hword (t - 8) 8 (by omega) (by omega) (by omega)
  have h14 := hword (t - 14) 2 (by omega) (by omega) (by omega)
  have h16 := hword (t - 16) 0 (by omega) (by omega) (by omega)
  rw [schedule_of_le m ht, ← h3, ← h8, ← h14, ← h16, ← getElem_add, ← getElem_add, ← getElem_add]
  rfl

/-- The block of the next call. -/
theorem Holds.window_succ (h : Holds m digest t s) : ∀ j, j < max (t + 1) 16 → t + 1 ≤ j + 16 →
    words (if decide (16 ≤ t) then s.block.set (Fin.ofNat 16 t) (blk s.block (Fin.ofNat 16 t)) else s.block) j = schedule m j := by
  intro j hj hle
  by_cases ht : 16 ≤ t
  · rw [if_pos (decide_eq_true ht)]
    by_cases hjt : j = t
    · rw [hjt, words_set_self, h.blk_eq ht]
    · rw [words_set_of_ne _ _ (by omega)]
      exact h.window j (by omega) (by omega)
  · rw [if_neg (by simpa using ht)]
    exact h.window j (by omega) (by omega)

/-- One round: the registers come to the next state, and the ring to the next word of the schedule. -/
theorem Holds.step (h : Holds m digest t s) : Holds m digest (t + 1) ((callAt t).run s) := by
  have hword := h.window_succ t (by omega) (by omega)
  rw [run_callAt]
  refine ⟨?_, h.window_succ⟩
  rw [List.range_succ, List.foldl_append, List.foldl_cons, List.foldl_nil, ← h.regs, Reg.first, Function.iterate_succ_apply', ← Reg.first,
    view_round, ← words, hword, SecureHash.step]
  congr 1
  show _ = rol _ 5 + _ + _ + _ + _
  ac_rfl

end Step

/-- By induction, after `t` calls the registers are those after `t` rounds. -/
theorem holds_calls (digest : State) (block : Block) (t : Nat) :
    Holds (words block) digest t (((List.range t).map callAt).foldl Call.run ⟨block, digest⟩) := by
  induction t with
  | zero => exact holds_init digest block
  | succ t ih =>
    rw [List.range_succ, List.map_append, List.foldl_append]
    exact ih.step

/-- `transform` compresses the block into the digest. -/
theorem transform_fst (digest : State) (block : Block) : (transform digest block).1 = compressWords digest (words block) := by
  have h := (holds_calls digest block 80).regs
  have hfirst : Reg.first 80 = .a := by decide
  rw [← calls_eq, hfirst] at h
  unfold transform compressWords
  generalize calls.foldl Call.run ⟨block, digest⟩ = s at h ⊢
  rw [← h]
  rfl

/-- The block that `transform` leaves holds the last sixteen words of the schedule. -/
theorem transform_snd (digest : State) (block : Block) (i : Fin 16) :
    (transform digest block).2[i] = schedule (words block) (64 + i) := by
  have h := (holds_calls digest block 80).window (64 + i) (by omega) (by omega)
  rw [← calls_eq] at h
  refine Eq.trans ?_ h
  have hi : Fin.ofNat 16 (64 + i) = i := Fin.ext (by simp; omega)
  unfold transform words
  simp only [hi]

/-- **`transform`** does to the digest what the compression function of the standard does with a schedule of 80 words, and the block
keeps the last sixteen of them. -/
theorem transform_eq_compressWords (digest : State) (block : Block) :
    transform digest block = (compressWords digest (words block), Vector.ofFn fun i => schedule (words block) (64 + i)) := by
  refine Prod.ext (transform_fst digest block) (Vector.ext fun i hi => ?_)
  rw [Vector.getElem_ofFn]
  exact transform_snd digest block ⟨i, hi⟩

/-! ## `update` and `finish` -/

/-- The bytes of a word may be put together from either end. -/
theorem or_reverse (x y z w : UInt32) : x ||| y ||| z ||| w = w ||| z ||| y ||| x := by ac_rfl

/-- `make_block` reads the words high byte first. -/
theorem words_makeBlock (p : Bytes) {t : Nat} (h : t < 16) : words (makeBlock p) t = word p t := by
  have hget : ∀ i : Fin 16, (makeBlock p)[i] = word p i := fun i => (Vector.getElem_ofFn i.isLt).trans (or_reverse _ _ _ _)
  exact (hget (Fin.ofNat 16 t)).trans (congrArg (word p) (Nat.mod_eq_of_lt h))

/-- Sixty-four bytes of the text are one step of the hash. -/
theorem transform_makeBlock (digest : State) (p : Bytes) : (transform digest (makeBlock p)).1 = compress digest p := by
  rw [transform_fst, compress]
  exact compressWords_congr digest fun t ht => words_makeBlock p ht

/-- `update` lets the bytes in, and counts them. -/
theorem update_spec (ctx : Context) (message : Bytes) :
    ((update ctx message).digest, (update ctx message).buf) = feed 64 compress (ctx.digest, ctx.buf) message ∧
      (update ctx message).blocks * 64 + UInt64.ofNat (update ctx message).buf.length =
        ctx.blocks * 64 + UInt64.ofNat (ctx.buf.length + message.length) := by
  fun_induction update ctx message with
  | case1 ctx message n buf h =>
    have hlt := ctx.buf_lt
    have hn : message.take n = message ∧ ctx.buf.length + message.length < 64 := by
      simp only [buf, n, List.length_append, List.length_take] at h ⊢
      exact ⟨List.take_of_length_le (by omega), by omega⟩
    simp only [buf, hn.1]
    refine ⟨(feed_short hn.2).symm, ?_⟩
    rw [List.length_append]
  | case2 ctx message n buf h ih =>
    have hlt := ctx.buf_lt
    have hn : ctx.buf.length + (message.take n).length = 64 := by
      rw [← List.length_append]
      exact not_not.mp h
    have hmin : (message.take n).length = n := by
      simp only [n, List.length_take]
      omega
    have hle : n ≤ message.length := by
      simp only [n]
      omega
    obtain ⟨hstate, hcount⟩ := ih
    refine ⟨hstate.trans ?_, hcount.trans ?_⟩
    · conv_rhs => rw [← List.take_append_drop n message, feed_append]
      rw [feed_block hlt hn, transform_makeBlock]
    · rw [hmin] at hn
      have hlen : ctx.buf.length + message.length = 64 + (message.drop n).length := by
        rw [List.length_drop]
        omega
      rw [hlen, List.length_nil, Nat.zero_add, UInt64.ofNat_add]
      grind

/-- A context that has taken a text. -/
structure Context.Took (ctx : Context) (text : Bytes) : Prop where
  state : (ctx.digest, ctx.buf) = feed 64 compress (initial, []) text
  count : ctx.blocks * 64 + UInt64.ofNat ctx.buf.length = UInt64.ofNat text.length

/-- `update` takes a piece behind what was taken. -/
theorem Context.Took.update {ctx : Context} {text : Bytes} (h : ctx.Took text) (piece : Bytes) :
    (update ctx piece).Took (text ++ piece) := by
  obtain ⟨hstate, hcount⟩ := update_spec ctx piece
  refine ⟨?_, hcount.trans ?_⟩
  · rw [hstate, h.state, feed_append]
  · rw [UInt64.ofNat_add, ← UInt64.add_assoc, h.count, List.length_append, UInt64.ofNat_add]

/-- Pieces taken one after another are taken as one text. -/
theorem Context.Took.foldl {ctx : Context} {text : Bytes} (h : ctx.Took text) (pieces : List Bytes) :
    (pieces.foldl Sha1.update ctx).Took (text ++ pieces.flatten) := by
  induction pieces generalizing ctx text with
  | nil => rwa [List.flatten_nil, List.append_nil]
  | cons piece pieces ih =>
    rw [List.foldl_cons, List.flatten_cons, ← List.append_assoc]
    exact ih (h.update piece)

/-- The buffer holds what is left over of whole blocks. -/
theorem Context.Took.length {ctx : Context} {text : Bytes} (h : ctx.Took text) : ctx.buf.length = text.length % 64 := by
  have hlen : (feed 64 compress (initial, []) text).2.length = (0 + text.length) % 64 := length_feed (by decide)
  rwa [← h.state, Nat.zero_add] at hlen

theorem toUInt8_and (x : UInt32) : (x &&& 0xff).toUInt8 = x.toUInt8 := by
  apply UInt8.toBitVec_inj.mp
  have hmask : BitVec.setWidth 8 (UInt32.toBitVec 0xff) = BitVec.allOnes 8 := rfl
  rw [UInt32.toBitVec_toUInt8, UInt32.toBitVec_toUInt8, UInt32.toBitVec_and, BitVec.setWidth_and, hmask, BitVec.and_allOnes]

theorem toUInt32_shiftRight (n : Nat) : (UInt64.ofNat n >>> 32).toUInt32 = UInt32.ofNat (n >>> 32) := by
  apply UInt32.toNat_inj.mp
  simp [Nat.shiftRight_eq_div_pow]
  omega

theorem toUInt32_and (n : Nat) : (UInt64.ofNat n &&& 0xffffffff).toUInt32 = UInt32.ofNat n := by
  have hmask : n % 18446744073709551616 &&& 4294967295 = n % 18446744073709551616 % 4294967296 :=
    Nat.and_two_pow_sub_one_eq_mod _ 32
  apply UInt32.toNat_inj.mp
  rw [UInt64.toNat_toUInt32, UInt64.toNat_and]
  show (n % 18446744073709551616 &&& 4294967295) % 4294967296 = n % 4294967296
  omega

/-- The words of a block of which one is written. -/
theorem words_set {block : Block} {k : Nat} (hk : k < 16) (x : UInt32) {t : Nat} (ht : t < 16) :
    words (block.set k x) t = if k = t then x else words block t := by
  simp [words, Vector.getElem_set, Nat.mod_eq_of_lt ht]

/-- The last block: 56 bytes, and the number of bits. -/
theorem words_last {block : Block} {p : Bytes} (hp : p.length = 56) (n : Nat) (hblock : ∀ t < 14, words block t = word p t) {t : Nat}
    (ht : t < 16) : words ((block.set 15 (UInt64.ofNat n &&& 0xffffffff).toUInt32).set 14 (UInt64.ofNat n >>> 32).toUInt32) t =
      word (p ++ bytes64 n) t := by
  obtain ⟨hhigh, hlow⟩ := word_bytes64 n
  have hright : ∀ k, word (p ++ bytes64 n) (14 + k) = word (bytes64 n) k := fun k => word_append_right hp
  rw [words_set (by decide) _ ht, words_set (by decide) _ ht]
  by_cases h14 : 14 = t
  · rw [if_pos h14, ← h14, toUInt32_shiftRight, ← hhigh, ← hright]
  · rw [if_neg h14]
    by_cases h15 : 15 = t
    · rw [if_pos h15, ← h15, toUInt32_and, ← hlow, ← hright]
    · rw [if_neg h15, hblock t (by omega), word_append_left (by omega)]

section Finish

variable {ctx : Context} {text : Bytes}

/-- The last block: the two words written at its end are the length of the text in bits. -/
theorem transform_last (digest : State) {block : Block} {p : Bytes} (hp : p.length = 56) (n : Nat)
    (hblock : ∀ t < 14, words block t = word p t) :
    (transform digest ((block.set 15 (UInt64.ofNat n &&& 0xffffffff).toUInt32).set 14 (UInt64.ofNat n >>> 32).toUInt32)).1 =
      compress digest (p ++ bytes64 n) := by
  rw [transform_fst, compress]
  exact compressWords_congr digest fun t ht => words_last hp n hblock ht

/-- There is room for the length in the block that the text ends in. -/
theorem feed_padding_one (n : Nat) (digest : State) {buf : Bytes} (hbuf : buf.length = n % 64) (h : buf.length < 56) :
    feed 64 compress (digest, buf) (padding n) =
      (compress digest (buf ++ 128 :: List.replicate (55 - buf.length) 0 ++ bytes64 (8 * n)), []) := by
  have hpadding : padding n = (128 :: List.replicate (55 - buf.length) 0) ++ bytes64 (8 * n) := by
    rw [padding, show (119 - n % 64) % 64 = 55 - buf.length by omega, List.cons_append]
  have hlen : buf.length + ((128 :: List.replicate (55 - buf.length) 0) ++ bytes64 (8 * n)).length = 64 := by
    rw [List.length_append, List.length_cons, List.length_replicate, length_bytes64]
    omega
  rw [hpadding, feed_block (by omega) hlen, List.append_assoc]

/-- There is none, and the length is in a block of its own. -/
theorem feed_padding_two (n : Nat) (digest : State) {buf : Bytes} (hbuf : buf.length = n % 64) (h : 56 ≤ buf.length) :
    feed 64 compress (digest, buf) (padding n) =
      (compress (compress digest (buf ++ 128 :: List.replicate (63 - buf.length) 0)) (List.replicate 56 0 ++ bytes64 (8 * n)), []) := by
  have hpadding : padding n = (128 :: List.replicate (63 - buf.length) 0) ++ (List.replicate 56 0 ++ bytes64 (8 * n)) := by
    rw [padding, show (119 - n % 64) % 64 = (63 - buf.length) + 56 by omega, ← List.replicate_append_replicate]
    simp
  have hfirst : buf.length + (128 :: List.replicate (63 - buf.length) (0 : UInt8)).length = 64 := by
    rw [List.length_cons, List.length_replicate]
    omega
  have hsecond : ([] : Bytes).length + (List.replicate 56 0 ++ bytes64 (8 * n)).length = 64 := by
    rw [List.length_append, List.length_replicate, length_bytes64]
    rfl
  rw [hpadding, feed_append, feed_block (by omega) hfirst, feed_block (by decide) hsecond]
  rfl

/-- `finish` lets the padding in. -/
theorem finish_eq (h : ctx.Took text) : finish ctx = sha1 text := by
  have hlt := ctx.buf_lt
  have hmod := h.length
  have hbits : (ctx.blocks * 64 + UInt64.ofNat ctx.buf.length) * 8 = UInt64.ofNat (8 * text.length) := by
    rw [h.count, UInt64.ofNat_mul]
    grind
  have hdigest : ∀ d : State, [d.a, d.b, d.c, d.d, d.e].flatMap (fun x : UInt32 =>
      [((x >>> 24) &&& 0xff).toUInt8, ((x >>> 16) &&& 0xff).toUInt8, ((x >>> 8) &&& 0xff).toUInt8, (x &&& 0xff).toUInt8]) =
        d.digest := by
    intro d
    simp only [toUInt8_and]
    rfl
  rw [sha1_eq, ← h.state]
  unfold finish
  simp only [hbits, hdigest]
  have hpad : (ctx.buf ++ [0x80]).length = ctx.buf.length + 1 := by rw [List.length_append, List.length_singleton]
  by_cases hroom : 56 < (ctx.buf ++ [0x80]).length
  · have hfill : ctx.buf ++ [0x80] ++ List.replicate (64 - (ctx.buf ++ [0x80]).length) 0 =
        ctx.buf ++ 128 :: List.replicate (63 - ctx.buf.length) 0 := by
      rw [List.append_assoc, hpad, show 64 - (ctx.buf.length + 1) = 63 - ctx.buf.length by omega]
      rfl
    rw [if_pos hroom, feed_padding_two _ _ hmod (by omega), hfill]
    simp only
    rw [transform_last _ List.length_replicate, transform_makeBlock]
    intro t ht
    rw [word_zeros]
    exact (Vector.getElem_ofFn (Fin.ofNat 16 t).isLt).trans (if_pos (Nat.lt_of_le_of_lt (Nat.mod_le t 16) ht))
  · have hfill : ctx.buf ++ [0x80] ++ List.replicate (64 - (ctx.buf ++ [0x80]).length) 0 =
        (ctx.buf ++ 128 :: List.replicate (55 - ctx.buf.length) 0) ++ List.replicate 8 0 := by
      rw [hpad, show 64 - (ctx.buf.length + 1) = (55 - ctx.buf.length) + 8 by omega, ← List.replicate_append_replicate]
      simp
    have hlen : (ctx.buf ++ 128 :: List.replicate (55 - ctx.buf.length) 0).length = 56 := by
      rw [List.length_append, List.length_cons, List.length_replicate]
      omega
    rw [if_neg hroom, feed_padding_one _ _ hmod (by omega), hfill]
    simp only
    rw [transform_last _ hlen]
    intro t ht
    rw [words_makeBlock _ (by omega), word_append_left (by omega)]

end Finish

/-- A new context has taken nothing. -/
theorem took_init : Context.init.Took [] := ⟨rfl, rfl⟩

/-- **`sha1_context`**: whatever the pieces in which a text comes, `finish` gives the hash of the text. -/
theorem finish_foldl_update (pieces : List Bytes) : finish (pieces.foldl update .init) = sha1 pieces.flatten :=
  finish_eq (took_init.foldl pieces)

/-- The example of the standard. -/
example : finish { buf := bytes "abc" } =
    [0xa9, 0x99, 0x3e, 0x36, 0x47, 0x06, 0x81, 0x6a, 0xba, 0x3e, 0x25, 0x71, 0x78, 0x50, 0xc2, 0x6c, 0x9c, 0xd0, 0xd8, 0x9d] := by
  decide +kernel

end Sha1

end Netcore
