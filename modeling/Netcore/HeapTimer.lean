import Mathlib.Data.Int.Order.Basic
import Mathlib.Data.List.Nodup
import Mathlib.Logic.Function.Basic
import Netcore.Lib.BinaryHeap

/-!
# `HeapTimer`

The timer of `heaptimer.cpp`: `heap_` is a binary heap of nodes by the time at which they expire, and `ref_` has the position of
every id in it. An operation that fails an assertion does not complete, and is `none` here. Times are in nanoseconds.

`siftup_` does not stop at the root: there `j` is `(0 - 1) / 2` in `size_t`, and `heap_[j]` is read outside the array. What that
comparison says is not known, and is the parameter `beyond`: either the loop ends, or `SwapNode_` fails its assertion.

`adjust` only sifts down, and a node that it makes expire before its parent stays below it. `reached_ok_iff` says that nothing
else breaks the heap: in a run without such an `adjust`, and in no other, `heap_` is a heap and `ref_` its index after every
operation that completes.
-/

namespace Netcore

open BinaryHeap

/-- `TimerNode`. -/
structure TimerNode (γ : Type) where
  id : Int
  expires : Int
  cb : γ
  deriving DecidableEq, Repr

/-- `HeapTimer`, with `ref_` as the partial function that it stands for. -/
structure HeapTimer (γ : Type) where
  heap : List (TimerNode γ) := []
  ref : Int → Option Nat := fun _ => none

namespace HeapTimer

variable {γ : Type}

/-- `heap_[i] < heap_[j]`. -/
def less (t : HeapTimer γ) (i j : Nat) : Option Bool := do
  let a ← t.heap[i]?
  let b ← t.heap[j]?
  some (decide (a.expires < b.expires))

/-- `SwapNode_`. -/
def swapNode (t : HeapTimer γ) (i j : Nat) : Option (HeapTimer γ) := do
  let a ← t.heap[i]?
  let b ← t.heap[j]?
  some { heap := (t.heap.set i b).set j a, ref := Function.update (Function.update t.ref b.id (some i)) a.id (some j) }

/-- The loop of `siftup_`. -/
def siftupLoop (beyond : Bool) : Nat → HeapTimer γ → Nat → Option (HeapTimer γ)
  | 0, _, _ => none
  | fuel + 1, t, i =>
    if i = 0 then if beyond then some t else none
    else do
      let j := (i - 1) / 2
      if ← t.less j i then some t
      else siftupLoop beyond fuel (← t.swapNode i j) j

/-- `siftup_`. -/
def siftup (beyond : Bool) (t : HeapTimer γ) (i : Nat) : Option (HeapTimer γ) :=
  if i = 0 then some t else siftupLoop beyond (i + 1) t i

/-- The child that `siftdown_` compares with: the smaller one of the two, or the left one. -/
def minChild (t : HeapTimer γ) (i n : Nat) : Option Nat := do
  let j := i * 2 + 1
  if j + 1 < n then
    if ← t.less (j + 1) j then some (j + 1) else some j
  else some j

/-- The loop of `siftdown_`, which ends at a position. -/
def siftdownLoop (n : Nat) : Nat → HeapTimer γ → Nat → Option (HeapTimer γ × Nat)
  | 0, _, _ => none
  | fuel + 1, t, i =>
    if i * 2 + 1 < n then do
      let j ← t.minChild i n
      if ← t.less i j then some (t, i)
      else siftdownLoop n fuel (← t.swapNode i j) j
    else some (t, i)

/-- `siftdown_`: whether the node went down is returned. -/
def siftdown (t : HeapTimer γ) (index n : Nat) : Option (HeapTimer γ × Bool) := do
  let r ← siftdownLoop n (n + 1) t index
  some (r.1, decide (index < r.2))

/-- `siftdown_`, and `siftup_` when it did nothing. -/
def sift (beyond : Bool) (t : HeapTimer γ) (i n : Nat) : Option (HeapTimer γ) := do
  let r ← t.siftdown i n
  if r.2 then some r.1 else r.1.siftup beyond i

/-- `Clock::now() + MS(timeout)`. -/
def expiry (now timeout : Int) : Int := now + timeout * 1000000

/-- `add`. -/
def add (beyond : Bool) (t : HeapTimer γ) (id timeout : Int) (cb : γ) (now : Int) : Option (HeapTimer γ) :=
  if id < 0 then none
  else
    match t.ref id with
    | none =>
      siftup beyond { heap := t.heap ++ [⟨id, expiry now timeout, cb⟩], ref := Function.update t.ref id (some t.heap.length) }
        t.heap.length
    | some i => do
      let node ← t.heap[i]?
      sift beyond { t with heap := t.heap.set i { node with expires := expiry now timeout, cb := cb } } i t.heap.length

/-- The first part of `del_`: the node is exchanged for the last one, which is sifted. -/
def toBack (beyond : Bool) (t : HeapTimer γ) (i n : Nat) : Option (HeapTimer γ) :=
  if i < n then do sift beyond (← t.swapNode i n) i n else some t

/-- `del_`. -/
def del (beyond : Bool) (t : HeapTimer γ) (index : Nat) : Option (HeapTimer γ) :=
  if index < t.heap.length then do
    let t ← t.toBack beyond index (t.heap.length - 1)
    let back ← t.heap.getLast?
    some { heap := t.heap.dropLast, ref := Function.update t.ref back.id none }
  else none

/-- `doWork`: the callback that it calls is returned. -/
def doWork (beyond : Bool) (t : HeapTimer γ) (id : Int) : Option (HeapTimer γ × List γ) :=
  if t.heap = [] then some (t, [])
  else
    match t.ref id with
    | none => some (t, [])
    | some i => do
      let node ← t.heap[i]?
      some (← t.del beyond i, [node.cb])

/-- `adjust`. -/
def adjust (t : HeapTimer γ) (id timeout now : Int) : Option (HeapTimer γ) := do
  let i ← t.ref id
  let node ← t.heap[i]?
  let r ← siftdown { t with heap := t.heap.set i { node with expires := expiry now timeout } } i t.heap.length
  some r.1

/-- `pop`. -/
def pop (beyond : Bool) (t : HeapTimer γ) : Option (HeapTimer γ) := t.del beyond 0

/-- The loop of `tick`; `clock` has what `Clock::now()` returns in each round. -/
def tickLoop (beyond : Bool) (clock : Nat → Int) : Nat → HeapTimer γ → List γ → Option (HeapTimer γ × List γ)
  | 0, t, called => if t.heap = [] then some (t, called) else none
  | fuel + 1, t, called =>
    match t.heap with
    | [] => some (t, called)
    | node :: _ =>
      if Int.tdiv (node.expires - clock called.length) 1000000 > 0 then some (t, called)
      else do tickLoop beyond clock fuel (← t.pop beyond) (called ++ [node.cb])

/-- `tick`: the callbacks that it calls are returned, in order. -/
def tick (beyond : Bool) (t : HeapTimer γ) (clock : Nat → Int) : Option (HeapTimer γ × List γ) :=
  tickLoop beyond clock t.heap.length t []

end HeapTimer

/-- The operations of the timer, with what the clock shows. -/
inductive TimerOp (γ : Type) where
  | add (id timeout : Int) (cb : γ) (now : Int)
  | adjust (id timeout now : Int)
  | doWork (id : Int)
  | pop
  | tick (clock : Nat → Int)

namespace HeapTimer

variable {γ : Type}

/-- An operation; `none` when it does not complete. -/
def step (beyond : Bool) (t : HeapTimer γ) : TimerOp γ → Option (HeapTimer γ)
  | .add id timeout cb now => t.add beyond id timeout cb now
  | .adjust id timeout now => t.adjust id timeout now
  | .doWork id => (t.doWork beyond id).map Prod.fst
  | .pop => t.pop beyond
  | .tick clock => (t.tick beyond clock).map Prod.fst

/-- The states after the operations that complete. -/
def reached (t : HeapTimer γ) : List (Bool × TimerOp γ) → List (HeapTimer γ)
  | [] => []
  | (beyond, op) :: ops =>
    match t.step beyond op with
    | none => []
    | some t' => t' :: reached t' ops

/-- The key at a position of the heap. -/
def key (t : HeapTimer γ) (i : Nat) : Int :=
  match t.heap[i]? with
  | some node => node.expires
  | none => 0

/-- `ref_` maps exactly the ids in `heap_` to their positions. -/
def Indexed (t : HeapTimer γ) : Prop := ∀ id p, t.ref id = some p ↔ t.heap[p]?.map TimerNode.id = some id

/-- The representation invariant. -/
structure Ok (t : HeapTimer γ) : Prop where
  minHeap : Ordered t.key t.heap.length
  distinct : (t.heap.map TimerNode.id).Nodup
  indexed : t.Indexed

/-! ## Nodes change places -/

/-- A position in the heap has a node, and its key. -/
theorem exists_node (t : HeapTimer γ) {i : Nat} (hi : i < t.heap.length) : ∃ node, t.heap[i]? = some node ∧ t.key i = node.expires := by
  refine ⟨t.heap[i], List.getElem?_eq_getElem hi, ?_⟩
  rw [key, List.getElem?_eq_getElem hi]

/-- Within the heap the comparison is made, and compares the keys. -/
theorem less_eq (t : HeapTimer γ) {i j : Nat} (hi : i < t.heap.length) (hj : j < t.heap.length) :
    t.less i j = some (decide (t.key i < t.key j)) := by
  obtain ⟨a, ha, hka⟩ := t.exists_node hi
  obtain ⟨b, hb, hkb⟩ := t.exists_node hj
  rw [hka, hkb, less, ha, hb]
  rfl

/-- Two nodes that have changed places, by position. -/
theorem getElem?_swap {l : List (TimerNode γ)} {i j : Nat} {a b : TimerNode γ} (ha : l[i]? = some a) (hb : l[j]? = some b) (p : Nat) :
    ((l.set i b).set j a)[p]? = l[Equiv.swap i j p]? := by
  obtain ⟨hi, -⟩ := List.getElem?_eq_some_iff.mp ha
  obtain ⟨hj, -⟩ := List.getElem?_eq_some_iff.mp hb
  rw [List.getElem?_set, List.getElem?_set, List.length_set]
  by_cases hpj : j = p
  · rw [if_pos hpj, if_pos hj, ← hpj, Equiv.swap_apply_right, ha]
  · rw [if_neg hpj]
    by_cases hpi : i = p
    · rw [if_pos hpi, if_pos hi, ← hpi, Equiv.swap_apply_left, hb]
    · rw [if_neg hpi, Equiv.swap_apply_of_ne_of_ne (Ne.symm hpi) (Ne.symm hpj)]

/-- `SwapNode_` exchanges two keys and keeps the index. -/
theorem swapNode_spec {t : HeapTimer γ} (h : t.Indexed) {i j : Nat} (hi : i < t.heap.length) (hj : j < t.heap.length) :
    ∃ t', t.swapNode i j = some t' ∧ t'.Indexed ∧ t'.heap.length = t.heap.length ∧ t'.key = t.key ∘ Equiv.swap i j := by
  obtain ⟨a, ha, -⟩ := t.exists_node hi
  obtain ⟨b, hb, -⟩ := t.exists_node hj
  have hrefa : t.ref a.id = some i := (h a.id i).mpr (by rw [ha, Option.map_some])
  have hrefb : t.ref b.id = some j := (h b.id j).mpr (by rw [hb, Option.map_some])
  have hget := getElem?_swap ha hb
  have hswap : t.swapNode i j = some ⟨(t.heap.set i b).set j a,
      Function.update (Function.update t.ref b.id (some i)) a.id (some j)⟩ := by
    rw [swapNode, ha, hb]
    rfl
  refine ⟨_, hswap, ?_, by simp, ?_⟩
  · have href : ∀ id, Function.update (Function.update t.ref b.id (some i)) a.id (some j) id =
        (t.ref id).map (Equiv.swap i j) := by
      intro id
      by_cases hida : id = a.id
      · rw [hida, Function.update_self, hrefa, Option.map_some, Equiv.swap_apply_left]
      · rw [Function.update_of_ne hida]
        by_cases hidb : id = b.id
        · rw [hidb, Function.update_self, hrefb, Option.map_some, Equiv.swap_apply_right]
        · rw [Function.update_of_ne hidb]
          cases hid : t.ref id with
          | none => rfl
          | some p =>
            have hp := (h id p).mp hid
            have hpi : p ≠ i := fun hpi => hida (by simpa [hpi, ha] using hp.symm)
            have hpj : p ≠ j := fun hpj => hidb (by simpa [hpj, hb] using hp.symm)
            rw [Option.map_some, Equiv.swap_apply_of_ne_of_ne hpi hpj]
    intro id p
    simp only [href, hget]
    rw [← h]
    constructor
    · intro hp
      obtain ⟨q, hq, rfl⟩ := Option.map_eq_some_iff.mp hp
      rw [hq, Equiv.swap_apply_self]
    · intro hp
      rw [hp, Option.map_some, Equiv.swap_apply_self]
  · funext p
    rw [Function.comp_apply, key, key, hget]

/-! ## The sifts -/

/-- After a sift: the first `n` keys are in order. -/
structure Sifted (n : Nat) (t t' : HeapTimer γ) : Prop where
  indexed : t'.Indexed
  length : t'.heap.length = t.heap.length
  ordered : Ordered t'.key n

/-- The outcome of a sift, which completes unless it reads beyond the array. -/
def Sifts (beyond : Bool) (n : Nat) (t : HeapTimer γ) (r : Option (HeapTimer γ)) : Prop :=
  (r = none → beyond = false) ∧ ∀ t' ∈ r, Sifted n t t'

/-- A sift that has ended has not read beyond the array. -/
theorem Sifted.sifts {beyond : Bool} {n : Nat} {t t' : HeapTimer γ} (h : Sifted n t t') : Sifts beyond n t (some t') := by
  refine ⟨fun hn => absurd hn (by simp), ?_⟩
  rintro t'' ht
  rwa [← Option.mem_some.mp ht]

/-- The outcome of a sift is about the length of the heap, not about its order before. -/
theorem Sifts.of_length {beyond : Bool} {n : Nat} {t t₁ : HeapTimer γ} {r : Option (HeapTimer γ)} (h : Sifts beyond n t₁ r)
    (hlen : t₁.heap.length = t.heap.length) : Sifts beyond n t r :=
  ⟨h.1, fun t' ht => ⟨(h.2 t' ht).indexed, (h.2 t' ht).length.trans hlen, (h.2 t' ht).ordered⟩⟩

/-- A round of `siftup_` below the root: the node is in its place, or it changes places with its parent. -/
theorem siftupLoop_done {beyond : Bool} {fuel : Nat} {t : HeapTimer γ} {i : Nat} (h0 : 0 < i) (hless : t.less (parent i) i = some true) :
    siftupLoop beyond (fuel + 1) t i = some t := by
  rw [siftupLoop, if_neg (by omega)]
  show (t.less (parent i) i).bind _ = _
  rw [hless]
  rfl

/-- A node whose parent is not earlier changes places with it. -/
theorem siftupLoop_up {beyond : Bool} {fuel : Nat} {t t' : HeapTimer γ} {i : Nat} (h0 : 0 < i)
    (hless : t.less (parent i) i = some false) (hswap : t.swapNode i (parent i) = some t') :
    siftupLoop beyond (fuel + 1) t i = siftupLoop beyond fuel t' (parent i) := by
  rw [siftupLoop, if_neg (by omega)]
  show (t.less (parent i) i).bind _ = _
  rw [hless, Option.bind_some, if_neg Bool.false_ne_true]
  show (t.swapNode i (parent i)).bind _ = _
  rw [hswap]
  rfl

/-- By induction on the way up: from a heap in order but for the node at `i`, the loop comes to one in order. -/
theorem siftupLoop_spec (beyond : Bool) {n : Nat} (fuel : Nat) : ∀ {t : HeapTimer γ} {i : Nat}, t.Indexed → n ≤ t.heap.length →
    i < n → i < fuel → UpTo t.key n i → Sifts beyond n t (siftupLoop beyond fuel t i) := by
  induction fuel with
  | zero => exact fun _ _ _ hfuel => absurd hfuel (Nat.not_lt_zero _)
  | succ fuel ih =>
    intro t i h hn hi hfuel hup
    rcases Nat.eq_zero_or_pos i with h0 | h0
    · rw [siftupLoop, if_pos h0]
      cases beyond with
      | false => exact ⟨fun _ => rfl, fun t' ht => absurd ht (by simp)⟩
      | true => exact Sifted.sifts ⟨h, rfl, hup.ordered fun h0' => absurd h0 (by omega)⟩
    · have hj := parent_lt h0
      have hil : i < t.heap.length := by omega
      have hjl : parent i < t.heap.length := by omega
      have hless := t.less_eq hjl hil
      by_cases hlt : t.key (parent i) < t.key i
      · rw [decide_eq_true hlt] at hless
        rw [siftupLoop_done h0 hless]
        exact Sifted.sifts ⟨h, rfl, hup.ordered fun _ => hlt.le⟩
      · obtain ⟨t', ht', hidx, hlen, hkey⟩ := swapNode_spec h hil hjl
        rw [decide_eq_false hlt] at hless
        rw [siftupLoop_up h0 hless ht']
        refine (ih hidx (by omega) (by omega) (by omega) ?_).of_length hlen
        rw [hkey]
        exact hup.swap h0 hi (not_lt.mp hlt)

/-- `siftup_` puts a heap in order that is so but for the node at `i`. -/
theorem siftup_spec (beyond : Bool) {n : Nat} {t : HeapTimer γ} {i : Nat} (h : t.Indexed) (hn : n ≤ t.heap.length) (hi : i < n)
    (hup : UpTo t.key n i) : Sifts beyond n t (t.siftup beyond i) := by
  rw [siftup]
  split_ifs with h0
  · exact Sifted.sifts ⟨h, rfl, hup.ordered fun h0' => absurd h0 (by omega)⟩
  · exact siftupLoop_spec beyond (i + 1) h hn hi (Nat.lt_succ_self i) hup

/-- The smaller child. -/
theorem minChild_spec {t : HeapTimer γ} {i n : Nat} (hn : n ≤ t.heap.length) (hi : i * 2 + 1 < n) :
    ∃ j, t.minChild i n = some j ∧ 0 < j ∧ j < n ∧ parent j = i ∧ ∀ c, 0 < c → c < n → parent c = i → t.key j ≤ t.key c := by
  have hchild : ∀ c, 0 < c → parent c = i → c = i * 2 + 1 ∨ c = i * 2 + 1 + 1 := by
    intro c h0 hc
    unfold parent at hc
    omega
  unfold minChild parent
  by_cases hr : i * 2 + 1 + 1 < n
  · simp only [if_pos hr, t.less_eq (show i * 2 + 1 + 1 < t.heap.length by omega) (show i * 2 + 1 < t.heap.length by omega)]
    by_cases hlt : t.key (i * 2 + 1 + 1) < t.key (i * 2 + 1)
    · refine ⟨i * 2 + 1 + 1, by simp [hlt], by omega, hr, by omega, fun c h0 _ hp => ?_⟩
      rcases hchild c h0 hp with rfl | rfl
      · exact hlt.le
      · exact le_rfl
    · refine ⟨i * 2 + 1, by simp [hlt], by omega, hi, by omega, fun c h0 _ hp => ?_⟩
      rcases hchild c h0 hp with rfl | rfl
      · exact le_rfl
      · exact not_lt.mp hlt
  · refine ⟨i * 2 + 1, if_neg hr, by omega, hi, by omega, fun c h0 hc hp => ?_⟩
    rcases hchild c h0 hp with rfl | rfl
    · exact le_rfl
    · exact absurd hc hr

/-- `siftdown_` puts a key that may be too large in its place; without a move, nothing has changed. -/
theorem siftdownLoop_spec {n : Nat} (fuel : Nat) : ∀ {t : HeapTimer γ} {i : Nat}, t.Indexed → n ≤ t.heap.length → i < n →
    n < i + fuel → DownFrom t.key n i →
    ∃ t' i', siftdownLoop n fuel t i = some (t', i') ∧ Sifted n t t' ∧ i ≤ i' ∧ (i' = i → t' = t) := by
  induction fuel with
  | zero => exact fun _ _ hi hfuel => absurd hfuel (by omega)
  | succ fuel ih =>
    intro t i h hn hi hfuel hdown
    rw [siftdownLoop]
    by_cases hc : i * 2 + 1 < n
    · rw [if_pos hc]
      obtain ⟨j, hj, hj0, hjn, hp, hmin⟩ := minChild_spec hn hc
      have hij : i < j := hp ▸ parent_lt hj0
      have hil : i < t.heap.length := by omega
      have hjl : j < t.heap.length := by omega
      simp only [hj, Option.bind_eq_bind, Option.bind_some, t.less_eq hil hjl]
      by_cases hlt : t.key i < t.key j
      · refine ⟨t, i, by simp [hlt], ⟨h, rfl, hdown.ordered fun c h0 hcn hpc => ?_⟩, Nat.le_refl i, fun _ => rfl⟩
        exact hlt.le.trans (hmin c h0 hcn hpc)
      · obtain ⟨t₁, ht₁, hidx, hlen, hkey⟩ := swapNode_spec h hil hjl
        obtain ⟨t', i', hloop, hs, hle, -⟩ := ih hidx (by omega) hjn (by omega)
          (hkey ▸ hdown.swap hj0 hjn hp hmin (not_lt.mp hlt))
        refine ⟨t', i', by simp [hlt, ht₁, hloop], ⟨hs.indexed, hs.length.trans hlen, hs.ordered⟩, by omega, fun he => by omega⟩
    · rw [if_neg hc]
      refine ⟨t, i, rfl, ⟨h, rfl, hdown.ordered fun c h0 hcn hp => ?_⟩, Nat.le_refl i, fun _ => rfl⟩
      unfold parent at hp
      omega

/-- A key that is smaller than its parent stays where it is. -/
theorem siftdown_of_lt {t : HeapTimer γ} {i n : Nat} (hn : n ≤ t.heap.length) (hi : i < n) (hhole : Hole t.key n i) (h0 : 0 < i)
    (hlt : t.key i < t.key (parent i)) : t.siftdown i n = some (t, false) := by
  rw [siftdown, siftdownLoop]
  by_cases hc : i * 2 + 1 < n
  · obtain ⟨j, hj, hj0, hjn, hp, -⟩ := minChild_spec hn hc
    have hlt' : t.key i < t.key j := hlt.trans_le (hhole.across h0 j hj0 hjn hp)
    simp [hc, hj, t.less_eq (show i < t.heap.length by omega) (show j < t.heap.length by omega), hlt']
  · simp [hc]

/-- `siftdown_` puts a heap in order that is so but below `i`, and says whether anything moved. -/
theorem siftdown_spec {t : HeapTimer γ} {i n : Nat} (h : t.Indexed) (hn : n ≤ t.heap.length) (hi : i < n)
    (hdown : DownFrom t.key n i) : ∃ t' down, t.siftdown i n = some (t', down) ∧ Sifted n t t' ∧ (down = false → t' = t) := by
  obtain ⟨t', i', hloop, hs, hle, hsame⟩ := siftdownLoop_spec (n + 1) h hn hi (by omega) hdown
  refine ⟨t', decide (i < i'), by rw [siftdown, hloop]; rfl, hs, fun hd => hsame ?_⟩
  have := of_decide_eq_false hd
  omega

/-- Both sifts, for a key that may be out of order either way. -/
theorem sift_spec (beyond : Bool) {t : HeapTimer γ} {i n : Nat} (h : t.Indexed) (hn : n ≤ t.heap.length) (hi : i < n)
    (hhole : Hole t.key n i) : Sifts beyond n t (t.sift beyond i n) := by
  rw [sift]
  by_cases habove : 0 < i → t.key (parent i) ≤ t.key i
  · obtain ⟨t', down, hd, hs, hsame⟩ := siftdown_spec h hn hi ⟨hhole, habove⟩
    simp only [hd, Option.bind_eq_bind, Option.bind_some]
    cases down with
    | true => exact hs.sifts
    | false =>
      rw [hsame rfl] at hs ⊢
      exact siftup_spec beyond h hn hi (hs.ordered.upTo hi)
  · rw [Classical.not_imp, not_le] at habove
    rw [siftdown_of_lt hn hi hhole habove.1 habove.2]
    exact siftup_spec beyond h hn hi (hhole.upTo habove.1 habove.2)

/-! ## The operations -/

/-- The index tells ids apart. -/
theorem Indexed.nodup {t : HeapTimer γ} (h : t.Indexed) : (t.heap.map TimerNode.id).Nodup := by
  rw [List.nodup_iff_getElem?_ne_getElem?]
  intro i j hij hj he
  rw [List.getElem?_map, List.getElem?_map] at he
  rw [List.length_map] at hj
  obtain ⟨node, hnode, -⟩ := t.exists_node hj
  rw [hnode, Option.map_some] at he
  have hi := (h node.id i).mpr he
  rw [(h node.id j).mpr (by rw [hnode, Option.map_some])] at hi
  exact absurd (Option.some.inj hi) (by omega)

/-- The positions and the order are the representation invariant. -/
theorem Indexed.ok {t : HeapTimer γ} (h : t.Indexed) (ho : Ordered t.key t.heap.length) : t.Ok := ⟨ho, h.nodup, h⟩

/-- The outcome of an operation, which completes unless a sift reads beyond the array. -/
def Oks (beyond : Bool) (r : Option (HeapTimer γ)) : Prop := (r = none → beyond = false) ∧ ∀ t' ∈ r, t'.Ok

/-- A sift over the whole heap restores the invariant. -/
theorem Sifts.oks {beyond : Bool} {t : HeapTimer γ} {r : Option (HeapTimer γ)} (h : Sifts beyond t.heap.length t r) :
    Oks beyond r := by
  refine ⟨h.1, fun t' ht => (h.2 t' ht).indexed.ok ?_⟩
  rw [(h.2 t' ht).length]
  exact (h.2 t' ht).ordered

/-- Another node for the same id. -/
theorem set_spec {t : HeapTimer γ} (h : t.Ok) {i : Nat} {node : TimerNode γ} (hnode : t.heap[i]? = some node)
    (node' : TimerNode γ) (hid : node'.id = node.id) (t₁ : HeapTimer γ) (ht₁ : t₁ = { t with heap := t.heap.set i node' }) :
    t₁.Indexed ∧ t₁.heap.length = t.heap.length ∧ t₁.key i = node'.expires ∧ (∀ c, c ≠ i → t₁.key c = t.key c) ∧
      Hole t₁.key t.heap.length i := by
  obtain ⟨hi, -⟩ := List.getElem?_eq_some_iff.mp hnode
  have hget : ∀ p, t₁.heap[p]? = if i = p then some node' else t.heap[p]? := by
    intro p
    rw [ht₁, List.getElem?_set, if_pos hi]
  have hkey : ∀ c, c ≠ i → t₁.key c = t.key c := fun c hc => by rw [key, key, hget, if_neg (Ne.symm hc)]
  refine ⟨fun id p => ?_, by rw [ht₁, List.length_set], by rw [key, hget, if_pos rfl], hkey,
    h.minHeap.hole hi fun c hc _ => hkey c hc⟩
  have href : t₁.ref = t.ref := by rw [ht₁]
  rw [href, h.indexed id p, hget]
  split_ifs with hp
  · rw [← hp, hnode, Option.map_some, Option.map_some, hid]
  · rfl

/-- A new node at the end. -/
theorem push_spec {t : HeapTimer γ} (h : t.Ok) {id : Int} (hid : t.ref id = none) (node : TimerNode γ) (hnode : node.id = id)
    (t₁ : HeapTimer γ) (ht₁ : t₁ = { heap := t.heap ++ [node], ref := Function.update t.ref id (some t.heap.length) }) :
    t₁.Indexed ∧ t₁.heap.length = t.heap.length + 1 ∧ UpTo t₁.key (t.heap.length + 1) t.heap.length := by
  have hkey : ∀ c, c < t.heap.length → t₁.key c = t.key c := fun c hc => by
    rw [ht₁, key, key, List.getElem?_append_left hc]
  refine ⟨fun id' p => ?_, by rw [ht₁, List.length_append, List.length_singleton], ⟨⟨?_, ?_⟩, ?_⟩⟩
  · have hget : t₁.heap[p]? = if p = t.heap.length then some node else t.heap[p]? := by
      rw [ht₁, List.getElem?_append]
      split_ifs with hlt heq heq
      · omega
      · rfl
      · rw [heq, Nat.sub_self]
        rfl
      · rw [List.getElem?_eq_none (by rw [List.length_singleton]; omega), List.getElem?_eq_none (by omega)]
    have href : t₁.ref id' = if id' = id then some t.heap.length else t.ref id' := by
      rw [ht₁]
      exact Function.update_apply _ _ _ _
    rw [hget, href]
    split_ifs with hi hp hp
    · rw [hp, Option.map_some, hnode, hi]
      exact iff_of_true rfl rfl
    · rw [hi, ← h.indexed id p, hid, Option.some_inj]
      exact iff_of_false (Ne.symm hp) (by simp)
    · rw [h.indexed, hp, List.getElem?_eq_none (Nat.le_refl _), Option.map_none, Option.map_some, hnode, Option.some_inj]
      exact iff_of_false (by simp) (Ne.symm hi)
    · exact h.indexed id' p
  · intro c h0 hc hcl hp
    have := parent_lt h0
    rw [hkey c (by omega), hkey _ (by omega)]
    exact h.minHeap c h0 (by omega)
  · intro _ c h0 hc hp
    have := parent_lt h0
    omega
  · intro c h0 hc hp
    have := parent_lt h0
    omega

/-- `add` keeps the invariant, for a new id and for one that is there. -/
theorem add_spec (beyond : Bool) {t : HeapTimer γ} (h : t.Ok) {id : Int} (hid : 0 ≤ id) (timeout : Int) (cb : γ) (now : Int) :
    Oks beyond (t.add beyond id timeout cb now) := by
  rw [add, if_neg (not_lt.mpr hid)]
  cases hr : t.ref id with
  | none =>
    obtain ⟨hidx, hlen, hup⟩ := push_spec h hr ⟨id, expiry now timeout, cb⟩ rfl _ rfl
    rw [← hlen] at hup
    exact (siftup_spec beyond hidx (Nat.le_refl _) (by omega) hup).oks
  | some i =>
    obtain ⟨node, hnode, -⟩ := Option.map_eq_some_iff.mp ((h.indexed id i).mp hr)
    obtain ⟨hi, -⟩ := List.getElem?_eq_some_iff.mp hnode
    obtain ⟨hidx, hlen, -, -, hhole⟩ := set_spec h hnode { node with expires := expiry now timeout, cb := cb } rfl _ rfl
    simp only [hnode, Option.bind_eq_bind, Option.bind_some]
    rw [← hlen] at hhole hi ⊢
    exact (sift_spec beyond hidx (Nat.le_refl _) hi hhole).oks

/-- The last node leaves. -/
theorem dropLast_ok {t : HeapTimer γ} (h : t.Indexed) {back : TimerNode γ} (hback : t.heap.getLast? = some back)
    (ho : Ordered t.key (t.heap.length - 1)) :
    ({ heap := t.heap.dropLast, ref := Function.update t.ref back.id none } : HeapTimer γ).Ok := by
  have hget : ∀ p, t.heap.dropLast[p]? = if p < t.heap.length - 1 then t.heap[p]? else none := fun p => List.getElem?_dropLast
  rw [List.getLast?_eq_getElem?] at hback
  refine Indexed.ok (fun id p => ?_) (fun c h0 hc => ?_)
  · rw [hget]
    simp only [Function.update_apply]
    split_ifs with hid hp hp
    · rw [← h id p, hid, (h back.id _).mpr (by rw [hback, Option.map_some]), Option.some_inj]
      exact iff_of_false (by simp) (by omega)
    · exact iff_of_false (by simp) (by simp)
    · exact h id p
    · rw [h, Option.map_none]
      refine iff_of_false (fun hp' => ?_) (by simp)
      obtain ⟨node, hnode, hni⟩ := Option.map_eq_some_iff.mp hp'
      obtain ⟨hlt, -⟩ := List.getElem?_eq_some_iff.mp hnode
      rw [show p = t.heap.length - 1 by omega, hback] at hnode
      exact hid (hni ▸ (Option.some.inj hnode) ▸ rfl)
  · rw [List.length_dropLast] at hc
    have hlt := parent_lt h0
    have hkey : ∀ c, c < t.heap.length - 1 →
        ({ heap := t.heap.dropLast, ref := Function.update t.ref back.id none } : HeapTimer γ).key c = t.key c := by
      intro c hc
      simp only [key, hget, if_pos hc]
    rw [hkey c hc, hkey _ (by omega)]
    exact ho c h0 hc

/-- The last node is to go, and the others are in order. -/
theorem toBack_spec (beyond : Bool) {t : HeapTimer γ} (h : t.Ok) {index : Nat} (hi : index < t.heap.length) :
    Sifts beyond (t.heap.length - 1) t (t.toBack beyond index (t.heap.length - 1)) := by
  have ho : Ordered t.key (t.heap.length - 1) := fun c h0 hc => h.minHeap c h0 (by omega)
  rw [toBack]
  split_ifs with hlt
  · obtain ⟨t₁, ht₁, hidx, hlen, hkey⟩ := swapNode_spec h.indexed hi (show t.heap.length - 1 < t.heap.length by omega)
    rw [ht₁]
    refine (sift_spec beyond hidx (by omega) hlt ?_).of_length hlen
    rw [hkey]
    exact ho.hole hlt fun c hc hcn => swap_of_ne hc (by omega)
  · exact Sifted.sifts ⟨h.indexed, rfl, ho⟩

/-- An operation that changes nothing keeps the invariant. -/
theorem Ok.oks {t : HeapTimer γ} (h : t.Ok) (beyond : Bool) : Oks beyond (some t) := by
  refine ⟨fun hn => absurd hn (by simp), ?_⟩
  rintro t' ht
  rwa [← Option.mem_some.mp ht]

/-- `del_` keeps the invariant and takes one node out. -/
theorem del_spec (beyond : Bool) {t : HeapTimer γ} (h : t.Ok) {index : Nat} (hi : index < t.heap.length) :
    Oks beyond (t.del beyond index) ∧ ∀ t' ∈ t.del beyond index, t'.heap.length + 1 = t.heap.length := by
  have hsifts := toBack_spec beyond h hi
  rw [del, if_pos hi]
  cases hb : t.toBack beyond index (t.heap.length - 1) with
  | none =>
    rw [hb] at hsifts
    exact ⟨⟨fun _ => hsifts.1 rfl, by simp⟩, by simp⟩
  | some t₂ =>
    rw [hb] at hsifts
    have hs := hsifts.2 t₂ rfl
    have hne : t₂.heap ≠ [] := fun hnil => by
      have := hs.length
      rw [hnil, List.length_nil] at this
      omega
    have hback := List.getLast?_eq_some_getLast hne
    have hok := dropLast_ok hs.indexed hback (by rw [hs.length]; exact hs.ordered)
    simp only [Option.bind_eq_bind, Option.bind_some, hback]
    refine ⟨hok.oks beyond, ?_⟩
    rintro t' ht
    rw [← Option.mem_some.mp ht, List.length_dropLast, hs.length]
    omega

/-- `do_work` keeps the invariant, whether or not the id is there. -/
theorem doWork_spec (beyond : Bool) {t : HeapTimer γ} (h : t.Ok) (id : Int) :
    Oks beyond ((t.doWork beyond id).map Prod.fst) := by
  rw [doWork]
  split_ifs
  · exact h.oks beyond
  · cases hr : t.ref id with
    | none => exact h.oks beyond
    | some i =>
      obtain ⟨node, hnode, -⟩ := Option.map_eq_some_iff.mp ((h.indexed id i).mp hr)
      obtain ⟨hi, -⟩ := List.getElem?_eq_some_iff.mp hnode
      have hdel := (del_spec beyond h hi).1
      simp only [hnode, Option.bind_eq_bind, Option.bind_some]
      cases hd : t.del beyond i with
      | none =>
        rw [hd] at hdel
        exact ⟨fun _ => hdel.1 rfl, by simp⟩
      | some t' =>
        rw [hd] at hdel
        exact hdel

/-- The rounds of `tick`, each of which takes a node away. -/
theorem tickLoop_spec (beyond : Bool) (clock : Nat → Int) (fuel : Nat) : ∀ {t : HeapTimer γ} (called : List γ), t.Ok →
    t.heap.length ≤ fuel → Oks beyond ((tickLoop beyond clock fuel t called).map Prod.fst) := by
  induction fuel with
  | zero =>
    intro t called h hfuel
    have hnil : t.heap = [] := List.eq_nil_of_length_eq_zero (Nat.le_zero.mp hfuel)
    rw [tickLoop, if_pos hnil]
    exact h.oks beyond
  | succ fuel ih =>
    intro t called h hfuel
    rw [tickLoop]
    cases hheap : t.heap with
    | nil => exact h.oks beyond
    | cons node rest =>
      simp only []
      split_ifs
      · exact h.oks beyond
      · obtain ⟨hdel, hlen⟩ := del_spec beyond h (show 0 < t.heap.length by rw [hheap]; simp)
        cases hd : t.del beyond 0 with
        | none =>
          rw [hd] at hdel
          simp only [pop, hd]
          exact ⟨fun _ => hdel.1 rfl, by simp⟩
        | some t' =>
          rw [hd] at hdel hlen
          have := hlen t' rfl
          simp only [pop, hd]
          exact ih _ (hdel.2 t' rfl) (by omega)

/-- `adjust` completes, and leaves a heap unless the node is now to expire before its parent. -/
theorem adjust_spec {t : HeapTimer γ} (h : t.Ok) {id : Int} {i : Nat} (hi : t.ref id = some i) (timeout now : Int) :
    ∃ t', t.adjust id timeout now = some t' ∧ (t'.Ok ↔ i = 0 ∨ t.key (parent i) ≤ expiry now timeout) := by
  obtain ⟨node, hnode, -⟩ := Option.map_eq_some_iff.mp ((h.indexed id i).mp hi)
  obtain ⟨hlt, -⟩ := List.getElem?_eq_some_iff.mp hnode
  obtain ⟨hidx, hlen, hkeyi, hkey, hhole⟩ := set_spec h hnode { node with expires := expiry now timeout } rfl _ rfl
  have hadjust : t.adjust id timeout now =
      (siftdown { t with heap := t.heap.set i { node with expires := expiry now timeout } } i t.heap.length).bind
        fun r => some r.1 := by
    simp only [adjust, hi, hnode, Option.bind_eq_bind, Option.bind_some]
  generalize { t with heap := t.heap.set i { node with expires := expiry now timeout } } = t₁ at *
  have hparent : 0 < i → t₁.key (parent i) = t.key (parent i) := fun h0 => hkey _ (by have := parent_lt h0; omega)
  by_cases hle : i = 0 ∨ t.key (parent i) ≤ expiry now timeout
  · have hdown : DownFrom t₁.key t.heap.length i := ⟨hhole, fun h0 => by
      rw [hparent h0, hkeyi]
      exact hle.resolve_left (by omega)⟩
    obtain ⟨t', down, hd, hs, -⟩ := siftdown_spec hidx (by omega) hlt hdown
    refine ⟨t', by rw [hadjust, hd]; rfl, iff_of_true (hs.indexed.ok ?_) hle⟩
    rw [hs.length, hlen]
    exact hs.ordered
  · obtain ⟨h0, hgt⟩ := not_or.mp hle
    have h0 : 0 < i := Nat.pos_of_ne_zero h0
    have hless : t₁.key i < t₁.key (parent i) := by rw [hparent h0, hkeyi]; exact not_le.mp hgt
    refine ⟨t₁, by rw [hadjust, siftdown_of_lt (by omega) hlt hhole h0 hless]; rfl, iff_of_false (fun hok => ?_) hle⟩
    exact absurd (hok.minHeap i h0 (by omega)) (not_le.mpr hless)

/-! ## Runs -/

/-- What the assertions of an operation ask for. -/
def Allowed (t : HeapTimer γ) : TimerOp γ → Prop
  | .add id _ _ _ => 0 ≤ id
  | .adjust id _ _ => t.ref id ≠ none
  | .pop => t.heap ≠ []
  | _ => True

/-- The operation does not make a node expire before its parent by `adjust`. -/
def OpCareful (t : HeapTimer γ) : TimerOp γ → Prop
  | .adjust id timeout now => ∀ i, t.ref id = some i → i = 0 ∨ t.key (parent i) ≤ expiry now timeout
  | _ => True

/-- Every operation that is made is careful, in the state in which it is made. -/
def Careful (t : HeapTimer γ) : List (Bool × TimerOp γ) → Prop
  | [] => True
  | (beyond, op) :: ops => t.OpCareful op ∧ ∀ t' ∈ t.step beyond op, Careful t' ops

/-- An operation completes unless it is not allowed, or a sift reads beyond the array. -/
theorem step_completes {t : HeapTimer γ} (h : t.Ok) {op : TimerOp γ} (hop : t.Allowed op) : ∃ t', t.step true op = some t' := by
  have hsome : ∀ {r : Option (HeapTimer γ)}, Oks true r → ∃ t', r = some t' := by
    rintro (_ | t') hr
    · exact absurd (hr.1 rfl) (by simp)
    · exact ⟨t', rfl⟩
  cases op with
  | add id timeout cb now => exact hsome (add_spec true h hop timeout cb now)
  | adjust id timeout now =>
    obtain ⟨i, hi⟩ := Option.ne_none_iff_exists'.mp hop
    obtain ⟨t', ht', -⟩ := adjust_spec h hi timeout now
    exact ⟨t', ht'⟩
  | doWork id => exact hsome (doWork_spec true h id)
  | pop => exact hsome (del_spec true h (List.length_pos_iff.mpr hop)).1
  | tick clock => exact hsome (tickLoop_spec true clock _ [] h (Nat.le_refl _))

/-- One operation that completes keeps the invariant exactly when it is careful. -/
theorem step_ok_iff {t t' : HeapTimer γ} (h : t.Ok) {beyond : Bool} {op : TimerOp γ} (hstep : t.step beyond op = some t') :
    t'.Ok ↔ t.OpCareful op := by
  cases op with
  | add id timeout cb now =>
    have hid : 0 ≤ id := by
      by_contra hneg
      rw [step, add, if_pos (not_le.mp hneg)] at hstep
      exact absurd hstep (by simp)
    exact iff_of_true ((add_spec beyond h hid timeout cb now).2 t' hstep) trivial
  | adjust id timeout now =>
    cases hi : t.ref id with
    | none =>
      rw [step, adjust, hi] at hstep
      exact absurd hstep (by simp)
    | some i =>
      obtain ⟨t'', ht, hiff⟩ := adjust_spec h hi timeout now
      rw [step, ht] at hstep
      rw [← Option.some.inj hstep, hiff]
      constructor
      · intro hle i' hi'
        rwa [← Option.some.inj (hi.symm.trans hi')]
      · intro hc
        exact hc i hi
  | doWork id => exact iff_of_true ((doWork_spec beyond h id).2 t' hstep) trivial
  | pop =>
    have hlt : 0 < t.heap.length := by
      by_contra hzero
      rw [step, pop, del, if_neg hzero] at hstep
      exact absurd hstep (by simp)
    exact iff_of_true ((del_spec beyond h hlt).1.2 t' hstep) trivial
  | tick clock => exact iff_of_true ((tickLoop_spec beyond clock _ [] h (Nat.le_refl _)).2 t' hstep) trivial

/-- By induction over the calls: every state is right exactly as long as every call is careful. -/
theorem reached_ok (ops : List (Bool × TimerOp γ)) : ∀ {t : HeapTimer γ}, t.Ok → ((∀ t' ∈ t.reached ops, t'.Ok) ↔ t.Careful ops) := by
  induction ops with
  | nil => exact fun _ => iff_of_true (by simp [reached]) trivial
  | cons e ops ih =>
    intro t h
    obtain ⟨beyond, op⟩ := e
    rw [reached, Careful]
    cases hstep : t.step beyond op with
    | none =>
      refine iff_of_true (by simp) ⟨?_, by simp⟩
      -- of the operations that do not complete, `adjust` is on an id that is not there
      cases op with
      | adjust id timeout now =>
        intro i hi
        obtain ⟨t', ht', -⟩ := adjust_spec h hi timeout now
        rw [step, ht'] at hstep
        exact absurd hstep (by simp)
      | _ => trivial
    | some t' =>
      have hiff := step_ok_iff h hstep
      simp only [List.forall_mem_cons, Option.mem_some_iff]
      constructor
      · rintro ⟨hok, hrest⟩
        exact ⟨hiff.mp hok, fun t'' ht => ht ▸ (ih hok).mp hrest⟩
      · rintro ⟨hc, hrest⟩
        exact ⟨hiff.mpr hc, (ih (hiff.mpr hc)).mpr (hrest t' rfl)⟩

/-- A new timer is right. -/
theorem ok_empty : ({} : HeapTimer γ).Ok := by
  refine ⟨fun c _ hc => absurd hc (by simp), List.nodup_nil, fun id p => ?_⟩
  simp

/-- **The invariant of the timer** holds after every operation that completes exactly when no `adjust` of the run makes a node
expire before its parent in the heap. -/
theorem reached_ok_iff (ops : List (Bool × TimerOp γ)) :
    (∀ t ∈ reached ({} : HeapTimer γ) ops, t.Ok) ↔ Careful ({} : HeapTimer γ) ops := reached_ok ops ok_empty

/-- Two timers, the later of which is made the earlier one by `adjust`: it stays below the other. -/
theorem not_reached_ok : ¬ ∀ t ∈ reached ({} : HeapTimer Unit)
    [(true, .add 1 10 () 0), (true, .add 2 20 () 0), (true, .adjust 2 5 0)], t.Ok := by
  intro h
  have hlast := (h _ (List.mem_of_getElem? (i := 2) rfl)).minHeap 1 (by decide) (by decide)
  exact absurd hlast (by decide)

end HeapTimer

end Netcore
