import Mathlib.Algebra.GroupWithZero.Nat
import Netcore.HeapTimer

/-!
# Where `heap_` is accessed

The positions at which `SwapNode_`, `siftup_` and `siftdown_` access `heap_`, operation by operation, in the order of the code. After
an access outside the array nothing is known of the run, and the list ends there.

`siftup_` computes a parent in `size_t` and has no test for the root: a node that is moved up to the root is compared with
`heap_[(0 - 1) / 2]`. `safe_iff` says which operations do that: those in which the node that moves is not later than the root, and
neither goes down nor starts at the root.
-/

namespace Netcore

open BinaryHeap

/-- An access to `heap_`, with the size that it has then. -/
structure Access where
  index : Nat
  size : Nat
  deriving DecidableEq, Repr

namespace HeapTimer

variable {γ : Type}

/-- `(i - 1) / 2` in `size_t`. -/
def parentIndex (i : Nat) : Nat := (i + (2 ^ 64 - 1)) % 2 ^ 64 / 2

/-- The accesses of `SwapNode_`. -/
def swapNodeAccesses (i j : Nat) : List Nat := [i, j]

/-- The accesses of the loop of `siftup_`. -/
def siftupLoopAccesses : Nat → HeapTimer γ → Nat → List Nat
  | 0, _, _ => []
  | fuel + 1, t, i =>
    let j := parentIndex i
    [j, i] ++
      match t.less j i with
      | some false =>
        swapNodeAccesses i j ++
          match t.swapNode i j with
          | some t' => siftupLoopAccesses fuel t' j
          | none => []
      | _ => []

/-- The accesses of `siftup_`. -/
def siftupAccesses (t : HeapTimer γ) (i : Nat) : List Nat := if i = 0 then [] else siftupLoopAccesses (i + 1) t i

/-- The accesses of the loop of `siftdown_`. -/
def siftdownLoopAccesses (n : Nat) : Nat → HeapTimer γ → Nat → List Nat
  | 0, _, _ => []
  | fuel + 1, t, i =>
    if i * 2 + 1 < n then
      (if i * 2 + 1 + 1 < n then [i * 2 + 1 + 1, i * 2 + 1] else []) ++
        match t.minChild i n with
        | none => []
        | some j =>
          [i, j] ++
            match t.less i j with
            | some false =>
              swapNodeAccesses i j ++
                match t.swapNode i j with
                | some t' => siftdownLoopAccesses n fuel t' j
                | none => []
            | _ => []
    else []

/-- The accesses of `siftdown_`, and of `siftup_` when it did nothing. -/
def siftAccesses (t : HeapTimer γ) (i n : Nat) : List Nat :=
  siftdownLoopAccesses n (n + 1) t i ++
    match t.siftdown i n with
    | some (t', false) => t'.siftupAccesses i
    | _ => []

/-- Accesses to the `heap_` of one state. -/
def sized (t : HeapTimer γ) (accesses : List Nat) : List Access := accesses.map fun i => ⟨i, t.heap.length⟩

/-- `add` has put a new node at the end, before it is sifted. -/
def pushed (t : HeapTimer γ) (node : TimerNode γ) : HeapTimer γ where
  heap := t.heap ++ [node]
  ref := Function.update t.ref node.id (some t.heap.length)

/-- Another node stands at a position, before it is sifted. -/
def replaced (t : HeapTimer γ) (i : Nat) (node : TimerNode γ) : HeapTimer γ := { t with heap := t.heap.set i node }

/-- The accesses of the sifts of `add`. -/
def addAccesses (t : HeapTimer γ) (id timeout : Int) (cb : γ) (now : Int) : List Access :=
  if id < 0 then []
  else
    match t.ref id with
    | none =>
      let t₁ := t.pushed ⟨id, expiry now timeout, cb⟩
      t₁.sized (t₁.siftupAccesses t.heap.length)
    | some i =>
      match t.heap[i]? with
      | none => []
      | some node =>
        let t₁ := t.replaced i { node with expires := expiry now timeout, cb := cb }
        t₁.sized (t₁.siftAccesses i t.heap.length)

/-- The accesses of the exchange and the sifts of `del_`. -/
def delAccesses (t : HeapTimer γ) (index : Nat) : List Access :=
  if index < t.heap.length ∧ index < t.heap.length - 1 then
    t.sized (swapNodeAccesses index (t.heap.length - 1) ++
      match t.swapNode index (t.heap.length - 1) with
      | some t₁ => t₁.siftAccesses index (t.heap.length - 1)
      | none => [])
  else []

/-- The accesses of `del_` in `doWork`. -/
def doWorkAccesses (t : HeapTimer γ) (id : Int) : List Access :=
  if t.heap = [] then []
  else
    match t.ref id with
    | none => []
    | some i => t.delAccesses i

/-- The accesses of `siftdown_` in `adjust`. -/
def adjustAccesses (t : HeapTimer γ) (id timeout now : Int) : List Access :=
  match t.ref id with
  | none => []
  | some i =>
    match t.heap[i]? with
    | none => []
    | some node =>
      let t₁ := t.replaced i { node with expires := expiry now timeout }
      t₁.sized (siftdownLoopAccesses t.heap.length (t.heap.length + 1) t₁ i)

/-- The accesses of `pop` in the rounds of `tick`. -/
def tickLoopAccesses (beyond : Bool) (clock : Nat → Int) : Nat → HeapTimer γ → Nat → List Access
  | 0, _, _ => []
  | fuel + 1, t, called =>
    match t.heap with
    | [] => []
    | node :: _ =>
      if Int.tdiv (node.expires - clock called) 1000000 > 0 then []
      else
        t.delAccesses 0 ++
          match t.pop beyond with
          | some t' => tickLoopAccesses beyond clock fuel t' (called + 1)
          | none => []

/-- The accesses of an operation. -/
def accesses (beyond : Bool) (t : HeapTimer γ) : TimerOp γ → List Access
  | .add id timeout cb now => t.addAccesses id timeout cb now
  | .adjust id timeout now => t.adjustAccesses id timeout now
  | .doWork id => t.doWorkAccesses id
  | .pop => t.delAccesses 0
  | .tick clock => tickLoopAccesses beyond clock t.heap.length t 0

/-- The operation stays within `heap_`, and completes when its assertions hold. -/
structure Safe (t : HeapTimer γ) (op : TimerOp γ) : Prop where
  within : ∀ beyond, ∀ a ∈ t.accesses beyond op, a.index < a.size
  completes : t.Allowed op → ∀ beyond, ∃ t', t.step beyond op = some t'

/-- The condition for it: the node that moves is later than the root, or goes down, or starts at the root. For `add` of a new id,
the node is at the end of `heap_`; for `del_`, it is the last one, which takes the place of the node that leaves. -/
def RootStays (t : HeapTimer γ) : TimerOp γ → Prop
  | .add id timeout _ now => 0 ≤ id →
    (t.ref id = none → t.heap = [] ∨ t.key 0 < expiry now timeout) ∧
    ∀ i, t.ref id = some i → i = 0 ∨ t.key 0 < expiry now timeout ∨
      ∃ c, 0 < c ∧ c < t.heap.length ∧ parent c = i ∧ t.key c ≤ expiry now timeout
  | .doWork id => ∀ i, t.ref id = some i → i + 1 = t.heap.length ∨ i = 0 ∨ t.key 0 < t.key (t.heap.length - 1) ∨
      ∃ c, 0 < c ∧ c < t.heap.length - 1 ∧ parent c = i ∧ t.key c ≤ t.key (t.heap.length - 1)
  | _ => True

/-! ## The sifts -/

/-- The index that the source computes for the parent is the parent, except at the root. -/
theorem parentIndex_eq {i : Nat} (h0 : 0 < i) (hi : i < 2 ^ 63) : parentIndex i = parent i := by
  unfold parentIndex parent
  omega

/-- At the root the subtraction wraps, and the index is far beyond the array. -/
theorem parentIndex_zero : parentIndex 0 = 2 ^ 63 - 1 := by decide

/-- A function that stays within the array exactly when `p`, and completes then. -/
structure Tracks (size : Nat) (accesses : List Nat) (run : Bool → Option (HeapTimer γ)) (p : Prop) : Prop where
  within : (∀ k ∈ accesses, k < size) ↔ p
  completes : p → ∀ beyond, ∃ t', run beyond = some t'

/-- `swap_node_` looks at the two nodes. -/
theorem swapNodeAccesses_lt {t : HeapTimer γ} {i j : Nat} (hi : i < t.heap.length) (hj : j < t.heap.length) :
    ∀ k ∈ swapNodeAccesses i j, k < t.heap.length := by
  intro k hk
  rcases List.mem_pair.mp hk with rfl | rfl
  · exact hi
  · exact hj

/-- `siftup_` stays within the array when the node is later than the root, for then the loop ends before it. -/
theorem siftupLoop_tracks {n : Nat} (fuel : Nat) : ∀ {t : HeapTimer γ} {i : Nat}, t.Indexed → n ≤ t.heap.length →
    t.heap.length < 2 ^ 63 → i < n → i < fuel → UpTo t.key n i →
    Tracks t.heap.length (siftupLoopAccesses fuel t i) (fun beyond => siftupLoop beyond fuel t i) (t.key 0 < t.key i) := by
  induction fuel with
  | zero => exact fun _ _ _ _ hfuel => absurd hfuel (Nat.not_lt_zero _)
  | succ fuel ih =>
    intro t i h hn hsize hi hfuel hup
    rcases Nat.eq_zero_or_pos i with h0 | h0
    · -- the root is compared with what is outside the array
      rw [h0]
      refine ⟨iff_of_false (fun hw => ?_) (lt_irrefl _), fun hlt => absurd hlt (lt_irrefl _)⟩
      have := hw (parentIndex 0) (by simp [siftupLoopAccesses])
      rw [parentIndex_zero] at this
      omega
    · have hj := parent_lt h0
      have hil : i < t.heap.length := by omega
      have hjl : parent i < t.heap.length := by omega
      have hpi : parentIndex i = parent i := parentIndex_eq h0 (by omega)
      have hroot := hup.toHole.root_le hi (parent i) hj
      have hless := t.less_eq hjl hil
      by_cases hlt : t.key (parent i) < t.key i
      · rw [decide_eq_true hlt] at hless
        have hacc : siftupLoopAccesses (fuel + 1) t i = [parent i, i] := by
          simp [siftupLoopAccesses, hpi, hless]
        refine ⟨iff_of_true ?_ (hroot.trans_lt hlt), fun _ beyond => ⟨t, ?_⟩⟩
        · rw [hacc]
          exact swapNodeAccesses_lt hjl hil
        · exact siftupLoop_done h0 hless
      · rw [decide_eq_false hlt] at hless
        obtain ⟨t', ht', hidx, hlen, hkey⟩ := swapNode_spec h hil hjl
        have hup' : UpTo t'.key n (parent i) := hkey ▸ hup.swap h0 hi (not_lt.mp hlt)
        have hrec := ih hidx (by omega) (by omega) (by omega) (by omega) hup'
        have hacc : siftupLoopAccesses (fuel + 1) t i =
            [parent i, i] ++ (swapNodeAccesses i (parent i) ++ siftupLoopAccesses fuel t' (parent i)) := by
          rw [siftupLoopAccesses]
          simp only [hpi, hless, ht']
        have hiff : t'.key 0 < t'.key (parent i) ↔ t.key 0 < t.key i := by
          have hi' : t'.key (parent i) = t.key i := by rw [hkey, swap_right]
          rw [hi']
          rcases Nat.eq_zero_or_pos (parent i) with hp0 | hp0
          · rw [hp0] at hi' hlt
            rw [hi']
            exact iff_of_false (lt_irrefl _) hlt
          · rw [hkey, swap_of_ne (by omega) (by omega)]
        refine ⟨?_, fun hp beyond => ?_⟩
        · rw [← hiff, ← hrec.within, hlen, hacc]
          simp only [List.forall_mem_append]
          exact ⟨fun hw => hw.2.2, fun hw => ⟨swapNodeAccesses_lt hjl hil, swapNodeAccesses_lt hil hjl, hw⟩⟩
        · obtain ⟨t'', ht''⟩ := hrec.completes (hiff.mpr hp) beyond
          exact ⟨t'', (siftupLoop_up h0 hless ht').trans ht''⟩

/-- `siftup_` stays within the array exactly when it starts at the root or with a node later than the root. -/
theorem siftup_tracks {n : Nat} {t : HeapTimer γ} {i : Nat} (h : t.Indexed) (hn : n ≤ t.heap.length)
    (hsize : t.heap.length < 2 ^ 63) (hi : i < n) (hup : UpTo t.key n i) :
    Tracks t.heap.length (t.siftupAccesses i) (fun beyond => t.siftup beyond i) (i = 0 ∨ t.key 0 < t.key i) := by
  by_cases h0 : i = 0
  · refine ⟨iff_of_true ?_ (.inl h0), fun _ beyond => ⟨t, if_pos h0⟩⟩
    rw [siftupAccesses, if_pos h0]
    exact fun k hk => absurd hk (List.not_mem_nil)
  · have hloop := siftupLoop_tracks (i + 1) h hn hsize hi (Nat.lt_succ_self i) hup
    rw [or_iff_right h0]
    simp only [siftupAccesses, siftup, if_neg h0]
    exact hloop

/-- `siftdown_` stays within the array. -/
theorem siftdownLoopAccesses_lt {n : Nat} (fuel : Nat) : ∀ {t : HeapTimer γ} {i : Nat}, t.Indexed → n ≤ t.heap.length →
    i < n → ∀ k ∈ siftdownLoopAccesses n fuel t i, k < t.heap.length := by
  induction fuel with
  | zero => exact fun _ _ _ k hk => absurd hk List.not_mem_nil
  | succ fuel ih =>
    intro t i h hn hi
    rw [siftdownLoopAccesses]
    by_cases hc : i * 2 + 1 < n
    · obtain ⟨j, hj, hj0, hjn, -, -⟩ := minChild_spec hn hc
      have hil : i < t.heap.length := by omega
      have hjl : j < t.heap.length := by omega
      simp only [if_pos hc, hj, t.less_eq hil hjl, List.forall_mem_append]
      refine ⟨?_, swapNodeAccesses_lt hil hjl, ?_⟩
      · intro k hk
        split_ifs at hk with hr
        · exact swapNodeAccesses_lt (by omega) (by omega) k hk
        · exact absurd hk List.not_mem_nil
      · by_cases hlt : t.key i < t.key j
        · simp [hlt]
        · obtain ⟨t₁, ht₁, hidx, hlen, -⟩ := swapNode_spec h hil hjl
          simp only [hlt, decide_false, ht₁, List.forall_mem_append]
          refine ⟨swapNodeAccesses_lt hil hjl, ?_⟩
          rw [← hlen]
          exact ih hidx (by omega) hjn
    · rw [if_neg hc]
      exact fun k hk => absurd hk List.not_mem_nil

/-- Without a child that is not later, `siftdown_` does nothing. -/
theorem siftdown_stays {t : HeapTimer γ} {i n : Nat} (hn : n ≤ t.heap.length) (hi : i < n)
    (hlater : ∀ c, 0 < c → c < n → parent c = i → t.key i < t.key c) : t.siftdown i n = some (t, false) := by
  rw [siftdown, siftdownLoop]
  by_cases hc : i * 2 + 1 < n
  · obtain ⟨j, hj, hj0, hjn, hp, -⟩ := minChild_spec hn hc
    have hlt := hlater j hj0 hjn hp
    simp [hc, hj, t.less_eq (show i < t.heap.length by omega) (show j < t.heap.length by omega), hlt]
  · simp [hc]

/-- With a child that is not later, the node goes down. -/
theorem siftdown_moves {t : HeapTimer γ} {i n : Nat} (h : t.Indexed) (hn : n ≤ t.heap.length) (hi : i < n)
    (hhole : Hole t.key n i) {c : Nat} (h0 : 0 < c) (hcn : c < n) (hp : parent c = i) (hle : t.key c ≤ t.key i) :
    ∃ t', t.siftdown i n = some (t', true) := by
  have hdown : DownFrom t.key n i := ⟨hhole, fun hi0 => (hhole.across hi0 c h0 hcn hp).trans hle⟩
  have hc : i * 2 + 1 < n := by
    unfold parent at hp
    omega
  obtain ⟨j, hj, hj0, hjn, hpj, hmin⟩ := minChild_spec hn hc
  have hij : i < j := hpj ▸ parent_lt hj0
  have hil : i < t.heap.length := by omega
  have hjl : j < t.heap.length := by omega
  have hlt : ¬ t.key i < t.key j := not_lt.mpr ((hmin c h0 hcn hp).trans hle)
  obtain ⟨t₁, ht₁, hidx, hlen, hkey⟩ := swapNode_spec h hil hjl
  obtain ⟨t', i', hloop, -, hle', -⟩ := siftdownLoop_spec n hidx (by omega) hjn (by omega)
    (hkey ▸ hdown.swap hj0 hjn hpj hmin (not_lt.mp hlt))
  refine ⟨t', ?_⟩
  rw [siftdown, siftdownLoop]
  simp only [if_pos hc, hj, Option.bind_eq_bind, Option.bind_some, t.less_eq hil hjl, hlt, decide_false,
    Bool.false_eq_true, if_false, ht₁, hloop, decide_eq_true (show i < i' by omega)]

/-- Both sifts. -/
theorem sift_tracks {t : HeapTimer γ} {i n : Nat} (h : t.Indexed) (hn : n ≤ t.heap.length) (hsize : t.heap.length < 2 ^ 63)
    (hi : i < n) (hhole : Hole t.key n i) :
    Tracks t.heap.length (t.siftAccesses i n) (fun beyond => t.sift beyond i n)
      (i = 0 ∨ t.key 0 < t.key i ∨ ∃ c, 0 < c ∧ c < n ∧ parent c = i ∧ t.key c ≤ t.key i) := by
  have hdownlt := siftdownLoopAccesses_lt (n + 1) h hn hi
  by_cases hchild : ∃ c, 0 < c ∧ c < n ∧ parent c = i ∧ t.key c ≤ t.key i
  · obtain ⟨c, h0, hcn, hp, hle⟩ := hchild
    obtain ⟨t', ht'⟩ := siftdown_moves h hn hi hhole h0 hcn hp hle
    refine ⟨iff_of_true ?_ (.inr (.inr ⟨c, h0, hcn, hp, hle⟩)), fun _ beyond => ⟨t', ?_⟩⟩
    · rw [siftAccesses, ht', List.append_nil]
      exact hdownlt
    · simp only [sift, ht', Option.bind_eq_bind, Option.bind_some, if_true]
  · have hlater : ∀ c, 0 < c → c < n → parent c = i → t.key i < t.key c := fun c h0 hcn hp =>
      not_le.mp fun hle => hchild ⟨c, h0, hcn, hp, hle⟩
    have hstay := siftdown_stays hn hi hlater
    have hup : UpTo t.key n i := ⟨hhole, fun c h0 hcn hp => (hlater c h0 hcn hp).le⟩
    have htracks := siftup_tracks h hn hsize hi hup
    refine ⟨?_, fun hp beyond => ?_⟩
    · rw [siftAccesses, hstay, List.forall_mem_append, or_iff_left hchild, ← htracks.within]
      exact and_iff_right hdownlt
    · obtain ⟨t', ht'⟩ := htracks.completes (by rwa [or_iff_left hchild] at hp) beyond
      refine ⟨t', ?_⟩
      simp only [sift, hstay, Option.bind_eq_bind, Option.bind_some]
      exact ht'

/-! ## The operations -/

/-- Accesses that are made while the size stays are within it if each index is below it. -/
theorem sized_within {t : HeapTimer γ} {accesses : List Nat} :
    (∀ a ∈ t.sized accesses, a.index < a.size) ↔ ∀ k ∈ accesses, k < t.heap.length := List.forall_mem_map

/-- `add` of a new id. -/
theorem add_new_tracks {t : HeapTimer γ} (h : t.Ok) (hsize : t.heap.length + 1 < 2 ^ 63) {id : Int} (hid : 0 ≤ id)
    (hr : t.ref id = none) (timeout : Int) (cb : γ) (now : Int) :
    ((∀ a ∈ t.addAccesses id timeout cb now, a.index < a.size) ↔ t.heap = [] ∨ t.key 0 < expiry now timeout) ∧
      (t.heap = [] ∨ t.key 0 < expiry now timeout → ∀ beyond, ∃ t', t.add beyond id timeout cb now = some t') := by
  obtain ⟨hidx, hlen, hup⟩ := push_spec h hr ⟨id, expiry now timeout, cb⟩ rfl (t.pushed _) rfl
  have hadd : ∀ beyond, t.add beyond id timeout cb now =
      siftup beyond (t.pushed ⟨id, expiry now timeout, cb⟩) t.heap.length := by
    intro beyond
    rw [add, if_neg (not_lt.mpr hid), hr]
    rfl
  have hacc : t.addAccesses id timeout cb now = (t.pushed ⟨id, expiry now timeout, cb⟩).sized
      ((t.pushed ⟨id, expiry now timeout, cb⟩).siftupAccesses t.heap.length) := by
    rw [addAccesses, if_neg (not_lt.mpr hid), hr]
  have hlast : (t.pushed ⟨id, expiry now timeout, cb⟩).key t.heap.length = expiry now timeout := by
    rw [key, pushed, List.getElem?_concat_length]
  have hfirst : 0 < t.heap.length → (t.pushed ⟨id, expiry now timeout, cb⟩).key 0 = t.key 0 := fun h0 => by
    rw [key, key, pushed, List.getElem?_append_left h0]
  have htracks := siftup_tracks hidx hlen.ge (by omega) (Nat.lt_succ_self _) hup
  rw [hlast, List.length_eq_zero_iff] at htracks
  have hiff : (t.heap = [] ∨ (t.pushed ⟨id, expiry now timeout, cb⟩).key 0 < expiry now timeout) ↔
      (t.heap = [] ∨ t.key 0 < expiry now timeout) := by
    refine or_congr_right' fun hnil => ?_
    rw [hfirst (List.length_pos_iff.mpr hnil)]
  refine ⟨?_, fun hp beyond => ?_⟩
  · rw [hacc, sized_within, htracks.within, hiff]
  · rw [hadd]
    exact htracks.completes (hiff.mpr hp) beyond

/-- A node that is sifted after it got another key. -/
theorem replaced_tracks {t : HeapTimer γ} (h : t.Ok) (hsize : t.heap.length < 2 ^ 63) {i : Nat} {node : TimerNode γ}
    (hnode : t.heap[i]? = some node) (node' : TimerNode γ) (hid : node'.id = node.id) :
    Tracks t.heap.length ((t.replaced i node').siftAccesses i t.heap.length) (fun beyond => (t.replaced i node').sift beyond i t.heap.length)
      (i = 0 ∨ t.key 0 < node'.expires ∨ ∃ c, 0 < c ∧ c < t.heap.length ∧ parent c = i ∧ t.key c ≤ node'.expires) := by
  obtain ⟨hi, -⟩ := List.getElem?_eq_some_iff.mp hnode
  obtain ⟨hidx, hlen, hkeyi, hkey, hhole⟩ := set_spec h hnode node' hid (t.replaced i node') rfl
  have htracks := sift_tracks hidx (by omega) (by omega) hi hhole
  have hiff : (i = 0 ∨ (t.replaced i node').key 0 < (t.replaced i node').key i ∨
        ∃ c, 0 < c ∧ c < t.heap.length ∧ parent c = i ∧ (t.replaced i node').key c ≤ (t.replaced i node').key i) ↔
      (i = 0 ∨ t.key 0 < node'.expires ∨ ∃ c, 0 < c ∧ c < t.heap.length ∧ parent c = i ∧ t.key c ≤ node'.expires) := by
    refine or_congr_right' fun h0 => ?_
    rw [hkeyi, hkey 0 (Ne.symm h0)]
    refine or_congr_right (exists_congr fun c => and_congr_right fun hc0 => and_congr_right fun _ => and_congr_right ?_)
    rintro rfl
    rw [hkey c (by have := parent_lt hc0; omega)]
  rw [hlen] at htracks
  exact ⟨htracks.within.trans hiff, fun hp => htracks.completes (hiff.mpr hp)⟩

/-- The condition for `del_`: as for `RootStays`, for the last node in the place of the one that leaves. -/
def BackStays (t : HeapTimer γ) (index : Nat) : Prop :=
  index + 1 = t.heap.length ∨ index = 0 ∨ t.key 0 < t.key (t.heap.length - 1) ∨
    ∃ c, 0 < c ∧ c < t.heap.length - 1 ∧ parent c = index ∧ t.key c ≤ t.key (t.heap.length - 1)

/-- To bring a node to the back stays within the array exactly when `BackStays`, and completes then. -/
theorem toBack_tracks {t : HeapTimer γ} (h : t.Ok) (hsize : t.heap.length < 2 ^ 63) {index : Nat} (hi : index < t.heap.length) :
    ((∀ a ∈ t.delAccesses index, a.index < a.size) ↔ t.BackStays index) ∧
      (t.BackStays index → ∀ beyond, ∃ t', t.toBack beyond index (t.heap.length - 1) = some t') := by
  by_cases hlt : index < t.heap.length - 1
  · have hnl : t.heap.length - 1 < t.heap.length := by omega
    obtain ⟨t₁, ht₁, hidx, hlen, hkey⟩ := swapNode_spec h.indexed hi hnl
    have ho : Ordered t.key (t.heap.length - 1) := fun c h0 hc => h.minHeap c h0 (by omega)
    have hhole : Hole t₁.key (t.heap.length - 1) index := by
      rw [hkey]
      exact ho.hole hlt fun c hc hcn => swap_of_ne hc (by omega)
    have htracks := sift_tracks hidx (by omega) (by omega) hlt hhole
    rw [hlen] at htracks
    have hiff : (index = 0 ∨ t₁.key 0 < t₁.key index ∨
        ∃ c, 0 < c ∧ c < t.heap.length - 1 ∧ parent c = index ∧ t₁.key c ≤ t₁.key index) ↔ t.BackStays index := by
      rw [BackStays, or_iff_right (show ¬ index + 1 = t.heap.length by omega)]
      refine or_congr_right' fun h0 => ?_
      rw [hkey, swap_left, swap_of_ne (Ne.symm h0) (by omega)]
      refine or_congr_right (exists_congr fun c => and_congr_right fun hc0 => and_congr_right fun hcn => and_congr_right ?_)
      rintro rfl
      rw [swap_of_ne (by have := parent_lt hc0; omega) (by omega)]
    refine ⟨?_, fun hp beyond => ?_⟩
    · rw [delAccesses, if_pos ⟨hi, hlt⟩, ht₁, sized_within, List.forall_mem_append, htracks.within, hiff]
      exact and_iff_right (swapNodeAccesses_lt hi hnl)
    · obtain ⟨t', ht'⟩ := htracks.completes (hiff.mpr hp) beyond
      exact ⟨t', by rw [toBack, if_pos hlt, ht₁]; exact ht'⟩
  · refine ⟨iff_of_true ?_ (.inl (by omega)), fun _ beyond => ⟨t, by rw [toBack, if_neg hlt]⟩⟩
    rw [delAccesses, if_neg fun hc => hlt hc.2]
    exact fun a ha => absurd ha List.not_mem_nil

/-- `del_` completes under its condition. -/
theorem del_completes {t : HeapTimer γ} (h : t.Ok) (hsize : t.heap.length < 2 ^ 63) {index : Nat} (hi : index < t.heap.length)
    (hp : t.BackStays index) (beyond : Bool) : ∃ t', t.del beyond index = some t' := by
  obtain ⟨t₂, ht₂⟩ := (toBack_tracks h hsize hi).2 hp beyond
  have hlen := ((toBack_spec beyond h hi).2 t₂ ht₂).length
  have hne : t₂.heap ≠ [] := fun hnil => by
    rw [hnil, List.length_nil] at hlen
    omega
  refine ⟨{ heap := t₂.heap.dropLast, ref := Function.update t₂.ref (t₂.heap.getLast hne).id none }, ?_⟩
  simp only [del, if_pos hi, ht₂, Option.bind_eq_bind, Option.bind_some, List.getLast?_eq_some_getLast hne]

/-- A sift that starts at the root does not depend on what is outside the array. -/
theorem pop_eq (beyond : Bool) (t : HeapTimer γ) : t.pop beyond = t.pop true := by
  simp only [pop, del, toBack, sift, siftup, if_true]

/-- `pop` of a heap that is not empty completes. -/
theorem pop_completes {t : HeapTimer γ} (h : t.Ok) (hne : t.heap ≠ []) (beyond : Bool) : ∃ t', t.pop beyond = some t' := by
  rw [pop_eq]
  exact Option.ne_none_iff_exists'.mp fun hn => Bool.noConfusion ((del_spec true h (List.length_pos_iff.mpr hne)).1.1 hn)

/-- `pop` stays within the array: the node that moves goes down from the root. -/
theorem pop_within {t : HeapTimer γ} (h : t.Ok) (hsize : t.heap.length < 2 ^ 63) : ∀ a ∈ t.delAccesses 0, a.index < a.size := by
  by_cases hi : 0 < t.heap.length
  · exact (toBack_tracks h hsize hi).1.mpr (.inr (.inl rfl))
  · rw [delAccesses, if_neg fun hc => hi hc.1]
    exact fun a ha => absurd ha List.not_mem_nil

/-- The rounds of `tick`. -/
theorem tickLoop_within (beyond : Bool) (clock : Nat → Int) (fuel : Nat) : ∀ {t : HeapTimer γ} (called : Nat), t.Ok →
    t.heap.length < 2 ^ 63 → ∀ a ∈ tickLoopAccesses beyond clock fuel t called, a.index < a.size := by
  induction fuel with
  | zero => exact fun _ _ _ a ha => absurd ha List.not_mem_nil
  | succ fuel ih =>
    intro t called h hsize
    rw [tickLoopAccesses]
    cases hheap : t.heap with
    | nil => exact fun a ha => absurd ha List.not_mem_nil
    | cons node rest =>
      have hi : 0 < t.heap.length := by rw [hheap]; exact Nat.succ_pos _
      simp only []
      split_ifs
      · exact fun a ha => absurd ha List.not_mem_nil
      · rw [List.forall_mem_append]
        refine ⟨pop_within h hsize, ?_⟩
        cases hd : t.pop beyond with
        | none => exact fun a ha => absurd ha List.not_mem_nil
        | some t' =>
          obtain ⟨hok, hlen⟩ := del_spec beyond h hi
          have := hlen t' hd
          exact ih (called + 1) (hok.2 t' hd) (by omega)

/-- By induction on the number of nodes, the loop of `tick` completes. -/
theorem tickLoop_completes (beyond : Bool) (clock : Nat → Int) (fuel : Nat) : ∀ {t : HeapTimer γ} (called : List γ), t.Ok →
    t.heap.length ≤ fuel → ∃ r, tickLoop beyond clock fuel t called = some r := by
  induction fuel with
  | zero =>
    intro t called h hfuel
    exact ⟨(t, called), by rw [tickLoop, if_pos (List.eq_nil_of_length_eq_zero (Nat.le_zero.mp hfuel))]⟩
  | succ fuel ih =>
    intro t called h hfuel
    rw [tickLoop]
    cases hheap : t.heap with
    | nil => exact ⟨_, rfl⟩
    | cons node rest =>
      have hi : 0 < t.heap.length := by rw [hheap]; exact Nat.succ_pos _
      simp only []
      split_ifs
      · exact ⟨_, rfl⟩
      · obtain ⟨t', ht'⟩ := pop_completes h (List.length_pos_iff.mp hi) beyond
        obtain ⟨hok, hlen⟩ := del_spec beyond h hi
        have := hlen t' ht'
        simp only [ht', Option.bind_eq_bind, Option.bind_some]
        exact ih _ (hok.2 t' ht') (by omega)

/-- `add` is safe exactly when its node stays below the root. -/
theorem add_safe_iff {t : HeapTimer γ} (h : t.Ok) (hsize : t.heap.length + 1 < 2 ^ 63) (id timeout : Int) (cb : γ) (now : Int) :
    t.Safe (.add id timeout cb now) ↔ t.RootStays (.add id timeout cb now) := by
  by_cases hid : id < 0
  · refine iff_of_true ⟨fun _ => ?_, fun hop => absurd hop (not_le.mpr hid)⟩ fun hop => absurd hop (not_le.mpr hid)
    rw [accesses, addAccesses, if_pos hid]
    exact fun a ha => absurd ha List.not_mem_nil
  · have hid : 0 ≤ id := not_lt.mp hid
    cases hr : t.ref id with
    | none =>
      obtain ⟨hwithin, hcompletes⟩ := add_new_tracks h hsize hid hr timeout cb now
      refine ⟨fun hs _ => ⟨fun _ => hwithin.mp (hs.within true), by simp [hr]⟩, fun hs => ?_⟩
      exact ⟨fun _ => hwithin.mpr ((hs hid).1 hr), fun _ => hcompletes ((hs hid).1 hr)⟩
    | some i =>
      obtain ⟨node, hnode, -⟩ := Option.map_eq_some_iff.mp ((h.indexed id i).mp hr)
      have htracks := replaced_tracks h (by omega) hnode { node with expires := expiry now timeout, cb := cb } rfl
      have hacc : ∀ beyond, t.accesses beyond (.add id timeout cb now) =
          (t.replaced i { node with expires := expiry now timeout, cb := cb }).sized
            ((t.replaced i { node with expires := expiry now timeout, cb := cb }).siftAccesses i t.heap.length) := by
        intro beyond
        simp only [accesses, addAccesses, if_neg (not_lt.mpr hid), hr, hnode]
      have hadd : ∀ beyond, t.step beyond (.add id timeout cb now) =
          sift beyond (t.replaced i { node with expires := expiry now timeout, cb := cb }) i t.heap.length := by
        intro beyond
        simp only [step, add, if_neg (not_lt.mpr hid), hr, hnode, Option.bind_eq_bind, Option.bind_some, replaced]
      have hwithin : ∀ beyond, (∀ a ∈ t.accesses beyond (.add id timeout cb now), a.index < a.size) ↔
          i = 0 ∨ t.key 0 < expiry now timeout ∨
            ∃ c, 0 < c ∧ c < t.heap.length ∧ parent c = i ∧ t.key c ≤ expiry now timeout := by
        intro beyond
        rw [hacc, sized_within, ← htracks.within, replaced, List.length_set]
      constructor
      · intro hs _
        refine ⟨by simp [hr], fun i' hi' => ?_⟩
        obtain rfl := Option.some.inj (hr.symm.trans hi')
        exact (hwithin true).mp (hs.within true)
      · intro hs
        refine ⟨fun beyond => (hwithin beyond).mpr ((hs hid).2 i hr), fun _ beyond => ?_⟩
        rw [hadd]
        exact htracks.completes ((hs hid).2 i hr) beyond

/-- `do_work` is safe exactly when the last node, put in the place of the one that leaves, stays below the root. -/
theorem doWork_safe_iff {t : HeapTimer γ} (h : t.Ok) (hsize : t.heap.length < 2 ^ 63) (id : Int) :
    t.Safe (.doWork id) ↔ t.RootStays (.doWork id) := by
  cases hr : t.ref id with
  | none =>
    refine iff_of_true ⟨fun beyond => ?_, fun _ beyond => ⟨t, ?_⟩⟩ (fun i hi => absurd (hr.symm.trans hi) (by simp))
    · simp [accesses, doWorkAccesses, hr]
    · simp [step, doWork, hr]
  | some i =>
    obtain ⟨node, hnode, -⟩ := Option.map_eq_some_iff.mp ((h.indexed id i).mp hr)
    obtain ⟨hi, -⟩ := List.getElem?_eq_some_iff.mp hnode
    have hne : t.heap ≠ [] := List.length_pos_iff.mp (by omega)
    obtain ⟨hwithin, -⟩ := toBack_tracks h hsize hi
    have hacc : ∀ beyond, t.accesses beyond (.doWork id) = t.delAccesses i := by
      intro beyond
      simp only [accesses, doWorkAccesses, if_neg hne, hr]
    constructor
    · intro hs i' hi'
      obtain rfl := Option.some.inj (hr.symm.trans hi')
      exact hwithin.mp (hacc true ▸ hs.within true)
    · intro hs
      refine ⟨fun beyond => hacc beyond ▸ hwithin.mpr (hs i hr), fun _ beyond => ?_⟩
      obtain ⟨t', ht'⟩ := del_completes h hsize hi (hs i hr) beyond
      refine ⟨t', ?_⟩
      simp only [step, doWork, if_neg hne, hr, hnode, ht', Option.bind_eq_bind, Option.bind_some, Option.map_some]

/-- `adjust` is always safe: it only sifts down. -/
theorem adjust_safe {t : HeapTimer γ} (h : t.Ok) (id timeout now : Int) : t.Safe (.adjust id timeout now) := by
  refine ⟨fun _ => ?_, fun hop _ => ?_⟩
  · rw [accesses, adjustAccesses]
    cases hr : t.ref id with
    | none => exact fun a ha => absurd ha List.not_mem_nil
    | some i =>
      obtain ⟨node, hnode, -⟩ := Option.map_eq_some_iff.mp ((h.indexed id i).mp hr)
      obtain ⟨hi, -⟩ := List.getElem?_eq_some_iff.mp hnode
      obtain ⟨hidx, hlen, -⟩ := set_spec h hnode { node with expires := expiry now timeout } rfl (t.replaced i _) rfl
      simp only [hnode, sized_within]
      exact siftdownLoopAccesses_lt _ hidx (by omega) hi
  · obtain ⟨i, hi⟩ := Option.ne_none_iff_exists'.mp hop
    obtain ⟨t', ht', -⟩ := adjust_spec h hi timeout now
    exact ⟨t', ht'⟩

/-- **The accesses of the sifts**: an operation on a timer that has its invariant stays within `heap_`, and completes, exactly when
it moves no node up to the root. (A `vector` holds fewer than `2 ^ 63 - 1` nodes.) -/
theorem safe_iff {t : HeapTimer γ} (h : t.Ok) (hsize : t.heap.length + 1 < 2 ^ 63) (op : TimerOp γ) : t.Safe op ↔ t.RootStays op := by
  cases op with
  | add id timeout cb now => exact add_safe_iff h hsize id timeout cb now
  | adjust id timeout now => exact iff_of_true (adjust_safe h id timeout now) trivial
  | doWork id => exact doWork_safe_iff h (by omega) id
  | pop =>
    exact iff_of_true ⟨fun _ => pop_within h (by omega), fun hop beyond => pop_completes h hop beyond⟩ trivial
  | tick clock =>
    refine iff_of_true ⟨fun beyond => tickLoop_within beyond clock _ 0 h (by omega), fun _ beyond => ?_⟩ trivial
    obtain ⟨r, hr⟩ := tickLoop_completes beyond clock _ [] h (Nat.le_refl _)
    exact ⟨r.1, by rw [step, tick, hr]; rfl⟩

/-- A timer with one node. -/
def single (node : TimerNode γ) : HeapTimer γ := ({} : HeapTimer γ).pushed node

theorem single_ok (node : TimerNode γ) : (single node).Ok := by
  obtain ⟨hidx, -, hup⟩ := push_spec ok_empty (show ({} : HeapTimer γ).ref node.id = none from rfl) node rfl (single node) rfl
  exact hidx.ok (hup.ordered fun h0 => absurd h0 (Nat.lt_irrefl 0))

/-- A timer with these nodes in its heap. -/
def ofNodes (nodes : List (TimerNode γ)) : HeapTimer γ :=
  { heap := nodes, ref := fun id => nodes.findIdx? fun node => decide (node.id = id) }

theorem ofNodes_ok {nodes : List (TimerNode γ)} (hids : (nodes.map TimerNode.id).Nodup)
    (hheap : ∀ c < nodes.length, 0 < c → (ofNodes nodes).key (parent c) ≤ (ofNodes nodes).key c) : (ofNodes nodes).Ok := by
  refine ⟨fun c h0 hc => hheap c hc h0, hids, fun id p => ?_⟩
  rw [ofNodes, List.findIdx?_eq_some_iff_getElem]
  constructor
  · rintro ⟨hp, hid, -⟩
    rw [List.getElem?_eq_getElem hp, Option.map_some, of_decide_eq_true hid]
  · intro h
    obtain ⟨node, hnode, rfl⟩ := Option.map_eq_some_iff.mp h
    obtain ⟨hp, rfl⟩ := List.getElem?_eq_some_iff.mp hnode
    have hlt : p < nodes.length := hp
    refine ⟨hp, decide_eq_true rfl, fun j hj hid => ?_⟩
    have heq : (nodes.map TimerNode.id)[j]? = (nodes.map TimerNode.id)[p]? := by
      rw [List.getElem?_map, List.getElem?_map, List.getElem?_eq_getElem (hj.trans hlt), List.getElem?_eq_getElem hlt]
      exact congrArg some (of_decide_eq_true hid)
    exact Nat.ne_of_lt hj ((List.getElem?_inj (by rw [List.length_map]; exact hj.trans hlt) hids).mp heq)

/-- Four timers, of which the third is due before the second. -/
def fourTimers : HeapTimer Nat := ofNodes [⟨1, 3, 10⟩, ⟨2, 9000000, 20⟩, ⟨3, 5, 30⟩, ⟨4, 10000000, 40⟩]

theorem fourTimers_ok : fourTimers.Ok := ofNodes_ok (by decide) (by decide)

/-- A timer that goes up in the heap, but not to the root. -/
theorem safe_iff_later : fourTimers.Safe (.add 5 6 50 0) ↔ fourTimers.RootStays (.add 5 6 50 0) := safe_iff fourTimers_ok (by decide) _

/-- A timer that is due at the same time as the one that is there is moved up to the root, and compared with what is outside. -/
theorem not_safe : ¬ ∀ t : HeapTimer Unit, t.Ok → ∀ op, t.Safe op := by
  intro h
  have hsafe := h (single ⟨1, 10, ()⟩) (single_ok _) (.add 2 0 () 10)
  exact absurd (hsafe.within true ⟨2 ^ 63 - 1, 2⟩ (by decide)) (by decide)

end HeapTimer

end Netcore
