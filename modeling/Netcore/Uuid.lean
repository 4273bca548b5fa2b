import Mathlib.Data.List.Induction
import Netcore.Http.Decimal
import Netcore.Lib.Threads

/-!
# `uuid_str`

Calls of `uuid_str` under way in any number of threads. A call reads the clock, increments the counter `id_`, which all threads
share, and reads the counter again; each of these is one step. The id is the clock reading and the counter, written one after the
other.

`unique_iff` says when two calls come to the same id: the counter may have been incremented by others between the increment of a
call and its read, so that two calls read one value, and the digits of the clock reading are not told apart from those of the
counter.
-/

namespace Netcore.Uuid

/-- Where a call is: at its beginning, with a clock reading, after its increment, and at its end, with the counter it has read. -/
inductive Stage where
  | start
  | clocked (nano : Int64)
  | counted (nano : Int64)
  | returned (nano id : Int64)
  deriving DecidableEq, Repr

/-- The counter and the calls. -/
structure State where
  id : Int64 := 0
  calls : List Stage
  deriving DecidableEq, Repr

/-- The steps of call `k`. -/
inductive Act where
  | clock (k : Nat) (nano : Int64)
  | increment (k : Nat)
  | read (k : Nat)
  deriving DecidableEq, Repr

/-- The string that is returned. -/
def uuidStr (nano id : Int64) : Bytes := decimal nano.toInt ++ decimal id.toInt

namespace State

/-- Before the first call of `n` calls. -/
def start (n : Nat) : State := { calls := List.replicate n .start }

/-- One step, if it is the turn of the call. -/
def step (s : State) : Act → Option State
  | .clock k nano => if s.calls[k]? = some .start then some { s with calls := s.calls.set k (.clocked nano) } else none
  | .increment k =>
    match s.calls[k]? with
    | some (.clocked nano) => some { id := s.id + 1, calls := s.calls.set k (.counted nano) }
    | _ => none
  | .read k =>
    match s.calls[k]? with
    | some (.counted nano) => some { s with calls := s.calls.set k (.returned nano s.id) }
    | _ => none

/-- The steps of a schedule. -/
def run (s : State) (acts : List Act) : Option State := acts.foldlM step s

/-- No two calls have returned the same string. -/
def Unique (s : State) : Prop := ∀ (i j : Nat) (n d n' d' : Int64), s.calls[i]? = some (.returned n d) →
  s.calls[j]? = some (.returned n' d') → uuidStr n d = uuidStr n' d' → i = j

/-- The clock reading `n'` is `n` with digits behind it, with which the counter `d` begins; the rest of `d` is the counter `d'`. -/
def Slides (n d n' d' : Int64) : Prop :=
  ∃ w, w ≠ [] ∧ decimal n'.toInt = decimal n.toInt ++ w ∧ decimal d.toInt = w ++ decimal d'.toInt

/-- What call `k` is about to read can be told from what the calls that have returned have read: none of them has read the same
time and the same counter, and from none of them digits slide from the counter to the clock reading or back. -/
def Apart (s : State) (k : Nat) : Prop := ∀ (n : Int64), s.calls[k]? = some (.counted n) → ∀ (j : Nat) (n' d' : Int64),
  s.calls[j]? = some (.returned n' d') → ¬(n' = n ∧ d' = s.id) ∧ ¬Slides n s.id n' d' ∧ ¬Slides n' d' n s.id

/-- Every read of a schedule is apart from the ones before. -/
def ReadsApart (calls : Nat) (acts : List Act) : Prop :=
  ∀ done k s, done ++ [.read k] <+: acts → (start calls).run done = some s → s.Apart k

end State

/-! ## Strings -/

/-- How two pairs of numbers can be written alike. -/
theorem uuidStr_eq_iff (n d n' d' : Int64) : uuidStr n d = uuidStr n' d' ↔
    n' = n ∧ d' = d ∨ State.Slides n d n' d' ∨ State.Slides n' d' n d := by
  have hinj : ∀ {a b : Int64}, decimal a.toInt = decimal b.toInt → a = b := fun h => Int64.toInt_inj.mp (decimal_injective h)
  unfold uuidStr
  constructor
  · intro h
    rcases List.append_eq_append_iff.mp h with ⟨w, hn, hd⟩ | ⟨w, hn, hd⟩
    · by_cases hw : w = []
      · subst hw
        rw [List.append_nil] at hn
        exact .inl ⟨hinj hn, (hinj hd).symm⟩
      · exact .inr (.inl ⟨w, hw, hn, hd⟩)
    · by_cases hw : w = []
      · subst hw
        rw [List.append_nil] at hn
        exact .inl ⟨(hinj hn).symm, hinj hd⟩
      · exact .inr (.inr ⟨w, hw, hn, hd⟩)
  · rintro (⟨rfl, rfl⟩ | ⟨w, -, hn, hd⟩ | ⟨w, -, hn, hd⟩)
    · rfl
    · rw [hn, hd, List.append_assoc]
    · rw [hn, hd, List.append_assoc]

namespace State

variable {s s' : State} {a : Act}

/-- No digits slide between clock readings that have equally many of them. -/
theorem not_slides_of_length {n d n' d' : Int64} (h : (decimal n.toInt).length = (decimal n'.toInt).length) :
    ¬Slides n d n' d' := by
  rintro ⟨w, hw, hn, -⟩
  rw [hn, List.length_append] at h
  exact hw (List.length_eq_zero_iff.mp (by omega))

/-- While the clock readings have equally many digits, the ids are unique as long as no two calls that have read the same time
read the same counter. -/
theorem unique_iff_of_length (hlen : ∀ (i j : Nat) (n d n' d' : Int64), s.calls[i]? = some (.returned n d) →
      s.calls[j]? = some (.returned n' d') → (decimal n.toInt).length = (decimal n'.toInt).length) :
    s.Unique ↔ ∀ (i j : Nat) (n d : Int64), s.calls[i]? = some (.returned n d) → s.calls[j]? = some (.returned n d) → i = j := by
  constructor
  · intro h i j n d hi hj
    exact h i j n d n d hi hj rfl
  · intro h i j n d n' d' hi hj heq
    have hl := hlen i j n d n' d' hi hj
    rcases (uuidStr_eq_iff n d n' d').mp heq with ⟨rfl, rfl⟩ | hslide | hslide
    · exact h i j n' d' hi hj
    · exact absurd hslide (not_slides_of_length hl)
    · exact absurd hslide (not_slides_of_length hl.symm)

/-! ## One step -/

/-- A step of a call that does not return leaves the calls that have returned. -/
theorem returned_set_iff {k : Nat} {p q : Stage} (hk : s.calls[k]? = some p) (hp : ∀ n d, p ≠ .returned n d)
    (hq : ∀ n d, q ≠ .returned n d) (i : Nat) (n d : Int64) :
    (s.calls.set k q)[i]? = some (.returned n d) ↔ s.calls[i]? = some (.returned n d) := by
  constructor
  · intro h
    rcases Threads.set_cases h with ⟨-, he⟩ | ⟨-, h⟩
    · exact absurd he.symm (hq n d)
    · exact h
  · intro h
    refine Threads.set_of_ne h ?_ q
    rintro rfl
    exact hp n d (Option.some.inj (hk.symm.trans h))

/-- A call that is apart comes to another string than the calls that have returned. -/
theorem apart_iff {k : Nat} {n : Int64} (hk : s.calls[k]? = some (.counted n)) :
    s.Apart k ↔ ∀ (j : Nat) (n' d' : Int64), s.calls[j]? = some (.returned n' d') → uuidStr n s.id ≠ uuidStr n' d' := by
  simp only [Apart, hk, Option.some_inj, Stage.counted.injEq, forall_eq', Ne, uuidStr_eq_iff, not_or]

/-- The return of a call keeps the ids unique exactly if its string is a new one. -/
theorem unique_set_iff {k : Nat} {p : Stage} (hk : s.calls[k]? = some p) (hp : ∀ n d, p ≠ .returned n d) (id n d : Int64) :
    (State.mk id (s.calls.set k (.returned n d))).Unique ↔
      s.Unique ∧ ∀ (j : Nat) (n' d' : Int64), s.calls[j]? = some (.returned n' d') → uuidStr n d ≠ uuidStr n' d' := by
  have hnew := Threads.set_same hk (.returned n d)
  have hne : ∀ {j : Nat} {n' d' : Int64}, s.calls[j]? = some (.returned n' d') → j ≠ k := by
    rintro j n' d' hj rfl
    exact hp n' d' (Option.some.inj (hk.symm.trans hj))
  have hold : ∀ {j : Nat} {n' d' : Int64}, s.calls[j]? = some (.returned n' d') →
      (s.calls.set k (.returned n d))[j]? = some (.returned n' d') := fun hj => Threads.set_of_ne hj (hne hj) _
  constructor
  · intro h
    refine ⟨fun i j n₁ d₁ n₂ d₂ hi hj => h i j n₁ d₁ n₂ d₂ (hold hi) (hold hj), ?_⟩
    intro j n' d' hj heq
    exact hne hj (h j k n' d' n d (hold hj) hnew heq.symm)
  · rintro ⟨h, hdiff⟩ i j n₁ d₁ n₂ d₂ hi hj heq
    rcases Threads.set_cases hi with ⟨rfl, hin⟩ | ⟨-, hiold⟩
    · rcases Threads.set_cases hj with ⟨rfl, -⟩ | ⟨-, hjold⟩
      · rfl
      · cases hin
        exact absurd heq (hdiff j n₂ d₂ hjold)
    · rcases Threads.set_cases hj with ⟨rfl, hjn⟩ | ⟨-, hjold⟩
      · cases hjn
        exact absurd heq.symm (hdiff i n₁ d₁ hiold)
      · exact h i j n₁ d₁ n₂ d₂ hiold hjold heq

/-- A step keeps the ids unique exactly if it is no read, or a read that is apart. -/
theorem step_unique (hs : s.step a = some s') : s'.Unique ↔ s.Unique ∧ ∀ k, a = .read k → s.Apart k := by
  have hquiet : ∀ {k : Nat} {p q : Stage}, s.calls[k]? = some p → (∀ n d, p ≠ .returned n d) → (∀ n d, q ≠ .returned n d) →
      ∀ id, (State.mk id (s.calls.set k q)).Unique ↔ s.Unique := by
    intro k p q hk hp hq id
    simp only [Unique, returned_set_iff hk hp hq]
  cases a with
  | clock k nano =>
    simp only [step] at hs
    split_ifs at hs with hk
    cases hs
    rw [hquiet hk (by simp) (by simp)]
    simp
  | increment k =>
    cases hk : s.calls[k]? with
    | none => simp [step, hk] at hs
    | some p =>
      cases p with
      | clocked nano =>
        simp only [step, hk] at hs
        cases hs
        rw [hquiet hk (by simp) (by simp)]
        simp
      | start | counted | returned => simp [step, hk] at hs
  | read k =>
    cases hk : s.calls[k]? with
    | none => simp [step, hk] at hs
    | some p =>
      cases p with
      | counted nano =>
        simp only [step, hk] at hs
        cases hs
        rw [unique_set_iff hk (by simp), ← apart_iff hk]
        simp
      | start | clocked | returned => simp [step, hk] at hs

/-! ## Runs -/

theorem run_concat (s : State) (acts : List Act) (a : Act) : s.run (acts ++ [a]) = (s.run acts).bind fun s' => s'.step a := by
  simp [run, List.foldlM_append]

/-- For any number of calls, any clock readings and any schedule: no two of the calls return the same string, if and only if
every read of the counter is apart from the ones before it. -/
theorem unique_iff {calls : Nat} {acts : List Act} (h : (start calls).run acts = some s) : s.Unique ↔ ReadsApart calls acts := by
  induction acts using List.reverseRecOn generalizing s with
  | nil =>
    cases h
    refine iff_of_true ?_ ?_
    · intro i j n d n' d' hi
      obtain ⟨_, he⟩ := List.getElem?_eq_some_iff.mp hi
      simp [start] at he
    · intro done k s hpre
      simp at hpre
  | append_singleton acts a ih =>
    rw [run_concat] at h
    obtain ⟨s₁, h₁, hstep⟩ := Option.bind_eq_some_iff.mp h
    rw [step_unique hstep, ih h₁]
    constructor
    · rintro ⟨hbefore, hlast⟩ done k s₂ hpre h₂
      rcases List.prefix_concat_iff.mp hpre with he | hpre
      · obtain ⟨rfl, ha⟩ := List.append_inj' he rfl
        obtain rfl := Option.some.inj (h₁.symm.trans h₂)
        exact hlast k (List.cons.inj ha).1.symm
      · exact hbefore done k s₂ hpre h₂
    · intro hall
      refine ⟨fun done k s₂ hpre h₂ => hall done k s₂ (hpre.trans (List.prefix_append _ _)) h₂, ?_⟩
      rintro k rfl
      exact hall acts k s₁ (List.prefix_refl _) h₁

/-- Two calls that read the same time, one after the other. -/
theorem unique_iff_two : (State.mk 2 [.returned 5 1, .returned 5 2]).Unique ↔
    ReadsApart 2 [.clock 0 5, .increment 0, .read 0, .clock 1 5, .increment 1, .read 1] :=
  unique_iff rfl

/-- Two calls that read the same time and both increment the counter before either of them reads it. -/
theorem not_unique : ∃ s, (start 2).run [.clock 0 5, .clock 1 5, .increment 0, .increment 1, .read 0, .read 1] = some s ∧
    ¬s.Unique := by
  refine ⟨⟨2, [.returned 5 2, .returned 5 2]⟩, rfl, fun h => ?_⟩
  exact absurd (h 0 1 5 2 5 2 rfl rfl rfl) (by decide)

end State

end Netcore.Uuid
