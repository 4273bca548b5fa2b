import Mathlib.Logic.Function.Basic
import Netcore.Basic

/-!
# `http_cache`

The cache of `http_cache.hpp` keeps contents in one map and the times at which they expire in another. `add` overwrites the time of
a key but not its content, `del` and a `get` that comes too late take away the content but not the time. A map is the partial function
that it stands for, so that `emplace` writes where there is nothing yet. `cur_it_` is never looked at but for its distance from the
end; what matters of it is that `del` can leave it pointing at an element that is gone, and that `add` then goes on from there.

`Contents` is what the cache is for. `latest_iff` says which runs are answered by it.
-/

namespace Netcore

/-- `cur_it_`: at the end of `cache_`, at an element, or at one that has been erased. -/
inductive CurIt where
  | atEnd
  | atKey (key : Bytes)
  | dangling
  deriving DecidableEq, Repr

/-- The members of `http_cache` that its operations on contents read. -/
structure HttpCache where
  cache : Bytes → Option (List Bytes) := fun _ => none
  cacheTime : Bytes → Option Int := fun _ => none
  maxCacheAge : Int := 0
  curIt : CurIt := .atEnd

/-- The operations. What follows an element in `cache_` is up to the hash table; a `get` that erases says which key it is. -/
inductive HttpCacheOp where
  | add (key : Bytes) (content : List Bytes)
  | get (key : Bytes) (next : Option Bytes)
  | del (key : Bytes)
  | setCacheMaxAge (seconds : Int)
  deriving DecidableEq, Repr

/-- The numbers that a `time_t` can hold. -/
def IsTimeT (t : Int) : Prop := -9223372036854775808 ≤ t ∧ t < 9223372036854775808

instance (t : Int) : Decidable (IsTimeT t) := inferInstanceAs (Decidable (_ ∧ _))

namespace HttpCache

/-- `cache_.emplace(key, content)`. -/
def emplace (s : HttpCache) (key : Bytes) (content : List Bytes) : Bytes → Option (List Bytes) :=
  if (s.cache key).isSome then s.cache else Function.update s.cache key (some content)

/-- `add`. It is undefined with an iterator to an erased element, and with a sum that is no `time_t`. (Where `cur_it_` goes back to
the beginning it is set again at once.) -/
def add (s : HttpCache) (now : Int) (key : Bytes) (content : List Bytes) : Option HttpCache :=
  if s.curIt = .dangling ∨ ¬IsTimeT (now + s.maxCacheAge) then none
  else some { s with
    cache := s.emplace key content
    curIt := .atKey key
    cacheTime := Function.update s.cacheTime key (some (now + s.maxCacheAge)) }

/-- The element that `erase` returns, when there is still one with this key. -/
def successor (cache : Bytes → Option (List Bytes)) (next : Option Bytes) : CurIt :=
  match next with
  | some key => if (cache key).isSome then .atKey key else .atEnd
  | none => .atEnd

/-- The time of the key has been set and is not over. -/
def inTime (s : HttpCache) (now : Int) (key : Bytes) : Bool := (s.cacheTime key).any fun time => decide (now ≤ time)

/-- `get`. -/
def get (s : HttpCache) (now : Int) (key : Bytes) (next : Option Bytes) : HttpCache × List Bytes :=
  if s.inTime now key then (s, (s.cache key).getD [])
  else if (s.cacheTime key).isSome ∧ (s.cache key).isSome then
    let cache := Function.update s.cache key none
    ({ s with cache := cache, curIt := successor cache next }, [])
  else (s, [])

/-- `del`. -/
def del (s : HttpCache) (key : Bytes) : HttpCache :=
  if (s.cache key).isSome then
    { s with
      cache := Function.update s.cache key none
      curIt := if s.curIt = .atKey key then .dangling else s.curIt }
  else s

/-- `set_cache_max_age`. -/
def setCacheMaxAge (s : HttpCache) (seconds : Int) : HttpCache := { s with maxCacheAge := seconds }

/-- An operation at the time `now`, with what `get` returns. -/
def step (s : HttpCache) (now : Int) : HttpCacheOp → Option (HttpCache × Option (List Bytes))
  | .add key content => (s.add now key content).map fun s' => (s', none)
  | .get key next => some ((s.get now key next).1, some (s.get now key next).2)
  | .del key => some (s.del key, none)
  | .setCacheMaxAge seconds => some (s.setCacheMaxAge seconds, none)

end HttpCache

/-! ## What the cache is for -/

/-- The last content that was added for each key and not deleted, with the time at which it expires. -/
structure Contents where
  last : Bytes → Option (List Bytes × Int) := fun _ => none
  maxAge : Int := 0

namespace Contents

/-- What an operation changes. -/
def step (e : Contents) (now : Int) : HttpCacheOp → Contents
  | .add key content => { e with last := Function.update e.last key (some (content, now + e.maxAge)) }
  | .get _ _ => e
  | .del key => { e with last := Function.update e.last key none }
  | .setCacheMaxAge seconds => { e with maxAge := seconds }

/-- The content of a key at a time: nothing once it has expired. -/
def content (e : Contents) (key : Bytes) (t : Int) : List Bytes :=
  match e.last key with
  | some (content, expires) => if t ≤ expires then content else []
  | none => []

end Contents

namespace HttpCache

/-- The operations of a run are defined, and every `get` among them returns the latest content. -/
def Answered : HttpCache → Contents → List (Int × HttpCacheOp) → Prop
  | _, _, [] => True
  | s, e, (now, op) :: run =>
    ∃ s' out, s.step now op = some (s', out) ∧ (∀ key next, op = .get key next → out = some (e.content key now)) ∧
      Answered s' (e.step now op) run

/-- The clock of a run does not go back. -/
def Clocked (now : Int) : List (Int × HttpCacheOp) → Prop
  | [] => True
  | (t, _) :: run => now ≤ t ∧ Clocked t run

/-- At every point of a run a `get`, then or later, returns the latest content. -/
def Latest (now : Int) (s : HttpCache) (e : Contents) (run : List (Int × HttpCacheOp)) : Prop :=
  ∀ pre post t key next, run = pre ++ post → Clocked now (pre ++ [(t, .get key next)]) → Answered s e (pre ++ [(t, .get key next)])

/-- What an operation needs: an `add` must find `cur_it_` at an element or at the end, its time must be a `time_t`, and `cache_` must
have no other content for the key, unless what is added has expired already. -/
def Fits (s : HttpCache) (now : Int) : HttpCacheOp → Prop
  | .add key content =>
    s.curIt ≠ .dangling ∧ IsTimeT (now + s.maxCacheAge) ∧
      (s.cache key = none ∨ s.cache key = some content ∨ s.maxCacheAge < 0)
  | _ => True

/-- Every operation of a run finds what it needs. -/
def AllFit : HttpCache → List (Int × HttpCacheOp) → Prop
  | _, [] => True
  | s, (now, op) :: run => s.Fits now op ∧ ∀ s' out, s.step now op = some (s', out) → AllFit s' run

/-! ## One operation -/

/-- The maps hold the latest contents: what was added last has its time and, until it expires, its content in them; what was not
added, or was deleted, has no content. -/
structure Holds (now : Int) (s : HttpCache) (e : Contents) : Prop where
  age : s.maxCacheAge = e.maxAge
  added : ∀ key content expires, e.last key = some (content, expires) →
    s.cacheTime key = some expires ∧ (now ≤ expires → s.cache key = some content)
  absent : ∀ key, e.last key = none → s.cache key = none

/-- An empty cache holds no contents. -/
theorem holds_empty (now : Int) : Holds now {} {} := ⟨rfl, fun _ _ _ h => absurd h (by simp), fun _ _ => rfl⟩

/-- What holds now holds later, when more has expired. -/
theorem Holds.mono {now now' : Int} {s : HttpCache} {e : Contents} (h : Holds now s e) (hle : now ≤ now') : Holds now' s e := by
  refine ⟨h.age, fun key content expires hlast => ?_, h.absent⟩
  obtain ⟨htime, hcache⟩ := h.added key content expires hlast
  exact ⟨htime, fun hx => hcache (hle.trans hx)⟩

/-- A content that is in time is answered, and an empty one otherwise. -/
theorem get_snd (s : HttpCache) (t : Int) (key : Bytes) (next : Option Bytes) :
    (s.get t key next).2 = if s.inTime t key then (s.cache key).getD [] else [] := by
  unfold get
  split_ifs <;> rfl

/-- A key with a time is in time until then. -/
theorem inTime_eq {s : HttpCache} {key : Bytes} {time : Int} (h : s.cacheTime key = some time) (t : Int) :
    s.inTime t key = decide (t ≤ time) := by
  rw [inTime, h, Option.any_some]

/-- A `get` returns the latest content. -/
theorem Holds.get {now t : Int} {s : HttpCache} {e : Contents} (h : Holds now s e) (ht : now ≤ t) (key : Bytes)
    (next : Option Bytes) : (s.get t key next).2 = e.content key t := by
  rw [get_snd]
  unfold Contents.content
  cases hlast : e.last key with
  | none =>
    rw [h.absent key hlast]
    split_ifs <;> rfl
  | some v =>
    obtain ⟨htime, hcache⟩ := h.added key v.1 v.2 hlast
    rw [inTime_eq htime]
    simp only [decide_eq_true_eq]
    split_ifs with hx
    · rw [hcache (ht.trans hx)]
      rfl
    · rfl

/-- What changes for one key only is looked at for this key. -/
theorem Holds.update {now : Int} {s s' : HttpCache} {e e' : Contents} (h : Holds now s e) (key : Bytes)
    (hage : s'.maxCacheAge = e'.maxAge)
    (hother : ∀ k, k ≠ key → s'.cache k = s.cache k ∧ s'.cacheTime k = s.cacheTime k ∧ e'.last k = e.last k)
    (hadded : ∀ content expires, e'.last key = some (content, expires) →
      s'.cacheTime key = some expires ∧ (now ≤ expires → s'.cache key = some content))
    (habsent : e'.last key = none → s'.cache key = none) : Holds now s' e' := by
  refine ⟨hage, fun k content expires hlast => ?_, fun k hlast => ?_⟩
  · by_cases hk : k = key
    · subst hk
      exact hadded content expires hlast
    · obtain ⟨hcache, htime, hl⟩ := hother k hk
      rw [hcache, htime]
      exact h.added k content expires (hl ▸ hlast)
  · by_cases hk : k = key
    · subst hk
      exact habsent hlast
    · obtain ⟨hcache, -, hl⟩ := hother k hk
      rw [hcache]
      exact h.absent k (hl ▸ hlast)

/-- Another key keeps its content. -/
theorem emplace_of_ne (s : HttpCache) {key k : Bytes} (content : List Bytes) (hk : k ≠ key) :
    s.emplace key content k = s.cache k := by
  unfold emplace
  split_ifs
  · rfl
  · rw [Function.update_of_ne hk]

/-- The content that `emplace` leaves for its key, when it is not an old one. -/
theorem emplace_self {s : HttpCache} {key : Bytes} {content : List Bytes}
    (h : s.cache key = none ∨ s.cache key = some content) : s.emplace key content key = some content := by
  unfold emplace
  rcases h with hnone | hsome
  · rw [hnone]
    simp
  · rw [hsome]
    simp [hsome]

/-- An `add` that fits makes its content the latest one. -/
theorem add_holds {now : Int} {s : HttpCache} {e : Contents} (h : Holds now s e) {key : Bytes} {content : List Bytes}
    (hcontent : s.cache key = none ∨ s.cache key = some content ∨ s.maxCacheAge < 0) :
    Holds now { s with
      cache := s.emplace key content
      curIt := .atKey key
      cacheTime := Function.update s.cacheTime key (some (now + s.maxCacheAge)) } (e.step now (.add key content)) := by
  refine h.update key h.age (fun k hk => ?_) (fun c x hlast => ?_) fun hlast => ?_
  · exact ⟨emplace_of_ne s content hk, Function.update_of_ne hk _ _, Function.update_of_ne hk _ _⟩
  · simp only [Contents.step, Function.update_self, Option.some.injEq, Prod.mk.injEq] at hlast ⊢
    obtain ⟨rfl, rfl⟩ := hlast
    refine ⟨by rw [h.age], fun hx => emplace_self ?_⟩
    -- a negative age would have made the content expire before now
    have hage : ¬s.maxCacheAge < 0 := by
      rw [h.age]
      omega
    rcases hcontent with hnone | hsome | hneg
    · exact .inl hnone
    · exact .inr hsome
    · exact absurd hneg hage
  · simp [Contents.step] at hlast

/-- A `get` leaves the contents as they are. -/
theorem get_holds {now : Int} {s : HttpCache} {e : Contents} (h : Holds now s e) (key : Bytes) (next : Option Bytes) :
    Holds now (s.get now key next).1 e := by
  unfold get
  split_ifs with htime herase
  · exact h
  · refine h.update key h.age (fun k hk => ⟨Function.update_of_ne hk _ _, rfl, rfl⟩) (fun c x hlast => ?_) fun _ =>
      Function.update_self _ _ _
    -- what is taken away has expired
    have hx := (h.added key c x hlast).1
    refine ⟨hx, fun hle => ?_⟩
    rw [inTime_eq hx] at htime
    exact absurd (decide_eq_true hle) htime
  · exact h

/-- `del` takes the content out. -/
theorem del_cache (s : HttpCache) (key : Bytes) : (s.del key).cache = Function.update s.cache key none := by
  unfold del
  by_cases hsome : (s.cache key).isSome
  · rw [if_pos hsome]
  · rw [if_neg hsome, ← Option.not_isSome_iff_eq_none.mp hsome, Function.update_eq_self]

/-- `del` leaves the time of the key. -/
theorem del_rest (s : HttpCache) (key : Bytes) :
    (s.del key).maxCacheAge = s.maxCacheAge ∧ (s.del key).cacheTime = s.cacheTime := by
  unfold del
  by_cases hsome : (s.cache key).isSome
  · rw [if_pos hsome]
    exact ⟨rfl, rfl⟩
  · rw [if_neg hsome]
    exact ⟨rfl, rfl⟩

/-- A `del` makes the key one without content. -/
theorem del_holds {now : Int} {s : HttpCache} {e : Contents} (h : Holds now s e) (key : Bytes) :
    Holds now (s.del key) (e.step now (.del key)) := by
  obtain ⟨hage, htime⟩ := del_rest s key
  refine h.update key (hage.trans h.age) (fun k hk => ?_) (fun c x hlast => ?_) fun _ => ?_
  · rw [del_cache, htime]
    exact ⟨Function.update_of_ne hk _ _, rfl, Function.update_of_ne hk _ _⟩
  · simp [Contents.step] at hlast
  · rw [del_cache]
    exact Function.update_self _ _ _

/-- An operation that finds what it needs is defined, is answered with the latest content, and leaves the latest contents. -/
theorem step_of_fits {now : Int} {s : HttpCache} {e : Contents} (h : Holds now s e) {op : HttpCacheOp} (hfits : s.Fits now op) :
    ∃ s' out, s.step now op = some (s', out) ∧ (∀ key next, op = .get key next → out = some (e.content key now)) ∧
      Holds now s' (e.step now op) := by
  cases op with
  | add key content =>
    obtain ⟨hcur, htime, hcontent⟩ := hfits
    refine ⟨_, none, ?_, fun _ _ hop => absurd hop (by simp), add_holds h hcontent⟩
    have hdefined : ¬(s.curIt = .dangling ∨ ¬IsTimeT (now + s.maxCacheAge)) := not_or.mpr ⟨hcur, not_not.mpr htime⟩
    rw [step, add, if_neg hdefined, Option.map_some]
  | get key next =>
    refine ⟨_, _, rfl, fun key' next' hop => ?_, get_holds h key next⟩
    obtain ⟨rfl, rfl⟩ := HttpCacheOp.get.inj hop
    rw [h.get (Int.le_refl now)]
  | del key => exact ⟨_, none, rfl, fun _ _ hop => absurd hop (by simp), del_holds h key⟩
  | setCacheMaxAge seconds => exact ⟨_, none, rfl, fun _ _ hop => absurd hop (by simp), rfl, h.added, h.absent⟩

/-- An operation that is defined, and after which a `get` at once returns the latest content, found what it needs. -/
theorem fits_of_get {now : Int} {s s' : HttpCache} {e : Contents} (h : Holds now s e) {op : HttpCacheOp} {out : Option (List Bytes)}
    (hstep : s.step now op = some (s', out)) (hget : ∀ key, (s'.get now key none).2 = (e.step now op).content key now) :
    s.Fits now op := by
  cases op with
  | add key content =>
    have hdefined : ¬(s.curIt = .dangling ∨ ¬IsTimeT (now + s.maxCacheAge)) := by
      intro hundefined
      rw [step, add, if_pos hundefined] at hstep
      cases hstep
    rw [step, add, if_neg hdefined] at hstep
    obtain ⟨hcur, htime⟩ := not_or.mp hdefined
    refine ⟨hcur, not_not.mp htime, ?_⟩
    cases hcache : s.cache key with
    | none => exact .inl rfl
    | some old =>
      -- the old content stays, and a `get` at once shows it
      right
      by_cases hneg : s.maxCacheAge < 0
      · exact .inr hneg
      · left
        have hkey := hget key
        cases hstep
        rw [get_snd, inTime_eq (Function.update_self _ _ _)] at hkey
        have hage : now ≤ now + e.maxAge := by
          rw [← h.age]
          omega
        have hold : s.emplace key content key = some old := by
          rw [emplace, hcache]
          simp [hcache]
        simp only [Contents.step, Contents.content, Function.update_self, h.age, hage, decide_true, if_true, hold,
          Option.getD_some] at hkey
        rw [hkey]
  | get key next => trivial
  | del key => trivial
  | setCacheMaxAge seconds => trivial

/-! ## Runs -/

/-- A `get` is answered with the latest content. -/
theorem answered_get {now t : Int} {s : HttpCache} {e : Contents} (h : Holds now s e) (ht : now ≤ t) (key : Bytes)
    (next : Option Bytes) : Answered s e [(t, .get key next)] := by
  have hfits : s.Fits t (.get key next) := trivial
  obtain ⟨s', out, hstep, hout, -⟩ := step_of_fits (h.mono ht) hfits
  exact ⟨s', out, hstep, hout, trivial⟩

/-- By induction over the run: every `get` has the latest content exactly when every operation fits. -/
theorem latest_iff_of_holds (run : List (Int × HttpCacheOp)) : ∀ {now : Int} {s : HttpCache} {e : Contents}, Holds now s e →
    Clocked now run → (Latest now s e run ↔ AllFit s run) := by
  induction run with
  | nil =>
    intro now s e h _
    refine ⟨fun _ => trivial, fun _ pre post t key next hrun hclock => ?_⟩
    obtain ⟨rfl, rfl⟩ := List.append_eq_nil_iff.mp hrun.symm
    exact answered_get h hclock.1 key next
  | cons x run ih =>
    obtain ⟨t, op⟩ := x
    intro now s e h hclock
    have hnow := h.mono hclock.1
    constructor
    · intro hlatest
      have hget : ∀ key, Answered s e [(t, op), (t, .get key none)] := fun key =>
        hlatest [(t, op)] run t key none rfl ⟨hclock.1, Int.le_refl t, trivial⟩
      obtain ⟨s', out, hstep, -⟩ := hget []
      have hfits : s.Fits t op := by
        refine fits_of_get hnow hstep fun key => ?_
        obtain ⟨s₁, out₁, hstep₁, -, s₂, out₂, hstep₂, hout₂, -⟩ := hget key
        obtain ⟨rfl, rfl⟩ := Prod.mk.inj (Option.some.inj (hstep₁.symm.trans hstep))
        obtain ⟨-, rfl⟩ := Prod.mk.inj (Option.some.inj hstep₂)
        exact Option.some.inj (hout₂ key none rfl)
      obtain ⟨s₁, out₁, hstep₁, -, hholds⟩ := step_of_fits hnow hfits
      obtain ⟨rfl, rfl⟩ := Prod.mk.inj (Option.some.inj (hstep₁.symm.trans hstep))
      refine ⟨hfits, fun s₂ out₂ hstep₂ => ?_⟩
      obtain ⟨rfl, rfl⟩ := Prod.mk.inj (Option.some.inj (hstep₁.symm.trans hstep₂))
      refine (ih hholds hclock.2).mp fun pre post t' key next hrun hclock' => ?_
      obtain ⟨s₃, out₃, hstep₃, -, hrest⟩ := hlatest ((t, op) :: pre) post t' key next (by rw [hrun]; rfl) ⟨hclock.1, hclock'⟩
      obtain ⟨rfl, rfl⟩ := Prod.mk.inj (Option.some.inj (hstep₁.symm.trans hstep₃))
      exact hrest
    · rintro ⟨hfits, hrest⟩ pre post t' key next hrun hclock'
      obtain ⟨s', out, hstep, hout, hholds⟩ := step_of_fits hnow hfits
      cases pre with
      | nil => exact answered_get h hclock'.1 key next
      | cons y pre =>
        obtain ⟨rfl, rfl⟩ := List.cons.inj hrun
        exact ⟨s', out, hstep, hout, (ih hholds hclock.2).mpr (hrest s' out hstep) pre post t' key next rfl hclock'.2⟩

/-- **The cache returns the latest content** at every point of a run whose clock does not go back, exactly when every `add` of the run
finds what it needs. -/
theorem latest_iff {now : Int} {run : List (Int × HttpCacheOp)} (hclock : Clocked now run) :
    Latest now {} {} run ↔ AllFit {} run :=
  latest_iff_of_holds run (holds_empty now) hclock

/-- A content that is added, expires, is asked for and so removed, and added again. -/
theorem latest_iff_renewed :
    Latest 0 {} {} [(0, .add (bytes "k") [bytes "a"]), (1, .get (bytes "k") none), (2, .add (bytes "k") [bytes "b"]),
        (2, .get (bytes "k") none)] ↔
      AllFit {} [(0, .add (bytes "k") [bytes "a"]), (1, .get (bytes "k") none), (2, .add (bytes "k") [bytes "b"]),
        (2, .get (bytes "k") none)] :=
  latest_iff ⟨by decide, by decide, by decide, by decide, trivial⟩

/-- A content that is added while the cache has another one for its key is not returned. -/
theorem not_latest : ¬∀ (now : Int) (run : List (Int × HttpCacheOp)), Clocked now run → Answered {} {} run := by
  intro h
  have hrun := h 0 [(0, .setCacheMaxAge 10), (0, .add (bytes "k") [bytes "a"]), (1, .add (bytes "k") [bytes "b"]),
    (2, .get (bytes "k") none)] ⟨by decide, by decide, by decide, by decide, trivial⟩
  obtain ⟨s₁, out₁, h₁, -, s₂, out₂, h₂, -, s₃, out₃, h₃, -, s₄, out, h₄, hout, -⟩ := hrun
  obtain ⟨rfl, -⟩ := Prod.mk.inj (Option.some.inj h₁)
  obtain ⟨rfl, -⟩ := Prod.mk.inj (Option.some.inj h₂)
  obtain ⟨rfl, -⟩ := Prod.mk.inj (Option.some.inj h₃)
  obtain ⟨-, rfl⟩ := Prod.mk.inj (Option.some.inj h₄)
  exact absurd (hout (bytes "k") none rfl) (by decide)

end HttpCache

end Netcore
