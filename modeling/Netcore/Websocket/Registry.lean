import Mathlib.Data.Finset.Erase
import Mathlib.Data.Finset.Insert
import Mathlib.Data.List.AList
import Netcore.Basic

/-!
# `WS_manager`: the registered connections

`regist` and `unregist` of `websocket_manager.h`, each of which holds the mutex for its whole length. The manager keeps the
map from ids to descriptors and, beside it, the set of the descriptors. `regist` looks at both and changes both; `unregist`
takes the id from the one and the descriptor from the other without a look at whether they belong together.
`consistentRun_iff` says that this is the only way in which the two come apart.
-/

namespace Netcore

/-- `u_map` and `fd_set`. -/
structure WsRegistry where
  uMap : AList (fun _ : Bytes => Int32) := ∅
  fdSet : Finset Int32 := ∅

/-- A call of `regist` or `unregist`. -/
inductive RegistryCall where
  | regist (id : Bytes) (fd : Int32)
  | unregist (id : Bytes) (fd : Int32)
  deriving DecidableEq, Repr

namespace WsRegistry

/-- `regist`. -/
def regist (s : WsRegistry) (id : Bytes) (fd : Int32) : WsRegistry × Bool :=
  if (s.uMap.lookup id).isSome then (s, false)
  else if fd ∈ s.fdSet then (s, false)
  else ({ uMap := s.uMap.insert id fd, fdSet := insert fd s.fdSet }, true)

/-- `unregist`. -/
def unregist (s : WsRegistry) (id : Bytes) (fd : Int32) : WsRegistry :=
  { uMap := s.uMap.erase id, fdSet := s.fdSet.erase fd }

/-- `get_fd`. -/
def getFd (s : WsRegistry) (key : Bytes) : Int32 := (s.uMap.lookup key).getD (-1)

/-- One call. -/
def call (s : WsRegistry) : RegistryCall → WsRegistry
  | .regist id fd => (s.regist id fd).1
  | .unregist id fd => s.unregist id fd

/-- The registry after a sequence of calls. -/
def calls (s : WsRegistry) (cs : List RegistryCall) : WsRegistry := cs.foldl call s

variable {s : WsRegistry} {id : Bytes} {fd : Int32}

/-! ## One call -/

/-- The set is that of the descriptors in the map, and no two ids have the same one. -/
structure Consistent (s : WsRegistry) : Prop where
  image : ∀ fd, fd ∈ s.fdSet ↔ ∃ id, s.uMap.lookup id = some fd
  injective : ∀ id id' fd, s.uMap.lookup id = some fd → s.uMap.lookup id' = some fd → id = id'

theorem consistent_empty : Consistent {} where
  image := by simp
  injective := by simp

/-- In a consistent registry `get_fd` tells the ids apart that it knows. -/
theorem Consistent.getFd_inj {id' : Bytes} (h : s.Consistent) (hfd : s.getFd id ≠ -1) (heq : s.getFd id = s.getFd id') :
    id = id' := by
  unfold getFd at hfd heq
  cases hid : s.uMap.lookup id with
  | none =>
    rw [hid] at hfd
    exact absurd rfl hfd
  | some fd =>
    cases hid' : s.uMap.lookup id' with
    | none =>
      rw [hid, hid'] at heq
      rw [hid] at hfd
      exact absurd heq hfd
    | some fd' =>
      rw [hid, hid'] at heq
      obtain rfl : fd = fd' := heq
      exact h.injective id id' fd hid hid'

/-- A call of `regist` either adds a pair of which both sides are new, or is refused and changes nothing. -/
theorem regist_cases (s : WsRegistry) (id : Bytes) (fd : Int32) : s.regist id fd = (s, false) ∨
    s.uMap.lookup id = none ∧ fd ∉ s.fdSet ∧ s.regist id fd = (⟨s.uMap.insert id fd, insert fd s.fdSet⟩, true) := by
  unfold regist
  split_ifs with h1 h2
  · exact .inl rfl
  · exact .inl rfl
  · exact .inr ⟨Option.not_isSome_iff_eq_none.mp h1, h2, rfl⟩

theorem regist_refused (h : (s.regist id fd).2 = false) : (s.regist id fd).1 = s := by
  rcases regist_cases s id fd with he | ⟨-, -, he⟩
  · rw [he]
  · rw [he] at h
    cases h

theorem Consistent.regist (h : s.Consistent) (id : Bytes) (fd : Int32) : (s.regist id fd).1.Consistent := by
  rcases regist_cases s id fd with he | ⟨hid, hfd, he⟩
  · rw [he]
    exact h
  · rw [he]
    have hlook : ∀ id' fd', (s.uMap.insert id fd).lookup id' = some fd' ↔
        id' = id ∧ fd' = fd ∨ id' ≠ id ∧ s.uMap.lookup id' = some fd' := by
      intro id' fd'
      by_cases hi : id' = id
      · subst hi
        simp [eq_comm]
      · simp [hi]
    have hnew : ∀ id', s.uMap.lookup id' ≠ some fd := fun id' hl => hfd ((h.image fd).mpr ⟨id', hl⟩)
    constructor
    · intro fd'
      simp only [Finset.mem_insert, h.image, hlook]
      constructor
      · rintro (rfl | ⟨id', hl⟩)
        · exact ⟨id, .inl ⟨rfl, rfl⟩⟩
        · refine ⟨id', .inr ⟨?_, hl⟩⟩
          rintro rfl
          rw [hid] at hl
          cases hl
      · rintro ⟨id', ⟨-, rfl⟩ | ⟨-, hl⟩⟩
        · exact .inl rfl
        · exact .inr ⟨id', hl⟩
    · intro id₁ id₂ fd' h1 h2
      rcases (hlook _ _).mp h1 with ⟨rfl, rfl⟩ | ⟨-, hl1⟩
      · rcases (hlook _ _).mp h2 with ⟨rfl, -⟩ | ⟨-, hl2⟩
        · rfl
        · exact absurd hl2 (hnew _)
      · rcases (hlook _ _).mp h2 with ⟨rfl, rfl⟩ | ⟨-, hl2⟩
        · exact absurd hl1 (hnew _)
        · exact h.injective _ _ _ hl1 hl2

/-- The pair belongs together: it is registered, or neither side of it is. -/
def Matches (s : WsRegistry) (id : Bytes) (fd : Int32) : Prop :=
  s.uMap.lookup id = some fd ∨ s.uMap.lookup id = none ∧ fd ∉ s.fdSet

theorem lookup_unregist (s : WsRegistry) (id : Bytes) (fd : Int32) (id' : Bytes) (fd' : Int32) :
    (s.unregist id fd).uMap.lookup id' = some fd' ↔ id' ≠ id ∧ s.uMap.lookup id' = some fd' := by
  by_cases hi : id' = id
  · subst hi
    simp [unregist]
  · simp [unregist, hi]

theorem Consistent.unregist (h : s.Consistent) (hm : s.Matches id fd) : (s.unregist id fd).Consistent := by
  constructor
  · intro fd'
    show fd' ∈ s.fdSet.erase fd ↔ _
    simp only [Finset.mem_erase, h.image, lookup_unregist]
    rcases hm with hm | ⟨hid, hfd⟩
    · constructor
      · rintro ⟨hne, id', hl⟩
        refine ⟨id', ?_, hl⟩
        rintro rfl
        exact hne (Option.some.inj (hl.symm.trans hm))
      · rintro ⟨id', hi, hl⟩
        refine ⟨?_, id', hl⟩
        rintro rfl
        exact hi (h.injective _ _ _ hl hm)
    · constructor
      · rintro ⟨-, id', hl⟩
        refine ⟨id', ?_, hl⟩
        rintro rfl
        rw [hid] at hl
        cases hl
      · rintro ⟨id', -, hl⟩
        refine ⟨?_, id', hl⟩
        rintro rfl
        exact hfd ((h.image _).mpr ⟨id', hl⟩)
  · intro id₁ id₂ fd' h1 h2
    exact h.injective _ _ _ ((lookup_unregist s id fd _ _).mp h1).2 ((lookup_unregist s id fd _ _).mp h2).2

/-- A pair that does not belong together takes a descriptor out of the set that is still registered, or leaves one in it that is
not any more. -/
theorem Consistent.matches_of_unregist (h : s.Consistent) (h' : (s.unregist id fd).Consistent) : s.Matches id fd := by
  by_cases hid : s.uMap.lookup id = none
  · refine .inr ⟨hid, fun hmem => ?_⟩
    -- the descriptor of another id would have left the set
    obtain ⟨id', hl⟩ := (h.image fd).mp hmem
    have hne : id' ≠ id := by
      rintro rfl
      rw [hid] at hl
      cases hl
    have hback := (h'.image fd).mpr ⟨id', (lookup_unregist s id fd id' fd).mpr ⟨hne, hl⟩⟩
    exact absurd rfl (Finset.mem_erase.mp hback).1
  · obtain ⟨fd', hl⟩ := Option.ne_none_iff_exists'.mp hid
    rw [Matches, hl]
    by_contra hne
    have hfd : fd' ≠ fd := fun he => hne (.inl (by rw [he]))
    -- the descriptor of the id would have stayed in the set
    have hstay : fd' ∈ (s.unregist id fd).fdSet := Finset.mem_erase.mpr ⟨hfd, (h.image fd').mpr ⟨id, hl⟩⟩
    obtain ⟨id', hl'⟩ := (h'.image fd').mp hstay
    obtain ⟨hi, hl'⟩ := (lookup_unregist s id fd id' fd').mp hl'
    exact hi (h.injective id' id fd' hl' hl)

/-- `unregist` keeps a registry consistent for exactly the pairs that belong together. -/
theorem Consistent.unregist_iff (h : s.Consistent) : (s.unregist id fd).Consistent ↔ s.Matches id fd :=
  ⟨h.matches_of_unregist, h.unregist⟩

/-! ## Runs -/

theorem calls_concat (s : WsRegistry) (cs : List RegistryCall) (c : RegistryCall) : s.calls (cs ++ [c]) = (s.calls cs).call c := by
  rw [calls, List.foldl_append]
  rfl

/-- After every call the registry is consistent, and a call of `regist` that is refused has changed nothing. -/
def ConsistentRun (cs : List RegistryCall) : Prop :=
  ∀ done, done <+: cs → (calls {} done).Consistent ∧
    ∀ id fd, done ++ [.regist id fd] <+: cs → ((calls {} done).regist id fd).2 = false →
      (calls {} (done ++ [.regist id fd])) = calls {} done

/-- Every `unregist` of the run gets a pair that belongs together when it is called. -/
def MatchedRun (cs : List RegistryCall) : Prop :=
  ∀ done id fd, done ++ [.unregist id fd] <+: cs → (calls {} done).Matches id fd

/-- A sequence of calls keeps the registry consistent exactly if every `unregist` of it is called with an id and a descriptor
that are registered together, or that are both not registered. -/
theorem consistentRun_iff (cs : List RegistryCall) : ConsistentRun cs ↔ MatchedRun cs := by
  constructor
  · intro h done id fd hpre
    have hbefore := (h done ((List.prefix_append _ _).trans hpre)).1
    have hafter := (h _ hpre).1
    rw [calls_concat] at hafter
    exact hbefore.unregist_iff.mp hafter
  · intro h done hpre
    constructor
    · induction done using List.reverseRecOn with
      | nil => exact consistent_empty
      | append_singleton done c ih =>
        have hbefore := ih ((List.prefix_append _ _).trans hpre)
        rw [calls_concat]
        cases c with
        | regist id fd => exact hbefore.regist id fd
        | unregist id fd => exact hbefore.unregist_iff.mpr (h done id fd hpre)
    · intro id fd _ hrefused
      rw [calls_concat]
      exact regist_refused hrefused

/-- A descriptor that is taken out under another id: the set loses it, and it can be registered again. -/
theorem not_consistentRun :
    ¬ConsistentRun [.regist (bytes "a") 5, .unregist (bytes "b") 5, .regist (bytes "c") 5] := by
  intro h
  have hinj := (h _ (List.prefix_refl _)).1.injective (bytes "a") (bytes "c") 5 (by decide) (by decide)
  exact absurd hinj (by decide)

end WsRegistry

end Netcore
