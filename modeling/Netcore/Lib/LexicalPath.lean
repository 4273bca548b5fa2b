import Mathlib.Algebra.BigOperators.Group.List.Basic
import Mathlib.Algebra.Ring.Int.Defs
import Mathlib.Data.List.Induction

/-!
# Lexical resolution of paths

A path, cut at its separators, is a list of moves: one stays where it is, goes up, or goes into a name. `resolve` follows
the moves of a relative path without a look at any file system, and says how far the path climbs above the start and which
names it then goes down. `resolve_inside_iff` says when the path ends up inside a given entry of the start: at some point it
goes into that entry from the start itself, and it does not come out again.
-/

namespace LexicalPath

variable {α : Type*}

/-- A component of a path. -/
inductive Move (α : Type*) where
  | here
  | up
  | into (name : α)
  deriving DecidableEq

/-- Where a path leads: above the start, and from there down the names, the last one first. -/
structure Place (α : Type*) where
  ups : Nat := 0
  names : List α := []

/-- One component. -/
def Place.move (p : Place α) : Move α → Place α
  | .here => p
  | .into name => { p with names := name :: p.names }
  | .up =>
    match p.names with
    | [] => { p with ups := p.ups + 1 }
    | _ :: names => { p with names := names }

/-- Where a relative path leads. -/
def resolve (ms : List (Move α)) : Place α := ms.foldl Place.move {}

/-- The path leads to the entry `name` of the start, or to something below it. -/
def Inside (name : α) (p : Place α) : Prop := p.ups = 0 ∧ p.names.getLast? = some name

/-- What a component adds to the depth. -/
def Move.depth : Move α → Int
  | here => 0
  | up => -1
  | into _ => 1

/-- The depth of a path below the start. -/
def height (ms : List (Move α)) : Int := (ms.map Move.depth).sum

/-- The path never climbs above the start. -/
def Stays (ms : List (Move α)) : Prop := ∀ p, p <+: ms → 0 ≤ height p

@[simp] theorem height_nil : height ([] : List (Move α)) = 0 := rfl

/-- The heights of two paths add up. -/
theorem height_append (ms ns : List (Move α)) : height (ms ++ ns) = height ms + height ns := by
  rw [height, height, height, List.map_append, List.sum_append]

/-- A last component goes up or down by one, or stays. -/
theorem height_concat (ms : List (Move α)) (m : Move α) : height (ms ++ [m]) = height ms + m.depth := by
  rw [height_append]
  simp [height]

/-- A last component is applied to what the path before it comes to. -/
theorem resolve_concat (ms : List (Move α)) (m : Move α) : resolve (ms ++ [m]) = (resolve ms).move m := by
  simp [resolve, List.foldl_append]

theorem stays_nil : Stays ([] : List (Move α)) := by
  intro p hp
  rw [List.prefix_nil.mp hp]
  simp

/-- A path stays if it does without its last component, and does not end above. -/
theorem stays_concat {ms : List (Move α)} {m : Move α} : Stays (ms ++ [m]) ↔ Stays ms ∧ 0 ≤ height (ms ++ [m]) := by
  constructor
  · intro h
    exact ⟨fun p hp => h p (hp.trans (List.prefix_append _ _)), h _ (List.prefix_refl _)⟩
  · rintro ⟨h, hm⟩ p hp
    rcases List.prefix_concat_iff.mp hp with rfl | hp
    · exact hm
    · exact h p hp

/-- The depth is that of the names, less what the path has climbed. -/
theorem height_eq (ms : List (Move α)) : height ms = (resolve ms).names.length - (resolve ms).ups := by
  induction ms using List.reverseRecOn with
  | nil => rfl
  | append_singleton ms m ih =>
    rw [height_concat, ih, resolve_concat]
    cases m with
    | here => simp [Place.move, Move.depth]
    | into name =>
      simp only [Place.move, Move.depth, List.length_cons]
      omega
    | up =>
      simp only [Place.move, Move.depth]
      cases (resolve ms).names with
      | nil =>
        simp only [List.length_nil]
        omega
      | cons a names =>
        simp only [List.length_cons]
        omega

/-- A path that never climbs above the start is one that goes down names only. -/
theorem stays_iff (ms : List (Move α)) : Stays ms ↔ (resolve ms).ups = 0 := by
  induction ms using List.reverseRecOn with
  | nil => exact iff_of_true stays_nil rfl
  | append_singleton ms m ih =>
    have hh := height_eq (ms ++ [m])
    rw [stays_concat, ih, hh, resolve_concat]
    cases m with
    | here | into name =>
      simp only [Place.move]
      constructor
      · exact fun h => h.1
      · intro h
        exact ⟨h, by omega⟩
    | up =>
      simp only [Place.move]
      cases (resolve ms).names with
      | nil =>
        simp only [List.length_nil]
        constructor
        · rintro ⟨h0, hle⟩
          omega
        · intro h
          omega
      | cons a names =>
        simp only
        constructor
        · exact fun h => h.1
        · intro h
          exact ⟨h, by omega⟩

/-- After a path that ends at the start, and the step into an entry, a path that does not climb stays inside the entry. -/
theorem inside_of_stays {name : α} {pre post : List (Move α)} (hpre : Stays pre) (h0 : height pre = 0) (hpost : Stays post) :
    Inside name (resolve (pre ++ .into name :: post)) ∧
      ((resolve (pre ++ .into name :: post)).names.length : Int) = 1 + height post := by
  have hups := (stays_iff pre).mp hpre
  have hnil : (resolve pre).names = [] := by
    have := height_eq pre
    rw [hups, h0] at this
    exact List.eq_nil_of_length_eq_zero (by omega)
  induction post using List.reverseRecOn with
  | nil =>
    rw [resolve_concat]
    simp [Place.move, Inside, hups, hnil]
  | append_singleton post m ih =>
    obtain ⟨hpost, hle⟩ := stays_concat.mp hpost
    obtain ⟨⟨hu, hl⟩, hlen⟩ := ih hpost
    rw [height_concat] at hle ⊢
    rw [show pre ++ .into name :: (post ++ [m]) = (pre ++ .into name :: post) ++ [m] by simp, resolve_concat]
    generalize resolve (pre ++ .into name :: post) = p at hu hl hlen ⊢
    cases m with
    | here => exact ⟨⟨hu, hl⟩, by simpa [Place.move, Move.depth] using hlen⟩
    | into a =>
      refine ⟨⟨hu, ?_⟩, ?_⟩
      · simp [Place.move, List.getLast?_cons, hl]
      · simp only [Place.move, Move.depth, List.length_cons]
        omega
    | up =>
      -- the post part does not climb, so there is a name above the entry to give up
      simp only [Move.depth] at hle ⊢
      rcases hn : p.names with _ | ⟨a, _ | ⟨b, names⟩⟩
      · rw [hn] at hl
        cases hl
      · rw [hn] at hlen
        simp only [List.length_singleton] at hlen
        omega
      · rw [hn] at hl hlen
        refine ⟨⟨?_, ?_⟩, ?_⟩
        · simp only [Place.move, hn]
          exact hu
        · simp only [Place.move, hn]
          rwa [List.getLast?_cons_cons] at hl
        · simp only [Place.move, hn]
          simp only [List.length_cons] at hlen ⊢
          omega

/-- A path leads inside an entry of the start exactly when it goes into that entry from the start, having never climbed above
the start, and never comes out of the entry afterwards. -/
theorem resolve_inside_iff (name : α) (ms : List (Move α)) : Inside name (resolve ms) ↔
    ∃ pre post, ms = pre ++ .into name :: post ∧ height pre = 0 ∧ Stays pre ∧ Stays post := by
  constructor
  · induction ms using List.reverseRecOn with
    | nil => rintro ⟨-, h⟩; cases h
    | append_singleton ms m ih =>
      rw [resolve_concat]
      rintro ⟨hu, hl⟩
      have hgrow : Inside name (resolve ms) → 0 ≤ height (ms ++ [m]) - 1 → ∃ pre post,
          ms ++ [m] = pre ++ .into name :: post ∧ height pre = 0 ∧ Stays pre ∧ Stays post := by
        intro hin hle
        obtain ⟨pre, post, rfl, h0, hpre, hpost⟩ := ih hin
        refine ⟨pre, post ++ [m], by simp, h0, hpre, stays_concat.mpr ⟨hpost, ?_⟩⟩
        have hsum : height ((pre ++ .into name :: post) ++ [m]) = 1 + height (post ++ [m]) := by
          rw [show (pre ++ .into name :: post) ++ [m] = (pre ++ [.into name]) ++ (post ++ [m]) by simp, height_append, height_concat,
            h0]
          rfl
        omega
      have hh := height_eq (ms ++ [m])
      rw [resolve_concat] at hh
      have hpos := List.length_pos_iff.mpr (show ((resolve ms).move m).names ≠ [] by intro hnil; rw [hnil] at hl; cases hl)
      cases m with
      | here => exact hgrow ⟨hu, hl⟩ (by rw [hh, hu]; omega)
      | into a =>
        cases hn : (resolve ms).names with
        | nil =>
          simp only [Place.move, hn, List.getLast?_singleton, Option.some.injEq] at hl
          have hups : (resolve ms).ups = 0 := hu
          refine ⟨ms, [], by rw [hl], ?_, (stays_iff ms).mpr hups, stays_nil⟩
          rw [height_eq, hn, hups]
          rfl
        | cons b names =>
          refine hgrow ⟨hu, ?_⟩ (by rw [hh, hu]; omega)
          rw [hn]
          simpa [Place.move, hn, List.getLast?_cons_cons] using hl
      | up =>
        cases hn : (resolve ms).names with
        | nil =>
          simp only [Place.move, hn] at hu
          cases hu
        | cons b names =>
          have hmove : (resolve ms).move .up = { resolve ms with names := names } := by
            simp only [Place.move, hn]
          refine hgrow ⟨?_, ?_⟩ (by rw [hh, hu]; omega)
          · rwa [hmove] at hu
          · rw [hmove] at hl
            rw [hn, List.getLast?_cons, hl]
            rfl
  · rintro ⟨pre, post, rfl, h0, hpre, hpost⟩
    exact (inside_of_stays hpre h0 hpost).1

end LexicalPath
