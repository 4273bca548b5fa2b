import Netcore.Multipart.Chunking
import Netcore.Multipart.PartData
import Netcore.Multipart.RoundTrip

/-!
# False leads

A content may have the delimiter in it, when what follows there makes no delimiter line of it. The parser sets a flag for the
byte after a delimiter, a CR or a hyphen, before it knows the byte after that, and it never takes the flag back when the lead
turns out to be false. The flag for the hyphen does no harm. The flag for the CR is looked at first: once it is left over from a
false lead, a delimiter with a hyphen and a LF after it is taken for a line that separates two parts, and the delimiter that
closes the form is not recognised. `feedAll_leads_iff` says that this is all that goes wrong.
-/

namespace Netcore
namespace Multipart

open Delimiter

/-- Wherever the delimiter occurs in a content, before the line end of the next delimiter, neither a line end nor two hyphens
follow. -/
def FalseLeads (b content : Bytes) : Prop :=
  ∀ x y, content ++ CRLF = x ++ delimiter b ++ y → ¬ CRLF <+: y ∧ ¬ [HYPHEN, HYPHEN] <+: y

/-- A false lead with a CR after it: it leaves the flag `PART_BOUNDARY` behind. -/
def CrLead (b content : Bytes) : Prop := delimiter b ++ [CR] <:+: content

/-- A false lead with a hyphen and a LF after it, when the flag is set before the content (`stale`) or in it. -/
def Trapped (b : Bytes) (stale : Bool) (content : Bytes) : Prop :=
  ∃ x z, content = x ++ delimiter b ++ ([HYPHEN, LF] ++ z) ∧ (stale = true ∨ CrLead b x)

/-- The contents whose false leads leave no trace: no lead with hyphen and LF comes after one with CR, and the last content
has no lead with CR. -/
def Traceless (b : Bytes) (ps : List Part) : Prop :=
  (∀ p ∈ ps, ¬ Trapped b false p.content) ∧ ∀ p ∈ ps.getLast?, ¬ CrLead b p.content

/-- A content with only false leads, by the positions of the delimiter. -/
theorem falseLeads_iff (b content : Bytes) : FalseLeads b content ↔ ∀ k < (content ++ CRLF).length,
    delimiter b <+: (content ++ CRLF).drop k → ¬ delimiter b ++ CRLF <+: (content ++ CRLF).drop k ∧
      ¬ delimiter b ++ [HYPHEN, HYPHEN] <+: (content ++ CRLF).drop k := by
  constructor
  · rintro h k - ⟨y, hy⟩
    rw [← hy, List.prefix_append_right_inj, List.prefix_append_right_inj]
    refine h ((content ++ CRLF).take k) y ?_
    rw [List.append_assoc, hy, List.take_append_drop]
  · intro h x y hxy
    have hdrop : (content ++ CRLF).drop x.length = delimiter b ++ y := by
      rw [hxy, List.append_assoc, List.drop_left]
    have hlt : x.length < (content ++ CRLF).length := by
      have hpos := List.length_pos_iff.mpr (delimiter_ne_nil b)
      rw [hxy, List.length_append, List.length_append]
      omega
    have hnot := h x.length hlt (by rw [hdrop]; exact List.prefix_append _ _)
    rwa [hdrop, List.prefix_append_right_inj, List.prefix_append_right_inj] at hnot

/-- A content is trapped by a delimiter before `-LF`, once `PART_BOUNDARY` is set. -/
theorem trapped_iff_exists (b : Bytes) (stale : Bool) (content : Bytes) : Trapped b stale content ↔
    ∃ k < content.length, delimiter b ++ [HYPHEN, LF] <+: content.drop k ∧ (stale = true ∨ CrLead b (content.take k)) := by
  constructor
  · rintro ⟨x, z, rfl, hset⟩
    refine ⟨x.length, ?_, ⟨z, ?_⟩, ?_⟩
    · have hpos := List.length_pos_iff.mpr (delimiter_ne_nil b)
      rw [List.length_append, List.length_append]
      omega
    · simp
    · rwa [List.append_assoc, List.take_left]
  · rintro ⟨k, -, ⟨z, hz⟩, hset⟩
    refine ⟨content.take k, z, ?_, hset⟩
    conv_lhs => rw [← List.take_append_drop k content, ← hz]
    simp

instance (b content : Bytes) : Decidable (FalseLeads b content) := decidable_of_iff _ (falseLeads_iff b content).symm

instance (b content : Bytes) : Decidable (CrLead b content) := inferInstanceAs (Decidable (_ <:+: _))

instance (b : Bytes) (stale : Bool) (content : Bytes) : Decidable (Trapped b stale content) :=
  decidable_of_iff _ (trapped_iff_exists b stale content).symm

instance (b : Bytes) (ps : List Part) : Decidable (Traceless b ps) := inferInstanceAs (Decidable (_ ∧ _))

/-- A part that can be carried under the boundary token `b` when false leads may occur in its content. -/
structure LeadsOk (b : Bytes) (p : Part) : Prop where
  headers_ok : ∀ h ∈ p.headers, HeaderOk h
  leads : FalseLeads b p.content

/-- No calls can make a delivery of `d` whose parts are `T`: an ended part differs, or the part under way does. -/
def Delivery.Lost (T : List Part) (d : Delivery) : Prop :=
  ¬ d.parts <+: T ∨ ∃ p, d.current = some p ∧ ∀ x, ¬ d.parts ++ [{ p with content := p.content ++ x }] <+: T

/-- The last part has to be without trap and without trace. -/
theorem traceless_singleton {b : Bytes} {p : Part} :
    Traceless b [p] ↔ ¬ Trapped b false p.content ∧ ¬ CrLead b p.content := by
  simp [Traceless]

/-- A part before others has to be without trap. -/
theorem traceless_cons {b : Bytes} {p p' : Part} {ps : List Part} :
    Traceless b (p :: p' :: ps) ↔ ¬ Trapped b false p.content ∧ Traceless b (p' :: ps) := by
  unfold Traceless
  rw [List.forall_mem_cons, List.getLast?_cons_cons, and_assoc]

/-! ## Leads -/

/-- What the parser holds of the bytes after a delimiter. -/
inductive Lead where
  | other
  | cr
  | hyphen
  deriving DecidableEq, Repr

namespace Lead

def bytes : Lead → Bytes
  | other => []
  | cr => [CR]
  | hyphen => [HYPHEN]

/-- The byte `c` shows that the lead is false. -/
def Next : Lead → UInt8 → Prop
  | other, c => c ≠ CR ∧ c ≠ HYPHEN
  | cr, c => c ≠ LF
  | hyphen, c => c ≠ HYPHEN

/-- The flags after the lead. -/
def flags (f : Flags) : Lead → Flags
  | other => f
  | cr => { f with partBoundary := true }
  | hyphen => { f with lastBoundary := true }

/-- A false lead leaves `PART_BOUNDARY` set if it is one before CR. -/
theorem flags_partBoundary (f : Flags) (k : Lead) : (k.flags f).partBoundary = (f.partBoundary || decide (k = .cr)) := by
  cases k <;> simp [flags]

end Lead

/-- The first lead of a content, and what follows it. -/
structure LeadAt (b content x : Bytes) (k : Lead) (y : Bytes) : Prop where
  eq : content = x ++ delimiter b ++ (k.bytes ++ y)
  first : ¬ delimiter b <:+: x
  next : ∀ c ∈ (y ++ [CR]).head?, k.Next c

/-- The end of such a content is one. -/
theorem FalseLeads.of_append {b x y : Bytes} (h : FalseLeads b (x ++ y)) : FalseLeads b y := by
  intro u z hz
  exact h (x ++ u) z (by rw [List.append_assoc, hz]; simp)

/-- A content with a delimiter has a first lead. -/
theorem FalseLeads.leadAt {b content : Bytes} (h : FalseLeads b content) (hin : delimiter b <:+: content) :
    ∃ x k y, LeadAt b content x k y := by
  obtain ⟨x, w, rfl, hfirst⟩ := exists_first hin
  obtain ⟨hcrlf, hhyphens⟩ := h x (w ++ CRLF) (by rw [List.append_assoc]; rfl)
  cases w with
  | nil => exact absurd (List.prefix_refl _) hcrlf
  | cons c w =>
    by_cases hcr : c = CR
    · subst hcr
      refine ⟨x, .cr, w, rfl, hfirst, ?_⟩
      rintro d hd rfl
      cases w with
      | nil => exact absurd hd (by decide)
      | cons e w =>
        obtain rfl : e = LF := by simpa using hd
        exact hcrlf ⟨w ++ CRLF, rfl⟩
    · by_cases hhy : c = HYPHEN
      · subst hhy
        refine ⟨x, .hyphen, w, rfl, hfirst, ?_⟩
        rintro d hd rfl
        cases w with
        | nil => exact absurd hd (by decide)
        | cons e w =>
          obtain rfl : e = HYPHEN := by simpa using hd
          exact hhyphens ⟨w ++ CRLF, rfl⟩
      · refine ⟨x, .other, c :: w, rfl, hfirst, ?_⟩
        intro d hd
        obtain rfl : c = d := by simpa using hd
        exact ⟨hcr, hhy⟩

namespace LeadAt

variable {b content x y u z : Bytes} {k : Lead}

/-- What follows the lead. -/
theorem rest (h : LeadAt b content x k y) (hf : FalseLeads b content) : FalseLeads b y ∧ y.length < content.length := by
  refine ⟨FalseLeads.of_append (x := x ++ delimiter b ++ k.bytes) ?_, ?_⟩
  · rw [List.append_assoc, ← h.eq]
    exact hf
  · have hpos := List.length_pos_iff.mpr (delimiter_ne_nil b)
    rw [h.eq, List.length_append, List.length_append, List.length_append]
    omega

/-- A delimiter in the content is that of the lead, or comes after it. -/
theorem occurrence (hb : CR ∉ b) (h : LeadAt b content x k y) (heq : content = u ++ delimiter b ++ z) :
    (u = x ∧ z = k.bytes ++ y) ∨ ∃ v, u = x ++ delimiter b ++ (k.bytes ++ v) ∧ y = v ++ delimiter b ++ z := by
  obtain ⟨hcontent, hfirst, hnext⟩ := h
  rcases occurrence_cases (cr_not_mem_tail hb) hfirst (hcontent.symm.trans heq) with h | ⟨v, rfl, hv⟩
  · exact .inl h
  · right
    cases k with
    | other => exact ⟨v, rfl, hv⟩
    | cr =>
      cases v with
      | nil =>
        obtain rfl : y = LF :: ([HYPHEN, HYPHEN] ++ b ++ z) := (List.cons.inj hv).2
        exact absurd rfl (hnext LF rfl)
      | cons c v =>
        obtain ⟨rfl, hrest⟩ := List.cons.inj hv
        exact ⟨v, rfl, hrest⟩
    | hyphen =>
      cases v with
      | nil => exact absurd (List.cons.inj hv).1 (by decide)
      | cons c v =>
        obtain ⟨rfl, hrest⟩ := List.cons.inj hv
        exact ⟨v, rfl, hrest⟩

/-- The lead is also that of a text that ends at a later delimiter. -/
theorem of_before {v : Bytes} (h : LeadAt b content x k y) (hy : y = v ++ delimiter b ++ z) :
    LeadAt b (x ++ delimiter b ++ (k.bytes ++ v)) x k v := by
  refine ⟨rfl, h.first, fun c hc => h.next c ?_⟩
  rw [hy]
  cases v with
  | nil => simpa [delimiter_eq] using hc
  | cons d v => simpa using hc

/-- A content leaves a trace at its first lead, or in what follows. -/
theorem crLead_iff (hb : CR ∉ b) (h : LeadAt b content x k y) : CrLead b content ↔ k = .cr ∨ CrLead b y := by
  constructor
  · rintro ⟨u, z, hz⟩
    have heq : content = u ++ delimiter b ++ (CR :: z) := by rw [← hz]; simp
    rcases h.occurrence hb heq with ⟨-, htail⟩ | ⟨v, -, rfl⟩
    · left
      cases k with
      | other =>
        obtain rfl : y = CR :: z := htail.symm
        exact absurd rfl (h.next CR rfl).1
      | cr => rfl
      | hyphen => exact absurd (List.cons.inj htail).1 (by decide)
    · exact .inr ⟨v, z, by simp⟩
  · rintro (rfl | ⟨u, z, rfl⟩)
    · exact ⟨x, y, by rw [h.eq]; simp [Lead.bytes]⟩
    · exact ⟨x ++ delimiter b ++ (k.bytes ++ u), z, by rw [h.eq]; simp⟩

/-- A content is trapped at its first lead, or in what follows. -/
theorem trapped_iff (hb : CR ∉ b) (stale : Bool) (h : LeadAt b content x k y) : Trapped b stale content ↔
    (stale = true ∧ k = .hyphen ∧ y.head? = some LF) ∨ Trapped b (stale || decide (k = .cr)) y := by
  constructor
  · rintro ⟨u, z, heq, hset⟩
    rcases h.occurrence hb heq with ⟨rfl, htail⟩ | ⟨v, rfl, hy⟩
    · left
      have hstale : stale = true := by
        rcases hset with hset | ⟨p, q, hpq⟩
        · exact hset
        · exact absurd ⟨p, CR :: q, by rw [← hpq]; simp⟩ h.first
      cases k with
      | other =>
        obtain rfl : y = HYPHEN :: LF :: z := htail.symm
        exact absurd rfl (h.next HYPHEN rfl).2
      | cr => exact absurd (List.cons.inj htail).1 (by decide)
      | hyphen =>
        obtain rfl : y = LF :: z := (List.cons.inj htail).2.symm
        exact ⟨hstale, rfl, rfl⟩
    · refine .inr ⟨v, z, hy, ?_⟩
      rw [Bool.or_eq_true, decide_eq_true_eq, or_assoc, ← (h.of_before hy).crLead_iff hb]
      exact hset
  · rintro (⟨hstale, rfl, hlf⟩ | ⟨v, z, hy, hset⟩)
    · cases y with
      | nil => cases hlf
      | cons c y =>
        obtain rfl : c = LF := by simpa using hlf
        exact ⟨x, y, h.eq, .inl hstale⟩
    · refine ⟨x ++ delimiter b ++ (k.bytes ++ v), z, by rw [h.eq, hy]; simp, ?_⟩
      rw [(h.of_before hy).crLead_iff hb, ← or_assoc, ← decide_eq_true_eq (p := k = .cr), ← Bool.or_eq_true]
      exact hset

end LeadAt

namespace Scanner

variable {b : Bytes} {s : Scanner}

/-! ## A content with leads -/

/-- After a lead, once the next byte has shown that it is false, the search begins again with that byte; the flag stays set. -/
theorem run_lead (hs : s.state = .partData) (hheld : s.held = delimiter b) (k : Lead) {c : UInt8} (hk : k.Next c)
    (hstale : k = .hyphen → s.flags.partBoundary = true → c ≠ LF) (cs : Bytes) :
    s.run (delimiter b) (k.bytes ++ c :: cs) = { s with
      flags := k.flags s.flags
      delivery := s.delivery.push (delimiter b ++ k.bytes)
      held := [] }.run (delimiter b) (c :: cs) := by
  have hrestart : ∀ s' : Scanner, s'.state = .partData → s'.step (delimiter b) c = some (s'.restart (delimiter b) c) →
      s'.run (delimiter b) (c :: cs) =
        { s' with delivery := s'.delivery.push s'.held, held := [] }.run (delimiter b) (c :: cs) := by
    intro s' hs' h
    rw [run_cons_of_step h, run_cons_of_step (step_restart (by simp [delimiter]) hs' c)]
  cases k with
  | other =>
    have h1 := hrestart s hs (by simp [step, hs, partData, hheld, hk.1, hk.2])
    rw [hheld] at h1
    simpa [Lead.bytes, Lead.flags] using h1
  | cr =>
    have h1 := step_cr hs hheld
    have hk' : c ≠ LF := hk
    have h2 := hrestart { s with flags := { s.flags with partBoundary := true }, held := delimiter b ++ [CR] } hs
      (by simp [step, hs, partData, hk'])
    exact (run_cons_of_step h1 (c :: cs)).trans h2
  | hyphen =>
    have h1 := step_hyphen hs hheld
    have hk' : c ≠ HYPHEN := hk
    have h2 := hrestart { s with flags := { s.flags with lastBoundary := true }, held := delimiter b ++ [HYPHEN] } hs (by
      cases hp : s.flags.partBoundary with
      | true => simp [step, hs, partData, hp, hstale rfl hp]
      | false => simp [step, hs, partData, hp, hk'])
    exact (run_cons_of_step h1 (c :: cs)).trans h2

/-- With the flag set, a delimiter with a hyphen and a LF after it ends the part. -/
theorem run_misread (hs : s.state = .partData) (hheld : s.held = delimiter b) (hstale : s.flags.partBoundary = true) :
    s.run (delimiter b) [HYPHEN, LF] = some { s with
      flags := { partBoundary := false, lastBoundary := true }
      state := .headerFieldStart
      held := []
      delivery := s.delivery.closePart } := by
  have h1 := step_hyphen hs hheld
  have h2 : { s with flags := { s.flags with lastBoundary := true }, held := delimiter b ++ [HYPHEN] }.step (delimiter b) LF =
      some { s with
        flags := { partBoundary := false, lastBoundary := true }
        state := .headerFieldStart
        held := []
        delivery := s.delivery.closePart } := by
    simp [step, hs, partData, hstale]
  rw [run_cons_of_step h1, run_cons_of_step h2, run_nil]

/-- With the flag set, the closing delimiter is content. -/
theorem run_closing_missed (hs : s.state = .partData) (hheld : s.held = delimiter b) (hstale : s.flags.partBoundary = true) :
    s.run (delimiter b) [HYPHEN, HYPHEN] = some { s with
      flags := { s.flags with lastBoundary := true }
      delivery := s.delivery.push (delimiter b ++ [HYPHEN, HYPHEN])
      held := [] } := by
  have h1 := step_hyphen hs hheld
  have h2 : { s with flags := { s.flags with lastBoundary := true }, held := delimiter b ++ [HYPHEN] }.step (delimiter b) HYPHEN =
      some { s with
        flags := { s.flags with lastBoundary := true }
        delivery := s.delivery.push (delimiter b ++ [HYPHEN, HYPHEN])
        held := [] } := by
    simp [step, hs, partData, hstale, restart, delimiter_eq]
  rw [run_cons_of_step h1, run_cons_of_step h2, run_nil]

/-- The text up to the end of a first lead. -/
theorem run_first_lead (hb : CR ∉ b) {x : Bytes} (hx : ¬ delimiter b <:+: x) (hs : s.state = .partData) (hheld : s.held = [])
    (k : Lead) {c : UInt8} (hk : k.Next c) (hstale : k = .hyphen → s.flags.partBoundary = true → c ≠ LF) (cs : Bytes) :
    s.run (delimiter b) (x ++ delimiter b ++ (k.bytes ++ c :: cs)) = { s with
      flags := k.flags s.flags
      delivery := s.delivery.push (x ++ delimiter b ++ k.bytes)
      held := [] }.run (delimiter b) (c :: cs) := by
  have hsearch := run_search (cr_not_mem_tail hb) x hx hs hheld
  rw [← delimiter_eq] at hsearch
  have hlead := run_lead (s := { s with delivery := s.delivery.push x, held := delimiter b }) hs rfl k hk hstale cs
  rw [run_append_of_run hsearch, hlead]
  simp only [Delivery.push_push, List.append_assoc]

/-- A content without a trap, and the delimiter after it: the content is delivered whole. The flag is set when it was, or when
the content has a lead with CR. -/
theorem run_leads (hb : CR ∉ b) (n : Nat) : ∀ {content : Bytes} {s : Scanner}, content.length ≤ n → FalseLeads b content →
    s.state = .partData → s.held = [] → ¬ Trapped b s.flags.partBoundary content →
    ∃ f : Flags, (f.partBoundary = true ↔ s.flags.partBoundary = true ∨ CrLead b content) ∧
      s.run (delimiter b) (content ++ delimiter b) =
        some { s with flags := f, delivery := s.delivery.push content, held := delimiter b } := by
  have hplain : ∀ {content : Bytes} {s : Scanner}, ¬ delimiter b <:+: content → s.state = .partData → s.held = [] →
      ∃ f : Flags, (f.partBoundary = true ↔ s.flags.partBoundary = true ∨ CrLead b content) ∧
        s.run (delimiter b) (content ++ delimiter b) =
          some { s with flags := f, delivery := s.delivery.push content, held := delimiter b } := by
    intro content s hfree hs hheld
    have hno : ¬ CrLead b content := fun h => hfree ((List.prefix_append _ _).isInfix.trans h)
    exact ⟨s.flags, by simp [hno], run_search (cr_not_mem_tail hb) content hfree hs hheld⟩
  induction n with
  | zero =>
    intro content s hlen _ hs hheld _
    obtain rfl : content = [] := List.length_eq_zero_iff.mp (Nat.le_zero.mp hlen)
    exact hplain (by simp [delimiter_eq]) hs hheld
  | succ n ih =>
    intro content s hlen h hs hheld htrap
    by_cases hin : delimiter b <:+: content
    · obtain ⟨x, k, y, hat⟩ := h.leadAt hin
      rw [hat.trapped_iff hb, not_or] at htrap
      obtain ⟨c, rest, hrest, hc, hlf⟩ : ∃ c rest, y ++ delimiter b = c :: rest ∧ c ∈ (y ++ [CR]).head? ∧
          (c = LF → y.head? = some LF) := by
        cases y with
        | nil => exact ⟨CR, [LF, HYPHEN, HYPHEN] ++ b, rfl, rfl, fun h => absurd h (by decide)⟩
        | cons c y => exact ⟨c, y ++ delimiter b, rfl, rfl, fun h => congrArg some h⟩
      have hfirst := run_first_lead hb hat.first hs hheld k (hat.next c hc)
        (fun hk hp hcl => htrap.1 ⟨hp, hk, hlf hcl⟩) rest
      obtain ⟨hy, hlt⟩ := hat.rest h
      have hflag := k.flags_partBoundary s.flags
      obtain ⟨f, hf, hrun⟩ := ih (s := { s with
        flags := k.flags s.flags
        delivery := s.delivery.push (x ++ delimiter b ++ k.bytes)
        held := [] }) (by omega) hy hs rfl (by rw [hflag]; exact htrap.2)
      refine ⟨f, ?_, ?_⟩
      · rw [hf, hat.crLead_iff hb, hflag, Bool.or_eq_true, decide_eq_true_eq, or_assoc]
      · rw [hat.eq, show x ++ delimiter b ++ (k.bytes ++ y) ++ delimiter b =
          x ++ delimiter b ++ (k.bytes ++ (y ++ delimiter b)) by simp, hrest, hfirst, ← hrest, hrun]
        simp only [Delivery.push_push, List.append_assoc]
    · exact hplain hin hs hheld

/-- A content with a trap: the part ends in it. -/
theorem run_trap (hb : CR ∉ b) (n : Nat) : ∀ {content : Bytes} {s : Scanner}, content.length ≤ n → FalseLeads b content →
    s.state = .partData → s.held = [] → Trapped b s.flags.partBoundary content →
    ∃ (w z : Bytes) (f : Flags), content = w ++ delimiter b ++ ([HYPHEN, LF] ++ z) ∧
      s.run (delimiter b) (w ++ delimiter b ++ [HYPHEN, LF]) = some { s with
        flags := f
        state := .headerFieldStart
        held := []
        delivery := (s.delivery.push w).closePart } := by
  induction n with
  | zero =>
    rintro content s hlen - - - ⟨x, z, rfl, -⟩
    simp [delimiter_eq] at hlen
  | succ n ih =>
    intro content s hlen h hs hheld htrap
    have hin : delimiter b <:+: content := by
      obtain ⟨x, z, rfl, -⟩ := htrap
      exact ⟨x, [HYPHEN, LF] ++ z, rfl⟩
    obtain ⟨x, k, y, hat⟩ := h.leadAt hin
    rw [hat.trapped_iff hb] at htrap
    by_cases hnow : s.flags.partBoundary = true ∧ k = .hyphen ∧ y.head? = some LF
    · -- the first lead is the trap
      obtain ⟨hstale, rfl, hlf⟩ := hnow
      cases y with
      | nil => cases hlf
      | cons c y =>
        obtain rfl : c = LF := by simpa using hlf
        have hsearch := run_search (cr_not_mem_tail hb) x hat.first hs hheld
        refine ⟨x, y, { partBoundary := false, lastBoundary := true }, hat.eq, ?_⟩
        rw [delimiter_eq, run_append_of_run hsearch, ← delimiter_eq]
        exact run_misread hs rfl hstale
    · obtain ⟨hy, hlt⟩ := hat.rest h
      have hflag := k.flags_partBoundary s.flags
      obtain ⟨w, z, f, rfl, hrun⟩ := ih (s := { s with
        flags := k.flags s.flags
        delivery := s.delivery.push (x ++ delimiter b ++ k.bytes)
        held := [] }) (by omega) hy hs rfl (by rw [hflag]; exact htrap.resolve_left hnow)
      obtain ⟨c, rest, hrest, hc⟩ : ∃ c rest, w ++ delimiter b ++ [HYPHEN, LF] = c :: rest ∧
          (w ++ delimiter b ++ ([HYPHEN, LF] ++ z)).head? = some c := by
        cases w with
        | nil => exact ⟨CR, _, rfl, rfl⟩
        | cons c w => exact ⟨c, _, rfl, rfl⟩
      have hfirst := run_first_lead hb hat.first hs hheld k (hat.next c (by rw [List.head?_append, hc]; rfl))
        (fun hk hp hcl => hnow ⟨hp, hk, hc.trans (congrArg some hcl)⟩) rest
      refine ⟨x ++ delimiter b ++ (k.bytes ++ w), z, f, by rw [hat.eq]; simp, ?_⟩
      rw [show x ++ delimiter b ++ (k.bytes ++ w) ++ delimiter b ++ [HYPHEN, LF] =
        x ++ delimiter b ++ (k.bytes ++ (w ++ delimiter b ++ [HYPHEN, LF])) by simp, hrest, hfirst, ← hrest, hrun]
      simp only [Delivery.push_push, List.append_assoc]

/-! ## The parts of a body -/

/-- The scanner before the header lines of a part, with the parts `qs` delivered. A lead with a hyphen may have set the flag
for it. -/
def betweenLeads (last : Bool) (n : Nat) (qs : List Part) : Scanner :=
  { state := .headerFieldStart, flags := { lastBoundary := last }, index := n, delivery := { parts := qs } }

/-- The scanner at the beginning of the content of the part `p`. -/
def inContent (last : Bool) (qs : List Part) (p : Part) : Scanner :=
  { state := .partData
    flags := { lastBoundary := last }
    delivery := { parts := qs, current := some ⟨OrderedMap.multimapOf p.headers, []⟩ } }

/-- The scanner after the delimiter that follows the part `p`. -/
def afterLeads (b : Bytes) (f : Flags) (qs : List Part) (p : Part) : Scanner := { atDelimiter b qs p with flags := f }

/-- The headers of a part lead the scanner to its content. -/
theorem run_toContent {p : Part} (hok : ∀ h ∈ p.headers, HeaderOk h) (last : Bool) (n : Nat) (qs : List Part) {rest : Bytes}
    (hrest : rest ≠ []) : (betweenLeads last n qs).run (delimiter b) (p.headers.flatMap headerLine ++ CRLF ++ rest) =
      (inContent last qs p).run (delimiter b) rest := by
  have hheaders := run_partHeaders (delimiter b) (s := betweenLeads last n qs) hok rfl rfl rfl rfl
  rw [run_append_of_run hheaders, run_partDataStart rfl hrest]
  rfl

/-- A part without a trap, and the delimiter after it. -/
theorem run_part_leads (hb : CR ∉ b) {p : Part} (hok : LeadsOk b p) (htrap : ¬ Trapped b false p.content) (last : Bool) (n : Nat)
    (qs : List Part) : ∃ f : Flags, (f.partBoundary = true ↔ CrLead b p.content) ∧
      (betweenLeads last n qs).run (delimiter b) (serializePart p ++ delimiter b) = some (afterLeads b f qs p) := by
  obtain ⟨f, hf, hrun⟩ := run_leads hb p.content.length (s := inContent last qs p) (Nat.le_refl _) hok.leads rfl rfl htrap
  refine ⟨f, by simpa [inContent] using hf, ?_⟩
  rw [serializePart, List.append_assoc, run_toContent hok.headers_ok last n qs (by simp [delimiter_eq]), hrun]
  simp [inContent, afterLeads, atDelimiter, Delivery.push, Part.delivered]

/-- A part with a trap is lost. -/
theorem run_part_trap (hb : CR ∉ b) {p : Part} (hok : LeadsOk b p) (htrap : Trapped b false p.content) (last : Bool) (n : Nat)
    (qs rest : List Part) : ∃ u v sc, serializePart p = u ++ v ∧ (betweenLeads last n qs).run (delimiter b) u = some sc ∧
      sc.delivery.Lost (qs ++ p.delivered :: rest) := by
  obtain ⟨w, z, f, hw, hrun⟩ := run_trap hb p.content.length (s := inContent last qs p) (Nat.le_refl _) hok.leads rfl rfl htrap
  refine ⟨_, z, _, ?_, (run_toContent hok.headers_ok last n qs (by simp)).trans hrun, ?_⟩
  · rw [serializePart, hw]
    simp
  · refine .inl fun hpre => ?_
    have hparts : qs ++ [(⟨OrderedMap.multimapOf p.headers, w⟩ : Part)] <+: qs ++ p.delivered :: rest := by
      simpa [inContent, Delivery.push, Delivery.closePart] using hpre
    rw [List.prefix_append_right_inj, List.cons_prefix_cons] at hparts
    have hcontent : w = p.content := congrArg Part.content hparts.1
    have hlen := congrArg List.length hw
    rw [hcontent] at hlen
    simp [delimiter_eq] at hlen

/-- The parts of a body without traces, from the first header line to the closing delimiter. -/
theorem run_parts_leads (hb : CR ∉ b) (ps : List Part) : ∀ (last : Bool) (n : Nat) (qs : List Part), ps ≠ [] →
    (∀ p ∈ ps, LeadsOk b p) → Traceless b ps → ∃ f : Flags,
      (betweenLeads last n qs).run (delimiter b) (serializeParts b ps) = some
        { state := .ended, flags := f, delivery := { parts := qs ++ ps.map Part.delivered, finished := true } } := by
  induction ps with
  | nil => intro last n qs hne _ _; exact absurd rfl hne
  | cons p ps ih =>
    intro last n qs _ hok htrace
    obtain ⟨f, hf, hpart⟩ := run_part_leads hb (hok p (by simp)) (htrace.1 p (by simp)) last n qs
    cases ps with
    | nil =>
      have hpb : f.partBoundary = false := by
        rw [← Bool.not_eq_true, hf]
        exact htrace.2 p rfl
      have hclose : (afterLeads b f qs p).run (delimiter b) [HYPHEN, HYPHEN] = _ := run_closing rfl rfl hpb
      refine ⟨{ f with lastBoundary := true }, ?_⟩
      rw [serializeParts, run_append_of_run hpart]
      refine hclose.trans ?_
      simp [afterLeads, atDelimiter, Delivery.closePart, Delivery.finish]
    | cons p' ps =>
      obtain ⟨f', hrest⟩ := ih f.lastBoundary 0 (qs ++ [p.delivered]) (by simp)
        (fun q hq => hok q (List.mem_cons_of_mem p hq)) (traceless_cons.mp htrace).2
      have hsep : (afterLeads b f qs p).run (delimiter b) CRLF = _ := run_separator rfl rfl
      refine ⟨f', ?_⟩
      rw [serializeParts, List.append_assoc, run_append_of_run hpart, run_append_of_run hsep]
      · refine hrest.trans ?_
        simp
      · simp

/-- In a body with traces, the delivery is lost at some point. -/
theorem run_parts_lost (hb : CR ∉ b) (ps : List Part) : ∀ (last : Bool) (n : Nat) (qs : List Part), ps ≠ [] →
    (∀ p ∈ ps, LeadsOk b p) → ¬ Traceless b ps → ∃ u v sc, serializeParts b ps = u ++ v ∧
      (betweenLeads last n qs).run (delimiter b) u = some sc ∧ sc.delivery.Lost (qs ++ ps.map Part.delivered) := by
  induction ps with
  | nil => intro last n qs hne _ _; exact absurd rfl hne
  | cons p ps ih =>
    intro last n qs _ hok htrace
    by_cases htrap : Trapped b false p.content
    · obtain ⟨u, v, sc, hu, hrun, hlost⟩ := run_part_trap hb (hok p (by simp)) htrap last n qs (ps.map Part.delivered)
      have hpre : ∃ tl, serializeParts b (p :: ps) = serializePart p ++ tl := by
        cases ps with
        | nil => exact ⟨_, by rw [serializeParts, List.append_assoc]⟩
        | cons p' ps => exact ⟨_, by rw [serializeParts, List.append_assoc, List.append_assoc]; simp⟩
      obtain ⟨tl, htl⟩ := hpre
      exact ⟨u, v ++ tl, sc, by rw [htl, hu, List.append_assoc], hrun, hlost⟩
    · obtain ⟨f, hf, hpart⟩ := run_part_leads hb (hok p (by simp)) htrap last n qs
      cases ps with
      | nil =>
        have hlead : CrLead b p.content := by
          by_contra hno
          exact htrace (traceless_singleton.mpr ⟨htrap, hno⟩)
        have hmissed := run_closing_missed (s := afterLeads b f qs p) rfl rfl (hf.mpr hlead)
        refine ⟨_, [], _, ?_, (run_append_of_run hpart _).trans hmissed, ?_⟩
        · rw [serializeParts, List.append_nil]
        · refine .inr ⟨_, rfl, fun x hpre => ?_⟩
          have hparts := List.prefix_append_right_inj qs |>.mp hpre
          rw [List.map_cons, List.cons_prefix_cons] at hparts
          have hlen := congrArg (List.length ∘ Part.content) hparts.1
          simp [Part.delivered, delimiter_eq] at hlen
      | cons p' ps =>
        have htrace' : ¬ Traceless b (p' :: ps) := fun h => htrace (traceless_cons.mpr ⟨htrap, h⟩)
        obtain ⟨u, v, sc, hu, hrun, hlost⟩ := ih f.lastBoundary 0 (qs ++ [p.delivered]) (by simp)
          (fun q hq => hok q (List.mem_cons_of_mem p hq)) htrace'
        have hsep : (afterLeads b f qs p).run (delimiter b) CRLF = _ := run_separator rfl rfl
        refine ⟨serializePart p ++ delimiter b ++ CRLF ++ u, v, sc, ?_, ?_, by simpa using hlost⟩
        · rw [serializeParts, hu]
          · simp
          · simp
        · rw [List.append_assoc, run_append_of_run hpart, run_append_of_run hsep]
          exact hrun

end Scanner

/-! ## What is lost stays lost -/

/-- What is lost stays lost after a call. -/
theorem Delivery.Lost.step {T : List Part} {d d' : Delivery} {c : ReaderCall} (h : d.Lost T) (hs : d.step c = some d') :
    d'.Lost T := by
  rcases h with h | ⟨p, hp, hnot⟩
  · cases c with
    | onPartBegin hd =>
      simp only [Delivery.step] at hs
      split_ifs at hs
      cases hs
      exact .inl h
    | onPartData x =>
      obtain ⟨q, -, rfl⟩ := Option.map_eq_some_iff.mp hs
      exact .inl h
    | onPartEnd =>
      obtain ⟨q, -, rfl⟩ := Option.map_eq_some_iff.mp hs
      exact .inl fun hpre => h ((List.prefix_append _ _).trans hpre)
    | onEnd =>
      simp only [Delivery.step] at hs
      split_ifs at hs
      cases hs
      exact .inl h
  · cases c with
    | onPartBegin hd => simp [Delivery.step, hp] at hs
    | onPartData x =>
      obtain ⟨q, hq, rfl⟩ := Option.map_eq_some_iff.mp hs
      obtain rfl : p = q := Option.some.inj (hp.symm.trans hq)
      refine .inr ⟨_, rfl, fun y => ?_⟩
      rw [List.append_assoc]
      exact hnot (x ++ y)
    | onPartEnd =>
      obtain ⟨q, hq, rfl⟩ := Option.map_eq_some_iff.mp hs
      obtain rfl : p = q := Option.some.inj (hp.symm.trans hq)
      refine .inl ?_
      have hnil := hnot []
      rwa [List.append_nil] at hnil
    | onEnd => simp [Delivery.step, hp] at hs

/-- What is lost stays lost along a run. -/
theorem Delivery.Lost.run {T : List Part} (calls : List ReaderCall) : ∀ {d d' : Delivery}, d.Lost T → d.run calls = some d' →
    d'.Lost T := by
  induction calls with
  | nil =>
    intro d d' h hrun
    rw [run_nil, Option.some.injEq] at hrun
    exact hrun ▸ h
  | cons c cs ih =>
    intro d d' h hrun
    rw [run_cons] at hrun
    obtain ⟨d₁, hstep, hrest⟩ := Option.bind_eq_some_iff.mp hrun
    exact ih (h.step hstep) hrest

section Before

variable {pat u e : Bytes} {s sc sf : Scanner} {r r' : Reader} {d : Delivery} {calls : List ReaderCall} {ret : Nat}

/-- What the scanner delivers later comes after what it has delivered, in order. -/
theorem Scanner.run_delivery (hpat : pat ≠ []) (hu : ({} : Scanner).run pat u = some sc) (he : sc.run pat e = some sf) :
    ∃ calls, sc.delivery.run calls = some sf.delivery := by
  have hne : ∀ x : Bytes, ∀ b ∈ ([x].filter (· ≠ [])), b ≠ [] := fun x b hb => by simpa using (List.mem_filter.mp hb).2
  have hjoin : ∀ x : Bytes, ([x].filter (· ≠ [])).flatten = x := fun x => by
    rw [List.flatten_filter_ne_nil, List.flatten_singleton]
  obtain ⟨r₁, c₁, n₁, d₁, -, -, hm₁⟩ := feedAll_sim hpat ([u].filter (· ≠ [])) (hne u) (matches_setBoundary fun _ => 0)
    (by rw [hjoin]; exact hu)
  obtain ⟨r₂, c₂, n₂, d₂, -, hd₂, hm₂⟩ := feedAll_sim hpat ([e].filter (· ≠ [])) (hne e) hm₁ (by rw [hjoin]; exact he)
  rw [hm₁.state_delivery.2, hm₂.state_delivery.2] at hd₂
  exact ⟨c₂, hd₂⟩

/-- The calls of a buffer begin with those that deliver what comes before a point at which a header name is under way. -/
theorem feed_before {x y : Bytes} (hpat : pat ≠ []) (h : Matches pat r d s) (hrun : s.run pat x = some sc)
    (hsc : sc.state = .headerField) (hy : y ≠ []) (hf : r.feed (x ++ y) = .returned r' calls ret) :
    ∃ cs cs', calls = cs ++ cs' ∧ d.run cs = some sc.delivery := by
  obtain ⟨fuel, p, cs, hloop, -, hd, -⟩ := feed_until hpat h hrun hsc hy
  obtain ⟨p', all, hall, -, rfl⟩ := Reader.of_feed_returned hf
  have hcalls := feedLoop_places r.parser 0 (x ++ y) fuel p cs x.length
  rw [← hloop, hall] at hcalls
  have heq : all = cs ++ _ := hcalls
  exact ⟨(r.onCallbacks cs).2, _, by rw [heq, Reader.onCallbacks_append], hd⟩

/-- The calls of a run begin with those that deliver what comes before a CR in a header name. -/
theorem feedAll_before (hpat : pat ≠ []) {t : Bytes} (hsc : sc.state = .headerField) (chunks : List Bytes) :
    ∀ {r r' : Reader} {d : Delivery} {s : Scanner} {u : Bytes} {calls : List ReaderCall} {ret : Nat}, (∀ b ∈ chunks, b ≠ []) →
    chunks.flatten = u ++ CR :: t → Matches pat r d s → s.run pat u = some sc → r.feedAll chunks = .returned r' calls ret →
    ∃ cs cs', calls = cs ++ cs' ∧ d.run cs = some sc.delivery := by
  induction chunks with
  | nil => intro r r' d s u calls ret _ hflat; simp at hflat
  | cons b bs ih =>
    intro r r' d s u calls ret hne hflat h hrun hf
    rw [List.flatten_cons] at hflat
    obtain ⟨r₁, out₁, n₁, out₂, n₂, hf₁, hf₂, rfl⟩ := Reader.of_feedAll_cons_returned hf
    rcases append_eq_append_cons_cases hflat with ⟨u', rfl, hrest⟩ | ⟨y, rfl, rfl⟩
    · -- the CR comes in a later buffer
      rw [Scanner.run_append] at hrun
      obtain ⟨s₁, hs₁, hrun₁⟩ := Option.bind_eq_some_iff.mp hrun
      obtain ⟨r₁', c₁, n₁', d₁, hf₁', hd₁, hm₁⟩ := feed_sim hpat h (hne b (by simp)) hs₁
      rw [hf₁'] at hf₁
      cases hf₁
      obtain ⟨cs, cs', rfl, hd⟩ := ih (fun x hx => hne x (List.mem_cons_of_mem b hx)) hrest hm₁ hrun₁ hf₂
      refine ⟨out₁ ++ cs, cs', (List.append_assoc _ _ _).symm, ?_⟩
      rw [Delivery.run_append, hd₁]
      exact hd
    · obtain ⟨cs, cs', rfl, hd⟩ := feed_before hpat h hrun hsc (show CR :: y ≠ [] by simp) hf₁
      exact ⟨cs, cs' ++ out₂, List.append_assoc _ _ _, hd⟩

/-- What is lost at some point of the input is not delivered at its end, wherever the buffers were cut. -/
theorem feedAll_lost {v : Bytes} {T : List Part} {chunks : List Bytes} {d : Delivery} (hpat : pat ≠ [])
    (hne : ∀ b ∈ chunks, b ≠ []) (hflat : chunks.flatten = u ++ v) (hrun : ({} : Scanner).run pat u = some sc)
    (hlost : sc.delivery.Lost T) (hm : Matches pat r {} {}) (hf : r.feedAll chunks = .returned r' calls ret)
    (hd : ({} : Delivery).run calls = some d) : d.Lost T := by
  rcases Scanner.run_or_cutBy chunks.flatten (Scanner.regular_start pat) with ⟨sf, hall⟩ | ⟨u', t, sc', hcut, hrun', hby⟩
  · obtain ⟨r₁, c₁, n₁, d₁, hf₁, hd₁, hm₁⟩ := feedAll_sim hpat chunks hne hm hall
    rw [hf] at hf₁
    cases hf₁
    obtain rfl : d = d₁ := Option.some.inj (hd.symm.trans hd₁)
    rw [hflat, Scanner.run_append_of_run hrun] at hall
    obtain ⟨cs, hcs⟩ := Scanner.run_delivery hpat hrun hall
    rw [hm₁.state_delivery.2]
    exact hlost.run cs hcs
  · -- the header name in which the scanner stops comes after the loss
    rw [hflat] at hcut
    rcases append_eq_append_cons_cases hcut with ⟨e, rfl, hrest⟩ | ⟨y, rfl, -⟩
    · obtain ⟨cs, cs', rfl, hcs⟩ := feedAll_before hpat hby.1 chunks hne (hflat.trans hcut) hm hrun' hf
      rw [Scanner.run_append_of_run hrun] at hrun'
      obtain ⟨cs₁, hcs₁⟩ := Scanner.run_delivery hpat hrun hrun'
      rw [Delivery.run_append, hcs] at hd
      exact (hlost.run cs₁ hcs₁).run cs' hd
    · have hstop : sc'.step pat CR = none := by
        simp [Scanner.step, hby.1, Scanner.headerField, hby.2.2]
      rw [Scanner.run_append_of_run hrun', Scanner.run_cons, hstop] at hrun
      cases hrun

end Before

/-! ## Forms with leads -/

/-- **False leads.** A form whose contents have only false leads in them, and whatever follows it, cut in any way: the reader
delivers every part unchanged and succeeds if and only if the leads leave no trace. -/
theorem feedAll_leads_iff (b : Bytes) (ps : List Part) (epilogue : Bytes) (chunks : List Bytes) (fill : Nat → UInt8) (hb : CR ∉ b)
    (hps : ps ≠ []) (hok : ∀ p ∈ ps, LeadsOk b p) (hcut : chunks.flatten = serialize b ps ++ epilogue) :
    (∃ (r : Reader) (sl : List (Headers × List Bytes)) (ret : Nat),
      (({} : Reader).setBoundary (delimiter b) fill).feedAll chunks = .returned r (Delivery.callsOf sl) ret ∧
      sl.map (fun x => (x.1, x.2.flatten)) = ps.map (fun p => (OrderedMap.multimapOf p.headers, p.content)) ∧
      r.succeeded = true) ↔ Traceless b ps := by
  have hfirst : ({} : Scanner).run (delimiter b) ([HYPHEN, HYPHEN] ++ b ++ CRLF) = some (Scanner.betweenLeads false 0 []) :=
    Scanner.run_first (by simp [delimiter, CRLF]) rfl
  have hne : ∀ c ∈ chunks.filter (· ≠ []), c ≠ [] := fun c hc => by simpa using (List.mem_filter.mp hc).2
  rw [← List.flatten_filter_ne_nil] at hcut
  rw [← Reader.feedAll_filter]
  constructor
  · rintro ⟨r, sl, ret, hf, hsl, -⟩
    by_contra htrace
    obtain ⟨u, v, sc, hu, hrun, hlost⟩ := Scanner.run_parts_lost hb ps false 0 [] hps hok htrace
    have hflat : (chunks.filter (· ≠ [])).flatten = [HYPHEN, HYPHEN] ++ b ++ CRLF ++ u ++ (v ++ epilogue) := by
      rw [hcut, serialize, hu]
      simp
    have hparts : (sl.map fun x => (⟨x.1, x.2.flatten⟩ : Part)) = ps.map Part.delivered := by
      have h := congrArg (List.map fun x : Headers × Bytes => (⟨x.1, x.2⟩ : Part)) hsl
      rw [List.map_map, List.map_map] at h
      exact h
    have hend := feedAll_lost (delimiter_ne_nil b) hne hflat ((Scanner.run_append_of_run hfirst u).trans hrun) hlost (matches_setBoundary fill)
      hf (Delivery.run_callsOf sl [])
    rw [hparts, List.nil_append] at hend
    rcases hend with hend | ⟨p, hp, -⟩
    · exact hend (List.prefix_refl _)
    · cases hp
  · intro htrace
    obtain ⟨f, hparts⟩ := Scanner.run_parts_leads hb ps false 0 [] hps hok htrace
    have hform := (Scanner.run_append_of_run hfirst (serializeParts b ps)).trans hparts
    have hrun := (Scanner.run_append_of_run hform epilogue).trans (Scanner.run_ended rfl epilogue)
    rw [← serialize, ← hcut] at hrun
    obtain ⟨r, calls, ret, hf, hd, hsucc⟩ := feedAll_ended fill hne hrun rfl
    obtain ⟨sl, rfl, hsl⟩ := Delivery.slices_of_run hd
    exact ⟨r, sl, ret, hf, hsl, hsucc⟩

/-- A lead with CR and one with a hyphen in the first content, and one with a hyphen and a LF in the second: that is no trap,
since the delimiter line between the two parts takes the flag back. -/
theorem feedAll_leads_two_parts :
    ∃ (r : Reader) (sl : List (Headers × List Bytes)) (ret : Nat),
      (({} : Reader).setBoundary (delimiter (bytes "x")) (fun _ => 0)).feedAll
          [bytes "--x\r\n\r\na\r\n--x\r", bytes "y\r\n--x-z\r\n-", bytes "-x\r\n\r\n\r\n--x-\nb\r\n--x-", bytes "-\r\n"] =
        .returned r (Delivery.callsOf sl) ret ∧
      sl.map (fun x => (x.1, x.2.flatten)) = [([], bytes "a\r\n--x\ry\r\n--x-z"), ([], bytes "\r\n--x-\nb")] ∧
      r.succeeded = true :=
  (feedAll_leads_iff (bytes "x") [⟨[], bytes "a\r\n--x\ry\r\n--x-z"⟩, ⟨[], bytes "\r\n--x-\nb"⟩] (bytes "\r\n") _ (fun _ => 0)
    (by decide) (by decide)
    (by
      intro p hp
      simp only [List.mem_cons, List.not_mem_nil, or_false] at hp
      rcases hp with rfl | rfl
      · exact ⟨by simp, by decide +kernel⟩
      · exact ⟨by simp, by decide +kernel⟩)
    (by decide)).mpr (by decide +kernel)

/-- After a lead with CR in its only part, a form is not read to its end: the closing delimiter is taken for content. -/
theorem not_feedAll_leads : ¬ ∀ (b : Bytes) (ps : List Part) (chunks : List Bytes) (fill : Nat → UInt8), CR ∉ b → ps ≠ [] →
    (∀ p ∈ ps, LeadsOk b p) → chunks.flatten = serialize b ps →
    ∃ (r : Reader) (sl : List (Headers × List Bytes)) (ret : Nat),
      (({} : Reader).setBoundary (delimiter b) fill).feedAll chunks = .returned r (Delivery.callsOf sl) ret ∧
      sl.map (fun x => (x.1, x.2.flatten)) = ps.map (fun p => (OrderedMap.multimapOf p.headers, p.content)) ∧
      r.succeeded = true := by
  intro h
  obtain ⟨r, sl, ret, hf, -, hsucc⟩ := h (bytes "x") [⟨[], bytes "\r\n--x\ry"⟩] [bytes "--x\r\n\r\n\r\n--x\ry\r\n--x--"] (fun _ => 0)
    (by decide) (by decide)
    (by
      intro p hp
      rw [List.mem_singleton.mp hp]
      exact ⟨by simp, by decide +kernel⟩)
    (by decide)
  have hopen : ((({} : Reader).setBoundary (delimiter (bytes "x")) (fun _ => 0)).feedAll
      [bytes "--x\r\n\r\n\r\n--x\ry\r\n--x--"]).observed.map Observed.succeeded = some false := by
    decide +kernel
  rw [hf, ReaderResult.observed, Option.map_some, hsucc] at hopen
  cases hopen

end Multipart
end Netcore
