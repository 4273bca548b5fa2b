import Mathlib.Tactic.MkIffOfInductiveProp
import Netcore.Http.Request

/-!
# The buffer of a request

The vector `buf_` grows and never loses what has been received; copying the method, the URL and the headers out of it changes
neither the buffer nor the sizes.
-/

namespace Netcore

open Slices

namespace Request

/-- The bytes `sent` so far are those received, and the buffer is no larger than it may be. -/
@[mk_iff]
structure Buffered (sent : Bytes) (r : Request) : Prop where
  received : r.received = sent
  curSize : r.curSize ≤ r.buf.length
  length : r.buf.length ≤ maxSize

instance decBuffered (sent : Bytes) (r : Request) : Decidable (r.Buffered sent) := decidable_of_iff' _ (buffered_iff sent r)

/-- The buffer has as many bytes as were sent. -/
theorem Buffered.length_eq {sent : Bytes} {r : Request} (h : r.Buffered sent) : r.curSize = sent.length := by
  rw [← h.received, Request.received, List.length_take, Nat.min_eq_left h.curSize]

/-- The copies that `copy_method_url_headers` makes. -/
theorem copyMethodUrlHeaders_eq (r : Request) : ∃ m u ml ul mh ch, r.copyMethodUrlHeaders =
    { r with
      methodStr := m
      urlStr := u
      method := { r.method with len := ml }
      url := { r.url with len := ul }
      multipartHeaders := mh
      copyHeaders := ch } := by
  unfold copyMethodUrlHeaders
  dsimp only
  split
  · exact ⟨r.methodStr, r.urlStr, r.method.len, r.url.len, r.multipartHeaders, r.copyHeaders, rfl⟩
  · split <;> exact ⟨_, _, _, _, _, _, rfl⟩

/-- What growing the buffer leaves alone. -/
theorem growTo_eq (r : Request) (total : Nat) : ∃ q : Request, ∃ buf,
    r.growTo total = { q with buf := buf } ∧ (q = r ∨ q = r.copyMethodUrlHeaders) ∧
      (r.buf.length ≤ maxSize → r.buf <+: buf ∧ buf.length ≤ maxSize ∧ (total < maxSize → buf.length = max r.buf.length total)) := by
  obtain ⟨m, u, ml, ul, mh, ch, hcopy⟩ := copyMethodUrlHeaders_eq r
  have hbuf : r.copyMethodUrlHeaders.buf = r.buf := by rw [hcopy]
  have hgrow : ∀ size, r.buf.length ≤ size → r.buf <+: r.buf.take size ++ List.replicate (size - r.buf.length) 0 ∧
      (r.buf.take size ++ List.replicate (size - r.buf.length) (0 : UInt8)).length = size := by
    intro size hle
    rw [List.take_of_length_le hle]
    refine ⟨List.prefix_append _ _, ?_⟩
    rw [List.length_append, List.length_replicate]
    omega
  unfold growTo resize
  dsimp only
  rw [hbuf]
  split_ifs with h1 h2 h3
  · exact ⟨r, r.buf, rfl, .inl rfl, fun hle => ⟨List.prefix_refl _, hle, fun ht => by omega⟩⟩
  · refine ⟨r.copyMethodUrlHeaders, _, rfl, .inr rfl, fun _ => ?_⟩
    obtain ⟨hp, hl⟩ := hgrow total h3.le
    exact ⟨hp, by omega, fun _ => by omega⟩
  · exact ⟨r, r.buf, rfl, .inl rfl, fun hle => ⟨List.prefix_refl _, hle, fun ht => by omega⟩⟩
  · refine ⟨r.copyMethodUrlHeaders, _, rfl, .inr rfl, fun hle => ?_⟩
    obtain ⟨hp, hl⟩ := hgrow maxSize hle
    exact ⟨hp, hl.le, fun ht => absurd ht h2⟩

/-- Growing the buffer keeps what has been received. -/
theorem Buffered.growTo {sent : Bytes} {r : Request} (h : r.Buffered sent) (total : Nat) : (r.growTo total).Buffered sent := by
  obtain ⟨q, buf, he, hq, hbuf⟩ := growTo_eq r total
  obtain ⟨⟨tl, htl⟩, hmax, -⟩ := hbuf h.length
  have hcur : q.curSize = r.curSize := by
    rcases hq with rfl | rfl
    · rfl
    · obtain ⟨m, u, ml, ul, mh, ch, hcopy⟩ := copyMethodUrlHeaders_eq r
      rw [hcopy]
  have hlen := h.curSize
  rw [he]
  refine ⟨?_, ?_, hmax⟩
  · rw [← h.received, Request.received, Request.received, ← htl]
    show (r.buf ++ tl).take q.curSize = _
    rw [hcur, List.take_append_of_le_length hlen]
  · show q.curSize ≤ buf.length
    rw [hcur, ← htl, List.length_append]
    omega

/-- Growing the buffer changes no size of the message. -/
theorem growTo_sizes (r : Request) (total : Nat) : (r.growTo total).headerLen = r.headerLen ∧
    (r.growTo total).bodyLen = r.bodyLen ∧ (r.growTo total).curSize = r.curSize ∧ (r.growTo total).isChunked = r.isChunked ∧
    (r.growTo total).leftBodyLen = r.leftBodyLen := by
  obtain ⟨q, buf, he, hq, -⟩ := growTo_eq r total
  rw [he]
  rcases hq with rfl | rfl
  · exact ⟨rfl, rfl, rfl, rfl, rfl⟩
  · obtain ⟨m, u, ml, ul, mh, ch, hcopy⟩ := copyMethodUrlHeaders_eq r
    rw [hcopy]
    exact ⟨rfl, rfl, rfl, rfl, rfl⟩

/-- A buffer that is long enough stays as it is. -/
theorem growTo_of_le {r : Request} {total : Nat} (h : total ≤ r.buf.length) (ht : total < maxSize) : r.growTo total = r := by
  unfold growTo
  split_ifs with h1 h2
  · rfl
  · omega
  · rfl

/-- The buffer grows no further than it is asked to. -/
theorem growTo_length_le {r : Request} {total : Nat} (hr : r.buf.length ≤ total) (ht : total ≤ maxSize) :
    (r.growTo total).buf.length ≤ total := by
  obtain ⟨q, buf, he, -, hbuf⟩ := growTo_eq r total
  obtain ⟨-, hmax, hlen⟩ := hbuf (hr.trans ht)
  rw [he]
  show buf.length ≤ total
  by_cases hlt : total < maxSize
  · rw [hlen hlt]
    omega
  · omega

/-- The type of the body stays when the buffer grows. -/
theorem growTo_httpType (r : Request) (total : Nat) : (r.growTo total).httpType = r.httpType := by
  obtain ⟨q, buf, he, hq, -⟩ := growTo_eq r total
  rw [he]
  rcases hq with rfl | rfl
  · rfl
  · obtain ⟨m, u, ml, ul, mh, ch, hcopy⟩ := copyMethodUrlHeaders_eq r
    rw [hcopy]

/-- The buffer grows, and what was sent is still in it. -/
theorem Buffered.expandSize {sent : Bytes} {r : Request} (h : r.Buffered sent) : r.expandSize.Buffered sent := h.growTo _

@[simp] theorem setCurrentSize_zero_curSize (r : Request) : (r.setCurrentSize 0).curSize = 0 := by
  obtain ⟨m, u, ml, ul, mh, ch, hcopy⟩ := copyMethodUrlHeaders_eq { r with curSize := 0 }
  rw [setCurrentSize, if_pos rfl, hcopy]

@[simp] theorem setCurrentSize_zero_buf (r : Request) : (r.setCurrentSize 0).buf = r.buf := by
  obtain ⟨m, u, ml, ul, mh, ch, hcopy⟩ := copyMethodUrlHeaders_eq { r with curSize := 0 }
  rw [setCurrentSize, if_pos rfl, hcopy]

@[simp] theorem setCurrentSize_zero_httpType (r : Request) : (r.setCurrentSize 0).httpType = r.httpType := by
  obtain ⟨m, u, ml, ul, mh, ch, hcopy⟩ := copyMethodUrlHeaders_eq { r with curSize := 0 }
  rw [setCurrentSize, if_pos rfl, hcopy]

@[simp] theorem setCurrentSize_zero_bodyLen (r : Request) : (r.setCurrentSize 0).bodyLen = r.bodyLen := by
  obtain ⟨m, u, ml, ul, mh, ch, hcopy⟩ := copyMethodUrlHeaders_eq { r with curSize := 0 }
  rw [setCurrentSize, if_pos rfl, hcopy]

@[simp] theorem setCurrentSize_zero_leftBodyLen (r : Request) : (r.setCurrentSize 0).leftBodyLen = r.leftBodyLen := by
  obtain ⟨m, u, ml, ul, mh, ch, hcopy⟩ := copyMethodUrlHeaders_eq { r with curSize := 0 }
  rw [setCurrentSize, if_pos rfl, hcopy]

@[simp] theorem setCurrentSize_zero_atCapacity (r : Request) : (r.setCurrentSize 0).atCapacity = r.atCapacity := by
  obtain ⟨m, u, ml, ul, mh, ch, hcopy⟩ := copyMethodUrlHeaders_eq { r with curSize := 0 }
  rw [setCurrentSize, if_pos rfl, hcopy]
  rfl

/-- The buffer grows, and whether `at_capacity` holds stays. -/
theorem growTo_atCapacity (r : Request) (total : Nat) : (r.growTo total).atCapacity = r.atCapacity := by
  obtain ⟨hh, hb, -, -, -⟩ := growTo_sizes r total
  rw [atCapacity, atCapacity, hh, hb]

end Request

end Netcore
