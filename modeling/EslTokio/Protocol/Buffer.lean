import EslTokio.Library.Search
import EslTokio.Constants
import EslTokio.Error

/-!
# The parser's read buffer

`EslBuffer` of `src/buffer.rs`: the unconsumed bytes and the watermark of bytes that a pattern
search has already inspected.  Capacity, growth and `compact` are allocation matters of the
underlying byte vector that no operation below can observe, so they are not part of the model.

* `findPattern` resumes at the watermark; `extractUntilPattern` and `extractBytes` rebase it.
* `Watermarked` — the invariant that makes resuming sound, kept by every operation.
* **`findPattern_fst_eq_find`** — under it, the resumed search is a search from offset zero.
-/

namespace EslTokio

open Library
open Library.Search

/-- The unconsumed bytes, and how many of them a search has already inspected. -/
structure EslBuffer where
  buffer : Bytes
  scanOffset : Nat
  /-- The watermark never leaves the buffer, so a resumed search slices in range. -/
  scan_le : scanOffset ≤ buffer.length
deriving DecidableEq

namespace EslBuffer

/-- An empty buffer. -/
def new : EslBuffer := ⟨[], 0, Nat.le_refl 0⟩

/-- Extend the buffer with more data. -/
def extendFromSlice (b : EslBuffer) (data : Bytes) : EslBuffer :=
  ⟨b.buffer ++ data, b.scanOffset, by
    have hscan := b.scan_le
    rw [List.length_append]
    omega⟩

/-- A match found from `start` ends inside the buffer. -/
theorem scan_after_match {bytes pattern : Bytes} {start relPos : Nat} (hpattern : pattern ≠ [])
    (hfind : find pattern (bytes.drop start) = some relPos) :
    start + relPos + pattern.length ≤ bytes.length := by
  have hend := find_add_length_le hpattern hfind
  have hpos := List.length_pos_iff.mpr hpattern
  rw [List.length_drop] at hend
  omega

/-- Find `pattern`, resuming from the scan watermark and backing up `pattern.length - 1` so that a
match straddling it is not skipped. -/
def findPattern (b : EslBuffer) (pattern : Bytes) : Option Nat × EslBuffer :=
  if hshort : pattern = [] ∨ b.buffer.length < pattern.length then (none, b)
  else
    let start := b.scanOffset - (pattern.length - 1)
    match hfind : find pattern (b.buffer.drop start) with
    | some relPos =>
        (some (start + relPos), ⟨b.buffer, start + relPos + pattern.length,
          scan_after_match (fun hnil => hshort (Or.inl hnil)) hfind⟩)
    | none => (none, ⟨b.buffer, b.buffer.length, Nat.le_refl _⟩)

/-- Extract data up to the pattern, consuming through the end of the pattern. -/
def extractUntilPattern (b : EslBuffer) (pattern : Bytes) : Option Bytes × EslBuffer :=
  match b.findPattern pattern with
  | (none, searched) => (none, searched)
  | (some pos, searched) =>
      (some (searched.buffer.take pos),
        ⟨searched.buffer.drop (pos + pattern.length), 0, Nat.zero_le _⟩)

/-- Extract an exact number of bytes from the front of the buffer. -/
def extractBytes (b : EslBuffer) (count : Nat) : Option Bytes × EslBuffer :=
  if b.buffer.length < count then (none, b)
  else
    (some (b.buffer.take count), ⟨b.buffer.drop count, b.scanOffset - count, by
      have hscan := b.scan_le
      rw [List.length_drop]
      omega⟩)

/-- Discard all unconsumed data. -/
def clear (_ : EslBuffer) : EslBuffer := ⟨[], 0, Nat.le_refl 0⟩

/-- Refuse a buffer above the total size limit. -/
def checkSizeLimits (b : EslBuffer) : Except EslError Unit :=
  if b.buffer.length > maxBufferSize then
    .error (.bufferOverflow b.buffer.length maxBufferSize)
  else .ok ()

/-- No occurrence of `pattern` lies wholly below the watermark. -/
def Watermarked (b : EslBuffer) (pattern : Bytes) : Prop :=
  Clear pattern b.scanOffset b.buffer

@[simp] theorem findPattern_buffer (b : EslBuffer) (pattern : Bytes) :
    (b.findPattern pattern).2.buffer = b.buffer := by
  unfold findPattern
  split
  · rfl
  · simp only
    split <;> rfl

theorem Watermarked.new {pattern : Bytes} (hpattern : pattern ≠ []) :
    EslBuffer.new.Watermarked pattern :=
  Clear.zero hpattern []

theorem Watermarked.clear {pattern : Bytes} (hpattern : pattern ≠ []) (b : EslBuffer) :
    b.clear.Watermarked pattern :=
  Clear.zero hpattern []

theorem Watermarked.extendFromSlice {b : EslBuffer} {pattern : Bytes} (h : b.Watermarked pattern)
    (data : Bytes) : (b.extendFromSlice data).Watermarked pattern :=
  Clear.append h b.scan_le data

/-- Under the watermark invariant the resumed search is a search from offset zero. -/
theorem findPattern_fst_eq_find {b : EslBuffer} {pattern : Bytes} (hpattern : pattern ≠ [])
    (h : b.Watermarked pattern) : (b.findPattern pattern).1 = find pattern b.buffer := by
  have hresume := find_eq_resume hpattern h
  unfold findPattern
  split
  · rename_i hshort
    -- A buffer shorter than the pattern cannot contain it.
    cases hfind : find pattern b.buffer with
    | none => rfl
    | some pos =>
        have hend := find_add_length_le hpattern hfind
        rcases hshort with hnil | hlen
        · exact absurd hnil hpattern
        · omega
  · simp only
    split
    · rename_i relPos hfind
      rw [hfind] at hresume
      exact hresume.symm
    · rename_i hfind
      rw [hfind] at hresume
      exact hresume.symm

theorem Watermarked.findPattern_of_none {b : EslBuffer} {pattern : Bytes} (hpattern : pattern ≠ [])
    (h : b.Watermarked pattern) (hnone : (b.findPattern pattern).1 = none) :
    (b.findPattern pattern).2.Watermarked pattern := by
  rw [findPattern_fst_eq_find hpattern h] at hnone
  unfold Watermarked
  rw [findPattern_buffer]
  exact Clear.of_find_eq_none hnone _

/-- What extraction up to a pattern returns and leaves, in terms of a search from offset zero. -/
theorem extractUntilPattern_spec {b : EslBuffer} {pattern : Bytes} (hpattern : pattern ≠ [])
    (h : b.Watermarked pattern) :
    (b.extractUntilPattern pattern).1 = (find pattern b.buffer).map (b.buffer.take ·) ∧
      (b.extractUntilPattern pattern).2.buffer =
        match find pattern b.buffer with
        | none => b.buffer
        | some pos => b.buffer.drop (pos + pattern.length) := by
  have hfst := findPattern_fst_eq_find hpattern h
  have hbuffer := findPattern_buffer b pattern
  unfold extractUntilPattern
  generalize hfound : b.findPattern pattern = found at hfst hbuffer
  obtain ⟨pos, searched⟩ := found
  simp only at hfst hbuffer
  rw [← hfst]
  cases pos with
  | none => exact ⟨rfl, hbuffer⟩
  | some pos => simp [hbuffer]

theorem Watermarked.extractUntilPattern {b : EslBuffer} {pattern : Bytes} (hpattern : pattern ≠ [])
    (h : b.Watermarked pattern) : (b.extractUntilPattern pattern).2.Watermarked pattern := by
  have hnone := h.findPattern_of_none hpattern
  unfold EslBuffer.extractUntilPattern
  generalize b.findPattern pattern = found at hnone
  obtain ⟨pos, searched⟩ := found
  cases pos with
  | none => exact hnone rfl
  | some pos => exact Clear.zero hpattern _

theorem Watermarked.extractBytes {b : EslBuffer} {pattern : Bytes} (hpattern : pattern ≠ [])
    (h : b.Watermarked pattern) (count : Nat) :
    (b.extractBytes count).2.Watermarked pattern := by
  unfold EslBuffer.extractBytes
  split
  · exact h
  · exact Clear.drop h hpattern count

end EslBuffer
end EslTokio
