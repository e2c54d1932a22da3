import EslTokio.Library.LossyLines
import EslTokio.Protocol.LossySignal

/-!
# The raw inner body

The plain parser splits the lossily decoded body for its text and the wire bytes for the raw inner
body, each at its own first blank line.  Substitution moves every offset, but neither makes nor
takes a line feed, so the two splits are one.

* `splitRaw` — the wire bytes at their first blank line.
* `splitPayload_decodeLossy` — the text is split where the bytes are.
* **`rawInnerBody_exact`** — the raw inner body is what follows the first blank line, and its
  decoding is the body.
-/

namespace EslTokio

open Library

/-- The wire bytes of a body at their first blank line. -/
def splitRaw (bytes : Bytes) : Bytes × Option Bytes :=
  match Search.find [0x0A, 0x0A] bytes with
  | some pos => (bytes.take pos, some (bytes.drop (pos + 2)))
  | none => (bytes, none)

/-- **The split of the decoded text is the decoding of the split bytes.** -/
theorem splitPayload_decodeLossy (bytes : Bytes) :
    splitPayload (Utf8.decodeLossy bytes) =
      (Utf8.decodeLossy (splitRaw bytes).1, (splitRaw bytes).2.map Utf8.decodeLossy) := by
  rw [splitRaw]
  cases hraw : Search.find [0x0A, 0x0A] bytes with
  | some pos =>
      obtain ⟨hsplit, hfind⟩ := Utf8.find_blankLine_decodeLossy hraw
      rw [splitPayload, hfind, hsplit]
      simp [List.drop_append]
  | none =>
      cases hpayload : (splitPayload (Utf8.decodeLossy bytes)).2 with
      | some body =>
          obtain ⟨pos, hpos⟩ := find_of_splitPayload hpayload
          rw [hraw] at hpos
          cases hpos
      | none =>
          rw [splitPayload] at hpayload ⊢
          split at hpayload
          · cases hpayload
          · rfl

/-- The raw inner body of an event is the byte-level split's, when there is a body to go with it. -/
theorem innerRaw_eq_splitRaw {event : EslEvent} (h : event.body.isSome = true) (bytes : Bytes) :
    innerRaw event (some bytes) = (splitRaw bytes).2 := by
  rw [innerRaw, if_pos h, Option.bind_some, splitRaw]
  cases Search.find [0x0A, 0x0A] bytes with
  | some pos => rfl
  | none => rfl

/-- What follows the split is a suffix, right behind the first blank line. -/
theorem splitRaw_suffix {bytes raw : Bytes} (h : (splitRaw bytes).2 = some raw) :
    raw <:+ bytes ∧
      ∃ pos, Search.find [0x0A, 0x0A] bytes = some pos ∧ raw = bytes.drop (pos + 2) := by
  rw [splitRaw] at h
  cases hfind : Search.find [0x0A, 0x0A] bytes with
  | some pos =>
      rw [hfind] at h
      obtain rfl := Option.some.inj h
      exact ⟨List.drop_suffix _ _, pos, rfl, rfl⟩
  | none =>
      rw [hfind] at h
      cases h

/-- The bodies of a plain event, read off a body that is not UTF-8. -/
theorem parsePlainEvent_bodies {headersData bodyData : Bytes} {message : EslMessage}
    {event : EslEvent} (hframed : Framed false headersData bodyData message)
    (hill : ¬WellFormed bodyData) (h : parsePlainEvent false message = .ok event) :
    event.body = ((splitRaw bodyData).2.map Utf8.decodeLossy).filter (· ≠ []) ∧
      (event.body.isSome = true → event.rawBody = (splitRaw bodyData).2) := by
  obtain ⟨-, hbodies, hraw⟩ := hframed.spec
  rw [parsePlainEvent] at h
  split at h
  · cases h
  · split at h
    · cases h
    · rename_i body hbody
      obtain rfl := hbodies body hbody
      cases hdecode : decodeSerializedEvent (Utf8.decodeLossy bodyData) ⟨false, false⟩ with
      | error e =>
          rw [hdecode] at h
          cases h
      | ok inner =>
          rw [hdecode] at h
          obtain rfl := Except.ok.inj h
          obtain ⟨-, hnone, hinner⟩ := decodeSerializedEvent_spec hdecode
          have hrawBody : message.rawBody = some bodyData := by
            rcases hraw with ⟨hwell, -⟩ | ⟨-, hrawBody⟩
            · exact absurd hwell hill
            · exact hrawBody
          rw [(carryLossySignal_content _ _ _).2, carryLossySignal_rawBody, hnone, Option.or_none,
            hrawBody]
          refine ⟨?_, fun hsome => innerRaw_eq_splitRaw hsome bodyData⟩
          rw [hinner, splitPayload_decodeLossy]

/-- **The raw inner body is exact.**  Behind a body that is not UTF-8, an event with an inner body
keeps its wire bytes: what follows the first blank line, whose lossy decoding is that body.  The
text and the bytes of a body are split at the same place, whatever is malformed in them. -/
theorem rawInnerBody_exact (headersData bodyData : Bytes) (message : EslMessage) (event : EslEvent)
    (hframed : Framed false headersData bodyData message) (hill : ¬WellFormed bodyData)
    (h : parsePlainEvent false message = .ok event) :
    (∀ body, event.body = some body → ∃ raw, event.rawBody = some raw) ∧
      (∀ body raw, event.body = some body → event.rawBody = some raw →
        raw <:+ bodyData ∧ Utf8.decodeLossy raw = body ∧
          ∃ pos, Search.find [0x0A, 0x0A] bodyData = some pos ∧ raw = bodyData.drop (pos + 2)) ∧
      ∀ bytes, splitPayload (Utf8.decodeLossy bytes) =
        (Utf8.decodeLossy (splitRaw bytes).1, (splitRaw bytes).2.map Utf8.decodeLossy) := by
  obtain ⟨hbody, hraw⟩ := parsePlainEvent_bodies hframed hill h
  refine ⟨?_, ?_, splitPayload_decodeLossy⟩
  · intro body hsome
    rw [hraw (by rw [hsome]; rfl)]
    rw [hbody] at hsome
    cases hsplit : (splitRaw bodyData).2 with
    | some raw => exact ⟨raw, rfl⟩
    | none =>
        rw [hsplit] at hsome
        cases hsome
  · intro body raw hsome hrawBody
    rw [hraw (by rw [hsome]; rfl)] at hrawBody
    rw [hbody, hrawBody] at hsome
    obtain ⟨hsuffix, hpos⟩ := splitRaw_suffix hrawBody
    exact ⟨hsuffix, Option.some.inj (Option.filter_eq_some_iff.mp hsome).1, hpos⟩

/-- Malformed bytes on both sides of the blank line. -/
def latinBothSides : Bytes :=
  Utf8.encode "Event-Name: MESSAGE".toList ++ [0xE9, 0x0A, 0x0A, 0xC3, 0x0A, 0xE9]

theorem rawInnerBody_exact_latin :
    ∃ message event, Framed false (plainEnvelope 25) latinBothSides message ∧
      parsePlainEvent false message = .ok event ∧
      event.rawBody = some [0xC3, 0x0A, 0xE9] ∧ event.body = some ['\uFFFD', '\n', '\uFFFD'] ∧
      [0xC3, 0x0A, 0xE9] <:+ latinBothSides := by
  let pending : PendingBody := ⟨.event, plainEnvelopeHeaders 25, 25, []⟩
  let message : EslMessage :=
    ⟨.event, plainEnvelopeHeaders 25,
      some "Event-Name: MESSAGE\uFFFD\n\n\uFFFD\n\uFFFD".toList, some latinBothSides, []⟩
  let event : EslEvent :=
    ((EslEvent.new.setHeader "Event-Name".toList "MESSAGE\uFFFD".toList).setBody
      "\uFFFD\n\uFFFD".toList).setRawBody (latinBothSides.drop 22)
  have hframed : Framed false (plainEnvelope 25) latinBothSides message :=
    ⟨pending, by decide +kernel, by decide +kernel, by decide +kernel⟩
  have hevent : parsePlainEvent false message = .ok event := by decide +kernel
  have hill : ¬WellFormed latinBothSides := by
    rintro ⟨decoded, hdecoded⟩
    have herror : Utf8.decode latinBothSides = .error ⟨19, some 1⟩ := by decide +kernel
    rw [herror] at hdecoded
    cases hdecoded
  have hraw : event.rawBody = some [0xC3, 0x0A, 0xE9] := by decide +kernel
  have hbody : event.body = some ['\uFFFD', '\n', '\uFFFD'] := by decide +kernel
  exact ⟨message, event, hframed, hevent, hraw, hbody,
    ((rawInnerBody_exact _ _ _ _ hframed hill hevent).2.1 _ _ hbody hraw).1⟩

end EslTokio
