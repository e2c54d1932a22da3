import EslTokio.Event.Event

/-!
# The plain event format, there and back

`decode_serialized_event` of `src/protocol/event_format.rs` reads what `EslEvent::to_plain_format`
writes: percent-encoded header lines, then nothing or a blank line and the inner body.

* `decodeSerializedEvent` — the decoder.
* `WireKeyed` — what the decoder leaves in an event's keys: canonical, and free of the separators.
* `decodeHeaderLines_plain` — rendered header lines decode to the headers they render.
* **`plain_round_trip`** — a decoded event survives rendering and decoding, its `Content-Length`
  replaced by the length of its body.
-/

namespace EslTokio

open Library

/-- How a serialized payload is read. -/
structure DecodeOptions where
  /-- Fail on a value that is not UTF-8 once percent-decoded. -/
  strictUtf8 : Bool
  /-- Drop a header whose value is the empty-value sentinel. -/
  skipUndef : Bool
deriving DecidableEq, Repr

/-- The header section of a payload, and what follows its blank line. -/
def splitPayload (payload : Text) : Text × Option Text :=
  match Search.find ['\n', '\n'] payload with
  | some pos => (payload.take pos, some (payload.drop (pos + 2)))
  | none => (payload, none)

/-- Set headers in order. -/
def EslEvent.setHeaders (event : EslEvent) (pairs : List (Text × Text)) : EslEvent :=
  pairs.foldl (fun event pair => event.setHeader pair.1 pair.2) event

/-- Set the body unless it is empty. -/
def EslEvent.setInnerBody (event : EslEvent) (inner : Option Text) : EslEvent :=
  match inner.filter (· ≠ []) with
  | some body => event.setBody body
  | none => event

/-- Decode a serialized event: percent-encoded `Name: value` lines, then nothing or a blank line and
the inner body. -/
def decodeSerializedEvent (payload : Text) (options : DecodeOptions) :
    Except EslError EslEvent := do
  let (pairs, lossy) ← decodeHeaderBlock options.strictUtf8 options.skipUndef
    "event header".toList (splitPayload payload).1
  let event := (EslEvent.new.setHeaders pairs).setLossyValues lossy
  .ok (event.setInnerBody (splitPayload payload).2)

/-! ### The keys of a decoded event -/

/-- A key that survives the trip through a header line. -/
structure WireKey (key : Text) : Prop where
  canonical : normalizeHeaderKey key = key
  no_colon : ':' ∉ key
  no_newline : '\n' ∉ key

theorem WireKey.normalize {raw : Text} (hcolon : ':' ∉ raw) (hnewline : '\n' ∉ raw) :
    WireKey (normalizeHeaderKey raw) :=
  ⟨normalizeHeaderKey_idem raw, notMem_normalizeHeaderKey (.inl rfl) hcolon,
    notMem_normalizeHeaderKey (.inr rfl) hnewline⟩

theorem parseHeaderLine_wireKey {line key rawValue : Text} (hline : '\n' ∉ line)
    (h : parseHeaderLine line = .ok (some (key, rawValue))) : WireKey key := by
  rw [parseHeaderLine] at h
  split at h
  · cases h
  · split at h
    · cases h
    · rename_i before after hsplit
      obtain ⟨hcolon, heq⟩ := Text.splitFirst_some hsplit
      obtain ⟨rfl, -⟩ := Prod.mk.inj (Option.some.inj (Except.ok.inj h))
      refine .normalize hcolon fun hmem => hline ?_
      apply Text.mem_of_mem_stripSuffix
      rw [heq]
      exact List.mem_append_left _ hmem

theorem decodeHeaderLines_wireKey {strict skipUndef : Bool} {context : Text} {lines : List Text}
    (hlines : ∀ line ∈ lines, '\n' ∉ line) {pairs : List (Text × Text)} {lossy : List LossyValue}
    (h : decodeHeaderLines strict skipUndef context lines = .ok (pairs, lossy)) :
    ∀ pair ∈ pairs, WireKey pair.1 := by
  induction lines generalizing pairs lossy with
  | nil =>
      obtain ⟨rfl, -⟩ := Prod.mk.inj (Except.ok.inj h)
      exact List.forall_mem_nil _
  | cons line lines ih =>
      have hrest : ∀ other ∈ lines, '\n' ∉ other :=
        fun other hother => hlines other (List.mem_cons_of_mem _ hother)
      rw [decodeHeaderLines] at h
      cases hparse : parseHeaderLine line with
      | error e =>
          rw [hparse] at h
          cases h
      | ok parsed =>
          rw [hparse] at h
          cases parsed with
          | none => exact ih hrest h
          | some parsed =>
              obtain ⟨key, rawValue⟩ := parsed
              have hkey := parseHeaderLine_wireKey (hlines line List.mem_cons_self) hparse
              simp only [bind, Except.bind] at h
              split at h
              · cases h
              · split at h
                · cases h
                · rename_i decoded hdecoded
                  have htail := ih hrest hdecoded
                  split at h
                  · obtain ⟨rfl, -⟩ := Prod.mk.inj (Except.ok.inj h)
                    exact htail
                  · obtain ⟨rfl, -⟩ := Prod.mk.inj (Except.ok.inj h)
                    intro pair hpair
                    rcases List.mem_cons.mp hpair with rfl | hpair
                    · exact hkey
                    · exact htail pair hpair

/-- Every key of the event survives the trip through a header line. -/
def EslEvent.WireKeyed (event : EslEvent) : Prop :=
  ∀ key ∈ event.headers.map.entries.map Prod.fst, WireKey key

theorem EslEvent.WireKeyed.setHeaders {event : EslEvent} (h : event.WireKeyed)
    {pairs : List (Text × Text)} (hpairs : ∀ pair ∈ pairs, WireKey pair.1) :
    (event.setHeaders pairs).WireKeyed := by
  induction pairs generalizing event with
  | nil => exact h
  | cons pair pairs ih =>
      refine ih (fun key hkey => ?_) fun other hother =>
        hpairs other (List.mem_cons_of_mem _ hother)
      rcases IndexMap.mem_map_fst_insertEntry.mp hkey with rfl | hkey
      · have hpair := hpairs pair List.mem_cons_self
        rw [hpair.canonical]
        exact hpair
      · exact h key hkey

@[simp] theorem EslEvent.setHeaders_body (event : EslEvent) (pairs : List (Text × Text)) :
    (event.setHeaders pairs).body = event.body := by
  induction pairs generalizing event with
  | nil => rfl
  | cons pair pairs ih => exact ih _

@[simp] theorem EslEvent.setInnerBody_lossyValues (event : EslEvent) (inner : Option Text) :
    (event.setInnerBody inner).lossyValues = event.lossyValues := by
  rw [setInnerBody]
  split
  all_goals rfl

theorem EslEvent.setInnerBody_body (event : EslEvent) (inner : Option Text) :
    (event.setInnerBody inner).body = (inner.filter (· ≠ [])).or event.body := by
  rw [setInnerBody]
  split
  · rename_i body hfilter
    rw [hfilter]
    rfl
  · rename_i hfilter
    rw [hfilter]
    rfl

@[simp] theorem EslEvent.setInnerBody_headers (event : EslEvent) (inner : Option Text) :
    (event.setInnerBody inner).headers = event.headers := by
  rw [setInnerBody]
  split
  all_goals rfl

theorem decodeSerializedEvent_wireKeyed {payload : Text} {options : DecodeOptions}
    {event : EslEvent} (h : decodeSerializedEvent payload options = .ok event) :
    event.WireKeyed := by
  simp only [decodeSerializedEvent, bind, Except.bind] at h
  split at h
  · cases h
  · rename_i decoded hdecoded
    obtain rfl := Except.ok.inj h
    have hpairs := decodeHeaderLines_wireKey
      (fun line hline => Text.newline_notMem_of_mem_lines hline) hdecoded
    have hnew : EslEvent.new.WireKeyed := nofun
    have hkeyed := hnew.setHeaders hpairs
    rw [EslEvent.WireKeyed, EslEvent.setInnerBody_headers]
    exact hkeyed

/-! ### Rendered lines decode to what they render -/

theorem decodeValue_percentEncode (strict : Bool) (context key value : Text) :
    decodeValue strict context key (percentEncode (Utf8.encode value)) = .ok (value, []) := by
  simp only [decodeValue, percentDecode_percentEncode, Utf8.decode_encode]

/-- Every character of an encoded value is a letter, a digit or a percent sign. -/
theorem percentEncode_notMem {d : Char} (hd : d = '\n' ∨ d = '\r') (bytes : Bytes) :
    d ∉ percentEncode bytes := by
  have hall : ∀ n < 256, '\n' ∉ percentEncodeByte (UInt8.ofNat n) ∧
      '\r' ∉ percentEncodeByte (UInt8.ofNat n) := by
    decide +kernel
  intro hmem
  obtain ⟨b, -, hb⟩ := List.mem_flatMap.mp hmem
  have hbyte := hall b.toNat b.toNat_lt
  rw [UInt8.ofNat_toNat] at hbyte
  rcases hd with rfl | rfl
  · exact hbyte.1 hb
  · exact hbyte.2 hb

/-- Digits are not encoded. -/
theorem percentEncode_ofNat (n : Nat) :
    percentEncode (Utf8.encode (Text.ofNat n)) = Text.ofNat n := by
  have hdigit : ∀ c : Char, c.isDigit = true → percentEncode (Utf8.encode [c]) = [c] := by
    intro c
    induction c using char_cases with
    | hascii n hn =>
        revert n
        decide +kernel
    | hother c hc =>
        intro hdigit
        have hle : c.toNat ≤ '9'.toNat := by
          simp only [Char.isDigit, Bool.and_eq_true, decide_eq_true_eq] at hdigit
          exact UInt32.le_iff_toNat_le.mp hdigit.2
        have hnine : '9'.toNat = 57 := rfl
        omega
  have hdigits : ∀ c ∈ Text.ofNat n, c.isDigit = true := fun c hc => Text.isDigit_of_mem_ofNat hc
  generalize Text.ofNat n = digits at hdigits
  induction digits with
  | nil => rfl
  | cons c digits ih =>
      have hhead := hdigit c (hdigits c List.mem_cons_self)
      have htail := ih fun d hd => hdigits d (List.mem_cons_of_mem _ hd)
      have hsplit : percentEncode (Utf8.encode (c :: digits)) =
          percentEncode (Utf8.encode [c]) ++ percentEncode (Utf8.encode digits) := by
        simp [percentEncode, Utf8.encode]
      rw [hsplit, hhead, htail]
      rfl

namespace EslEvent

/-- The length of a body is itself a header line of the plain format. -/
theorem lengthLine_eq (body : Text) :
    lengthLine body =
      plainHeaderLine (headerContentLength, Text.ofNat (Utf8.encode body).length) := by
  have hname : "Content-Length: ".toList = headerContentLength ++ ": ".toList := by decide +kernel
  unfold lengthLine plainHeaderLine
  rw [percentEncode_ofNat, hname]

theorem plainHeaderLine_eq (entry : Text × Text) :
    plainHeaderLine entry = entry.1 ++ ':' :: ' ' :: percentEncode (Utf8.encode entry.2) := by
  rw [plainHeaderLine, List.append_assoc]
  rfl

/-- The value in front of the line feed never ends in a carriage return. -/
theorem stripSuffix_plainHeaderLine (entry : Text × Text) :
    Text.stripSuffix '\r' (plainHeaderLine entry) = plainHeaderLine entry := by
  rw [Text.stripSuffix, if_neg]
  rw [plainHeaderLine_eq, List.getLast?_append_cons, List.getLast?_cons_cons]
  intro hlast
  rcases List.mem_cons.mp (List.mem_of_getLast? hlast) with hspace | hvalue
  · exact absurd hspace (by decide)
  · exact percentEncode_notMem (.inr rfl) _ hvalue

theorem parseHeaderLine_plain {entry : Text × Text} (h : WireKey entry.1) :
    parseHeaderLine (plainHeaderLine entry) =
      .ok (some (entry.1, percentEncode (Utf8.encode entry.2))) := by
  have hne : plainHeaderLine entry ≠ [] := by simp [plainHeaderLine_eq]
  rw [parseHeaderLine, stripSuffix_plainHeaderLine, if_neg hne, plainHeaderLine_eq,
    Text.splitFirst_append h.no_colon]
  simp only [h.canonical, Text.stripPrefix, if_true]

/-- **Rendered header lines decode to the headers they render**, losing nothing. -/
theorem decodeHeaderLines_plain (strict : Bool) (context : Text) {entries : List (Text × Text)}
    (h : ∀ entry ∈ entries, WireKey entry.1) :
    decodeHeaderLines strict false context (entries.map plainHeaderLine) = .ok (entries, []) := by
  induction entries with
  | nil => rfl
  | cons entry entries ih =>
      have htail := ih fun other hother => h other (List.mem_cons_of_mem _ hother)
      rw [List.map_cons, decodeHeaderLines, parseHeaderLine_plain (h entry List.mem_cons_self)]
      simp only [bind, Except.bind, decodeValue_percentEncode, htail, Bool.false_and,
        Bool.false_eq_true, if_false, List.append_nil]

/-- Setting canonical headers under distinct keys stores exactly these. -/
theorem setHeaders_entries {pairs : List (Text × Text)} {event : EslEvent}
    (hkeys : ∀ pair ∈ pairs, WireKey pair.1)
    (hnodup : ((event.headers.map.entries ++ pairs).map Prod.fst).Nodup) :
    (event.setHeaders pairs).headers.map.entries = event.headers.map.entries ++ pairs := by
  have hmap : (event.setHeaders pairs).headers.map =
      pairs.foldl (fun map pair => map.insert pair.1 pair.2) event.headers.map := by
    clear hnodup
    induction pairs generalizing event with
    | nil => rfl
    | cons pair pairs ih =>
        have hfirst : (event.setHeader pair.1 pair.2).headers.map =
            event.headers.map.insert pair.1 pair.2 := by
          have hcanonical := (hkeys pair List.mem_cons_self).canonical
          simp only [setHeader, EslHeaders.insert, hcanonical]
        have hrest : ((event.setHeader pair.1 pair.2).setHeaders pairs).headers.map = _ :=
          ih fun other hother => hkeys other (List.mem_cons_of_mem _ hother)
        rw [hfirst] at hrest
        exact hrest
  rw [hmap]
  exact IndexMap.entries_foldl_insert pairs event.headers.map hnodup

/-- The headers an event is rendered with: its own without `Content-Length`, then the length of its
body. -/
def renderedHeaders (event : EslEvent) : List (Text × Text) :=
  event.headers.map.entries.filter (·.1 ≠ headerContentLength) ++
    event.body.toList.map fun body => (headerContentLength, Text.ofNat (Utf8.encode body).length)

theorem toPlainFormat_eq (event : EslEvent) :
    event.toPlainFormat =
      renderLines '\n' (event.renderedHeaders.map plainHeaderLine) ++
        '\n' :: event.body.getD [] := by
  have hheaders : ((event.headers.map.entries.filter (·.1 ≠ headerContentLength)).flatMap
      fun entry => plainHeaderLine entry ++ ['\n']) = renderLines '\n'
        ((event.headers.map.entries.filter (·.1 ≠ headerContentLength)).map plainHeaderLine) := by
    rw [renderLines, List.flatMap_map]
  have hlength : event.body.toList.map lengthLine = event.body.toList.map
      (plainHeaderLine ∘ fun body => (headerContentLength, Text.ofNat (Utf8.encode body).length)) :=
    List.map_congr_left fun body _ => lengthLine_eq body
  rw [toPlainFormat, hheaders, renderLines_append_bodySection, renderedHeaders, List.map_append,
    List.map_map, hlength]

theorem wireKey_headerContentLength : WireKey headerContentLength := by
  refine ⟨?_, ?_, ?_⟩
  all_goals decide +kernel

theorem WireKeyed.renderedHeaders {event : EslEvent} (h : event.WireKeyed) :
    ∀ entry ∈ event.renderedHeaders, WireKey entry.1 := by
  intro entry hentry
  rcases List.mem_append.mp hentry with hentry | hentry
  · exact h entry.1 (List.mem_map_of_mem (List.mem_of_mem_filter hentry))
  · obtain ⟨body, -, rfl⟩ := List.mem_map.mp hentry
    exact wireKey_headerContentLength

theorem renderedHeaders_nodup (event : EslEvent) :
    (event.renderedHeaders.map Prod.fst).Nodup := by
  have hkept : ((event.headers.map.entries.filter (·.1 ≠ headerContentLength)).map
      Prod.fst).Nodup := event.headers.map.nodup.sublist (List.filter_sublist.map _)
  rw [renderedHeaders, List.map_append, List.nodup_append]
  refine ⟨hkept, ?_, ?_⟩
  · cases event.body with
    | none => exact List.nodup_nil
    | some body => exact List.nodup_singleton _
  · intro key hkey other hother heq
    obtain ⟨entry, hentry, rfl⟩ := List.mem_map.mp hkey
    obtain ⟨length, hlength, rfl⟩ := List.mem_map.mp hother
    obtain ⟨body, -, rfl⟩ := List.mem_map.mp hlength
    have hne := List.of_mem_filter hentry
    simp only [decide_eq_true_eq] at hne
    exact hne heq

theorem WireKeyed.blockLines {event : EslEvent} (h : event.WireKeyed) :
    BlockLines '\n' (event.renderedHeaders.map plainHeaderLine) := by
  intro line hline
  obtain ⟨entry, hentry, rfl⟩ := List.mem_map.mp hline
  have hkey := (h.renderedHeaders entry hentry).no_newline
  have hvalue := percentEncode_notMem (.inl rfl) (Utf8.encode entry.2)
  rw [plainHeaderLine_eq]
  refine ⟨by simp, ?_⟩
  simp [hkey, hvalue]

/-- The blank line of a rendered event is where its headers end. -/
theorem splitPayload_toPlainFormat {event : EslEvent} (h : event.WireKeyed)
    (hne : event.renderedHeaders ≠ []) :
    splitPayload event.toPlainFormat =
      ((renderLines '\n' (event.renderedHeaders.map plainHeaderLine)).dropLast,
        some (event.body.getD [])) := by
  have hfind := find_blankLine (by simpa using hne) h.blockLines (event.body.getD [])
  have hlast : (renderLines '\n' (event.renderedHeaders.map plainHeaderLine)).dropLast ++ ['\n'] =
      renderLines '\n' (event.renderedHeaders.map plainHeaderLine) :=
    dropLast_renderLines_append (by simpa using hne)
  rw [toPlainFormat_eq, splitPayload, hfind]
  generalize (renderLines '\n' (event.renderedHeaders.map plainHeaderLine)) = block at hlast
  rw [← hlast]
  simp [List.drop_append]

/-- What the decoder makes of an event's own rendering. -/
theorem decode_toPlainFormat {event : EslEvent} (h : event.WireKeyed) (hbody : event.body ≠ some [])
    (strict : Bool) :
    ∃ again, decodeSerializedEvent event.toPlainFormat ⟨strict, false⟩ = .ok again ∧
      again.body = event.body ∧ again.headers.map.entries = event.renderedHeaders ∧
      again.lossyValues = [] := by
  by_cases hne : event.renderedHeaders = []
  · -- Neither headers nor a body: the rendering is one blank line.
    have hnone : event.body = none := by
      cases hsome : event.body with
      | none => rfl
      | some body => simp [renderedHeaders, hsome] at hne
    have hplain : event.toPlainFormat = ['\n'] := by
      rw [toPlainFormat_eq, hne, hnone]
      rfl
    rw [hplain, hne, hnone]
    exact ⟨EslEvent.new, rfl, rfl, rfl, rfl⟩
  · have hkeys := h.renderedHeaders
    have hsplit := splitPayload_toPlainFormat h hne
    have hlines := Text.lines_renderLines_dropLast h.blockLines fun line hline => by
      obtain ⟨entry, -, rfl⟩ := List.mem_map.mp hline
      exact stripSuffix_plainHeaderLine entry
    have hdecode : decodeHeaderBlock strict false "event header".toList
        (splitPayload event.toPlainFormat).1 = .ok (event.renderedHeaders, []) := by
      rw [hsplit, decodeHeaderBlock, hlines]
      exact decodeHeaderLines_plain strict _ hkeys
    have hentries : (EslEvent.new.setHeaders event.renderedHeaders).headers.map.entries =
        event.renderedHeaders := setHeaders_entries hkeys event.renderedHeaders_nodup
    refine ⟨((EslEvent.new.setHeaders event.renderedHeaders).setLossyValues []).setInnerBody
      (some (event.body.getD [])), ?_, ?_, ?_, ?_⟩
    · simp only [decodeSerializedEvent, hdecode, bind, Except.bind]
      rw [hsplit]
    · rw [setInnerBody_body]
      have hnew : (setLossyValues (EslEvent.new.setHeaders event.renderedHeaders) []).body = none :=
        setHeaders_body EslEvent.new event.renderedHeaders
      rw [hnew]
      cases hsome : event.body with
      | none => rfl
      | some body =>
          have hfull : body ≠ [] := fun heq => hbody (by rw [hsome, heq])
          simp [Option.filter, hfull]
    · rw [setInnerBody_headers]
      exact hentries
    · rw [setInnerBody_lossyValues]
      rfl

/-- A decoded body is not empty. -/
theorem decodeSerializedEvent_body {payload : Text} {options : DecodeOptions} {event : EslEvent}
    (h : decodeSerializedEvent payload options = .ok event) : event.body ≠ some [] := by
  simp only [decodeSerializedEvent, bind, Except.bind] at h
  split at h
  · cases h
  · rename_i decoded hdecoded
    obtain rfl := Except.ok.inj h
    have hnew : (setLossyValues (EslEvent.new.setHeaders decoded.1) decoded.2).body = none :=
      setHeaders_body EslEvent.new decoded.1
    rw [setInnerBody_body, hnew, Option.or_none]
    intro hempty
    have hkept := (Option.filter_eq_some_iff.mp hempty).2
    simp at hkept

/-- The rendering depends on the rendered headers and the body alone. -/
theorem toPlainFormat_of_renderedHeaders {event again : EslEvent}
    (hentries : again.headers.map.entries = event.renderedHeaders)
    (hbody : again.body = event.body) : again.toPlainFormat = event.toPlainFormat := by
  have hkept : again.renderedHeaders = event.renderedHeaders := by
    rw [renderedHeaders, hentries, hbody, renderedHeaders, List.filter_append, List.filter_filter]
    cases event.body with
    | none => simp
    | some body => simp
  rw [toPlainFormat_eq, toPlainFormat_eq, hkept, hbody]

end EslEvent

/-- **Plain events round-trip**: rendering a decoded event and decoding it again gives the same body
and the same headers, `Content-Length` being that of the body, nothing lossy, and the same
rendering. -/
theorem plain_round_trip (payload : Text) (options : DecodeOptions) (event : EslEvent)
    (hskip : options.skipUndef = false) (h : decodeSerializedEvent payload options = .ok event) :
    ∃ again, decodeSerializedEvent event.toPlainFormat options = .ok again ∧
      again.body = event.body ∧
      again.headers.map.entries =
        event.headers.map.entries.filter (·.1 ≠ headerContentLength) ++
          event.body.toList.map
            (fun body => (headerContentLength, Text.ofNat (Utf8.encode body).length)) ∧
      again.lossyValues = [] ∧
      again.toPlainFormat = event.toPlainFormat := by
  obtain ⟨strict, skipUndef⟩ := options
  obtain rfl : skipUndef = false := hskip
  obtain ⟨again, hdecode, hbody, hentries, hlossy⟩ := EslEvent.decode_toPlainFormat
    (decodeSerializedEvent_wireKeyed h) (EslEvent.decodeSerializedEvent_body h) strict
  exact ⟨again, hdecode, hbody, hentries, hlossy,
    EslEvent.toPlainFormat_of_renderedHeaders hentries hbody⟩

/-- A payload with a stale length, a lossy value, a key to canonicalize and a body with a blank line
of its own. -/
def heartbeatPayload : Text :=
  "event-name: HEARTBEAT\ncontent-length: 3\nvariable_x: %FF%20\r\n\nup\n\ntime".toList

theorem plain_round_trip_heartbeat :
    ∃ event again, decodeSerializedEvent heartbeatPayload ⟨false, false⟩ = .ok event ∧
      decodeSerializedEvent event.toPlainFormat ⟨false, false⟩ = .ok again ∧
      again.toPlainFormat = event.toPlainFormat := by
  have hsome : (decodeSerializedEvent heartbeatPayload ⟨false, false⟩).toOption.isSome = true := by
    decide +kernel
  cases hdecode : decodeSerializedEvent heartbeatPayload ⟨false, false⟩ with
  | error e =>
      rw [hdecode] at hsome
      cases hsome
  | ok event =>
      obtain ⟨again, hagain, -, -, -, hplain⟩ := plain_round_trip _ _ event rfl hdecode
      exact ⟨event, again, rfl, hagain, hplain⟩

end EslTokio
