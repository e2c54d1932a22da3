import EslTokio.Library.IndexMap
import EslTokio.Library.Text

/-!
# Header names and the header store

The key rules of `freeswitch-types/src/headers.rs` and the store built on them
(`freeswitch-types/src/variables/esl_headers.rs`).

* `eventHeaderNames` — the wire names of the `EventHeader` enum, in declaration order.
* `normalizeHeaderKey` — the canonical form a key is stored under: a known event header in its wire
  spelling, a key with an underscore verbatim, any other key title-cased.
* **`normalizeHeaderKey_idem`** — a canonical key is its own canonical form.
* `EslHeaders` — canonical map plus lowercase aliases, the case-insensitive lookup of a reply.
-/

namespace EslTokio

open Library

/-- The wire name of every `EventHeader` variant. -/
def eventHeaderNames : List String :=
  ["Event-Name", "Event-Subclass", "Unique-ID", "Caller-Unique-ID", "Other-Leg-Unique-ID",
   "Channel-Call-UUID", "Job-UUID", "Channel-Name", "Channel-State", "Channel-State-Number",
   "Channel-Call-State", "Answer-State", "Call-Direction", "Hangup-Cause", "Caller-Caller-ID-Name",
   "Caller-Caller-ID-Number", "Caller-Orig-Caller-ID-Name", "Caller-Orig-Caller-ID-Number",
   "Caller-Callee-ID-Name", "Caller-Callee-ID-Number", "Caller-Destination-Number",
   "Caller-Context", "Caller-Direction", "Caller-Network-Addr", "Core-UUID", "DTMF-Digit",
   "priority", "Log-Level", "pl_data", "event", "sip_content_type", "gateway_name",
   "Channel-Read-Codec-Name", "Channel-Read-Codec-Rate", "Channel-Read-Codec-Bit-Rate",
   "Channel-Reported-Read-Codec-Rate", "Channel-Write-Codec-Name", "Channel-Write-Codec-Rate",
   "Channel-Write-Codec-Bit-Rate", "Channel-Reported-Write-Codec-Rate",
   "Channel-Video-Read-Codec-Name", "Channel-Video-Read-Codec-Rate",
   "Channel-Video-Write-Codec-Name", "Channel-Video-Write-Codec-Rate", "Session-Count",
   "FreeSWITCH-Hostname", "FreeSWITCH-Switchname", "FreeSWITCH-IPv4", "FreeSWITCH-IPv6",
   "FreeSWITCH-Version", "FreeSWITCH-Domain", "FreeSWITCH-User", "Application", "Application-Data",
   "Application-Response", "Application-UUID", "Event-Date-Local", "Event-Date-GMT",
   "Event-Date-Timestamp", "Event-Calling-File", "Event-Calling-Function",
   "Event-Calling-Line-Number", "Event-Sequence", "Channel-Presence-ID", "Channel-Presence-Data",
   "Presence-Data-Cols", "Presence-Call-Direction", "Channel-HIT-Dialplan", "Session-External-ID",
   "Other-Type", "Channel-Call-State-Number", "Original-Channel-Call-State", "DTMF-Duration",
   "DTMF-Source", "Caller-Logical-Direction", "Caller-Username", "Caller-Dialplan", "Caller-ANI",
   "Caller-ANI-II", "Caller-Source", "Caller-Transfer-Source", "Caller-RDNIS",
   "Caller-Channel-Name", "Caller-Profile-Index", "Caller-Screen-Bit", "Caller-Privacy-Hide-Name",
   "Caller-Privacy-Hide-Number", "Other-Leg-Direction", "Other-Leg-Logical-Direction",
   "Other-Leg-Username", "Other-Leg-Dialplan", "Other-Leg-Caller-ID-Name",
   "Other-Leg-Caller-ID-Number", "Other-Leg-Orig-Caller-ID-Name",
   "Other-Leg-Orig-Caller-ID-Number", "Other-Leg-Callee-ID-Name", "Other-Leg-Callee-ID-Number",
   "Other-Leg-Network-Addr", "Other-Leg-ANI", "Other-Leg-ANI-II", "Other-Leg-Destination-Number",
   "Other-Leg-Source", "Other-Leg-Transfer-Source", "Other-Leg-Context", "Other-Leg-RDNIS",
   "Other-Leg-Channel-Name", "Other-Leg-Profile-Index", "Other-Leg-Screen-Bit",
   "Other-Leg-Privacy-Hide-Name", "Other-Leg-Privacy-Hide-Number", "Up-Time", "Uptime-msec",
   "Max-Sessions", "Session-Peak-Max", "Session-Peak-FiveMin", "Session-Per-Sec",
   "Session-Per-Sec-FiveMin", "Session-Per-Sec-Max", "Session-Per-Sec-Last",
   "Session-Since-Startup", "Idle-CPU", "Heartbeat-Interval", "Event-Info", "Log-Data", "Log-File",
   "Log-Function", "Log-Line", "User-Data", "Application-UUID-Name", "Gateway", "State",
   "Ping-Status", "Phrase", "profile-name", "Status", "module_name", "profile_name", "profile_uri"]

/-- ASCII lower case of a byte. -/
def lowerByte (b : UInt8) : UInt8 :=
  if 0x41 ≤ b && b ≤ 0x5A then b + 0x20 else b

/-- Equality of byte strings up to ASCII case. -/
def eqIgnoreAsciiCase : Bytes → Bytes → Bool
  | [], [] => true
  | x :: xs, y :: ys => lowerByte x == lowerByte y && eqIgnoreAsciiCase xs ys
  | _, _ => false

/-- `str::parse::<EventHeader>`, by wire name: variants are matched ignoring ASCII case. -/
def parseEventHeader (raw : Text) : Option Text :=
  (eventHeaderNames.find? fun name =>
    eqIgnoreAsciiCase (Utf8.encode raw) name.toUTF8.data.toList).map String.toList

/-- The lowercase alias of a key, unless it carries an underscore. -/
def caseAliasKey (key : Text) : Option Text :=
  if '_' ∈ key then none else some (Text.toAsciiLowercase key)

/-- Title-case every dash-separated word, from a given capitalisation state. -/
def titleCaseFrom (capitalizeNext : Bool) : Text → Text
  | [] => []
  | c :: rest =>
      if c = '-' then '-' :: titleCaseFrom true rest
      else if capitalizeNext then c.toUpper :: titleCaseFrom false rest
      else c.toLower :: titleCaseFrom false rest

/-- Title-case every dash-separated word. -/
def titleCaseDashes (text : Text) : Text := titleCaseFrom true text

/-- The canonical form of a header key. -/
def normalizeHeaderKey (raw : Text) : Text :=
  match parseEventHeader raw with
  | some name => name
  | none =>
      match caseAliasKey raw with
      | none => raw
      | some _ => titleCaseDashes raw

/-- A flat header store: values by canonical key, and canonical keys by lowercase alias. -/
structure EslHeaders where
  map : IndexMap Text Text
  aliases : IndexMap Text Text
deriving DecidableEq

namespace EslHeaders

/-- The empty store. -/
def new : EslHeaders := ⟨IndexMap.empty, IndexMap.empty⟩

/-- Insert a header under its canonical key, replacing any entry there. -/
def insert (headers : EslHeaders) (key value : Text) : EslHeaders :=
  let key := normalizeHeaderKey key
  let aliases :=
    match caseAliasKey key with
    | some lower => headers.aliases.insert lower key
    | none => headers.aliases
  ⟨headers.map.insert key value, aliases⟩

/-- Wrap an existing map, normalizing every key. -/
def fromMap (map : IndexMap Text Text) : EslHeaders :=
  map.entries.foldl (fun headers entry => headers.insert entry.1 entry.2) new

/-- Look up a header by canonical key, else through its lowercase alias. -/
def headerStr (headers : EslHeaders) (name : Text) : Option Text :=
  match headers.map.get? name with
  | some value => some value
  | none =>
      (caseAliasKey name).bind fun lower =>
        (headers.aliases.get? lower).bind fun canonical => headers.map.get? canonical

end EslHeaders

/-! ### Normalization is idempotent -/

/-- Case mapping touches letters only, so it neither makes nor removes any other ASCII character. -/
theorem caseMap_eq_iff (c : Char) :
    (∀ d ∈ ['-', '_', ':', '\n'], (c.toUpper = d ↔ c = d) ∧ (c.toLower = d ↔ c = d)) ∧
      c.toUpper.toUpper = c.toUpper ∧ c.toLower.toLower = c.toLower ∧
      (Utf8.encode [c.toUpper]).map lowerByte = (Utf8.encode [c]).map lowerByte ∧
      (Utf8.encode [c.toLower]).map lowerByte = (Utf8.encode [c]).map lowerByte := by
  induction c using char_cases with
  | hascii n hn =>
      revert n
      decide +kernel
  | hother c hc =>
      rw [toUpper_of_not_ascii hc, toLower_of_not_ascii hc, toUpper_of_not_ascii hc,
        toLower_of_not_ascii hc]
      simp

theorem mem_titleCaseFrom {d : Char} (hd : d ∈ ['-', '_', ':', '\n']) (capitalizeNext : Bool)
    (text : Text) : d ∈ titleCaseFrom capitalizeNext text ↔ d ∈ text := by
  induction text generalizing capitalizeNext with
  | nil => rfl
  | cons c rest ih =>
      obtain ⟨hupper, hlower⟩ := (caseMap_eq_iff c).1 d hd
      rw [titleCaseFrom]
      split
      · rename_i hdash
        rw [List.mem_cons, List.mem_cons, ih, hdash]
      · split
        · rw [List.mem_cons, List.mem_cons, ih, eq_comm, hupper, eq_comm]
        · rw [List.mem_cons, List.mem_cons, ih, eq_comm, hlower, eq_comm]

theorem titleCaseFrom_idem (capitalizeNext : Bool) (text : Text) :
    titleCaseFrom capitalizeNext (titleCaseFrom capitalizeNext text) =
      titleCaseFrom capitalizeNext text := by
  induction text generalizing capitalizeNext with
  | nil => rfl
  | cons c rest ih =>
      obtain ⟨hmem, hupper, hlower, -⟩ := caseMap_eq_iff c
      obtain ⟨hdashUpper, hdashLower⟩ := hmem '-' (by simp)
      by_cases hdash : c = '-'
      · simp only [titleCaseFrom, if_pos hdash, if_true, ih]
      · cases capitalizeNext with
        | false =>
            have hne : ¬c.toLower = '-' := fun heq => hdash (hdashLower.mp heq)
            simp only [titleCaseFrom, if_neg hdash, if_neg hne, Bool.false_eq_true, if_false, ih,
              hlower]
        | true =>
            have hne : ¬c.toUpper = '-' := fun heq => hdash (hdashUpper.mp heq)
            simp only [titleCaseFrom, if_neg hdash, if_neg hne, if_true, ih, hupper]

theorem lower_encode_titleCaseFrom (capitalizeNext : Bool) (text : Text) :
    (Utf8.encode (titleCaseFrom capitalizeNext text)).map lowerByte =
      (Utf8.encode text).map lowerByte := by
  have hcons : ∀ (c : Char) (rest : Text), Utf8.encode (c :: rest) =
      Utf8.encode [c] ++ Utf8.encode rest := fun c rest => Utf8.encode_append [c] rest
  induction text generalizing capitalizeNext with
  | nil => rfl
  | cons c rest ih =>
      obtain ⟨-, -, -, hupper, hlower⟩ := caseMap_eq_iff c
      rw [titleCaseFrom]
      split
      · rename_i hdash
        rw [hdash, hcons, hcons '-' rest, List.map_append, List.map_append, ih]
      · split
        · rw [hcons, hcons c rest, List.map_append, List.map_append, ih, hupper]
        · rw [hcons, hcons c rest, List.map_append, List.map_append, ih, hlower]

theorem eqIgnoreAsciiCase_iff (left right : Bytes) :
    eqIgnoreAsciiCase left right = true ↔ left.map lowerByte = right.map lowerByte := by
  induction left generalizing right with
  | nil =>
      cases right with
      | nil => simp [eqIgnoreAsciiCase]
      | cons y ys => simp [eqIgnoreAsciiCase]
  | cons x xs ih =>
      cases right with
      | nil => simp [eqIgnoreAsciiCase]
      | cons y ys => simp [eqIgnoreAsciiCase, ih]

/-- Spellings that differ in ASCII case only name the same event header. -/
theorem parseEventHeader_congr {left right : Text}
    (h : (Utf8.encode left).map lowerByte = (Utf8.encode right).map lowerByte) :
    parseEventHeader left = parseEventHeader right := by
  have hsame : ∀ name, eqIgnoreAsciiCase (Utf8.encode left) name =
      eqIgnoreAsciiCase (Utf8.encode right) name := by
    intro name
    rw [Bool.eq_iff_iff, eqIgnoreAsciiCase_iff, eqIgnoreAsciiCase_iff, h]
  simp only [parseEventHeader, hsame]

/-- The bytes of a name are the encoding of its chars. -/
theorem encode_toList (name : String) : Utf8.encode name.toList = name.toUTF8.data.toList := by
  have hbytes : name.toUTF8 = name.toList.utf8Encode := String.utf8Encode_toList.symm
  rw [hbytes, List.utf8Encode, List.data_toByteArray]
  rfl

/-- A recognised name is a wire name, and is recognised as itself. -/
theorem parseEventHeader_some {raw name : Text} (h : parseEventHeader raw = some name) :
    (':' ∉ name ∧ '\n' ∉ name) ∧ parseEventHeader name = some name := by
  -- Decided on the bytes: the kernel reads those of a literal without decoding it.
  have hnames : ∀ name ∈ eventHeaderNames,
      0x3A ∉ name.toUTF8.data.toList ∧ 0x0A ∉ name.toUTF8.data.toList := by decide +kernel
  obtain ⟨found, hfound, rfl⟩ := Option.map_eq_some_iff.mp h
  obtain ⟨hcolon, hfeed⟩ := hnames found (List.mem_of_find?_eq_some hfound)
  rw [← encode_toList] at hcolon hfeed
  refine ⟨⟨fun hmem => hcolon ?_, fun hmem => hfeed ?_⟩, ?_⟩
  · exact List.mem_flatMap.mpr ⟨':', hmem, by decide⟩
  · exact List.mem_flatMap.mpr ⟨'\n', hmem, by decide⟩
  have hmatch := List.find?_some hfound
  have hsame := (eqIgnoreAsciiCase_iff _ _).mp hmatch
  rw [← encode_toList] at hsame
  rw [← parseEventHeader_congr hsame]
  exact h

/-- **A canonical key is its own canonical form.** -/
theorem normalizeHeaderKey_idem (raw : Text) :
    normalizeHeaderKey (normalizeHeaderKey raw) = normalizeHeaderKey raw := by
  cases hparse : parseEventHeader raw with
  | some name =>
      have hraw : normalizeHeaderKey raw = name := by rw [normalizeHeaderKey, hparse]
      rw [hraw, normalizeHeaderKey, (parseEventHeader_some hparse).2]
  | none =>
      by_cases hunderscore : '_' ∈ raw
      · have hraw : normalizeHeaderKey raw = raw := by
          simp only [normalizeHeaderKey, hparse, caseAliasKey, if_pos hunderscore]
        rw [hraw, hraw]
      · have hraw : normalizeHeaderKey raw = titleCaseDashes raw := by
          simp only [normalizeHeaderKey, hparse, caseAliasKey, if_neg hunderscore]
        have hsame : parseEventHeader (titleCaseDashes raw) = none := by
          rw [titleCaseDashes, parseEventHeader_congr (lower_encode_titleCaseFrom true raw), hparse]
        have hnone : '_' ∉ titleCaseDashes raw :=
          fun hmem => hunderscore ((mem_titleCaseFrom (by simp) true raw).mp hmem)
        rw [hraw]
        simp only [normalizeHeaderKey, hsame, caseAliasKey, if_neg hnone]
        exact titleCaseFrom_idem true raw

/-- Normalization brings in no separator of the header syntax. -/
theorem notMem_normalizeHeaderKey {d : Char} (hd : d = ':' ∨ d = '\n') {raw : Text}
    (h : d ∉ raw) : d ∉ normalizeHeaderKey raw := by
  have hmem : d ∈ ['-', '_', ':', '\n'] := by
    rcases hd with rfl | rfl
    all_goals simp
  rw [normalizeHeaderKey]
  split
  · rename_i name hparse
    rcases hd with rfl | rfl
    · exact (parseEventHeader_some hparse).1.1
    · exact (parseEventHeader_some hparse).1.2
  · split
    · exact h
    · rwa [titleCaseDashes, mem_titleCaseFrom hmem]

example : normalizeHeaderKey "unique-id".toList = "Unique-ID".toList := by decide +kernel

example : normalizeHeaderKey "reply-TEXT".toList = "Reply-Text".toList := by decide +kernel

end EslTokio
