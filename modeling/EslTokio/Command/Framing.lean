import EslTokio.Command.Wire

/-!
# One command, one frame

A peer reads a command as a header block up to the first `\n\n`, followed by as many bytes as the
block's `Content-Length` says.  Every field on a command line or in a header is refused when it
holds a line terminator, and the body is counted by the builder, so the only way to desynchronize
the peer is a length that the caller's own event brings along: it is copied verbatim, beside the
builder's.

* `readCommandFrame` — the framing rule.
* `EslCommand.SingleFrame` — one frame of this command, with nothing left over or missing.
* `readCommandFrame_block`, `EslCommand.buildFromEvent_ok` — a rendered command is a block of lines
  and a payload, and is read back as that.
* **`EslCommand.toWireFormat_ok`** — every accepted command is rendered from one line and one event.
* **`EslCommand.singleFrame_iff`** — when the frame is whole.
-/

namespace EslTokio

open Library

/-! ### Reading a command off the wire -/

/-- The value of a line that reads as a `Content-Length` header. -/
def contentLengthValue (line : Text) : Option Text :=
  match parseHeaderLine line with
  | .ok (some (key, value)) => if key = headerContentLength then some value else none
  | _ => none

/-- The number a `Content-Length` value says. -/
def lengthOf (value : Text) : Option Nat :=
  let digits := Text.stripPrefix '+' value
  if digits = [] then none else Text.parseDigits 0 digits

/-- The length a block announces: none of its headers means no body. -/
def announcedLength : List Text → Option Nat
  | [] => some 0
  | value :: _ => lengthOf value

/-- One command as its peer reads it. -/
structure CommandFrame where
  commandLine : Text
  /-- The value of every `Content-Length` header. -/
  contentLengths : List Text
  body : Bytes

/-- Read one frame: a header block up to the first `\n\n`, then as many bytes as it announces.  The
second component is what is left; `none` waits for bytes that are not there. -/
def readCommandFrame (wire : Bytes) : Option (CommandFrame × Bytes) := do
  let pos ← Search.find headerTerminator wire
  let block ← (Utf8.decode (wire.take pos)).toOption
  let contentLengths := (Text.lines block).tail.filterMap contentLengthValue
  let length ← announcedLength contentLengths
  let rest := wire.drop (pos + headerTerminator.length)
  if rest.length < length then none
  else some (⟨(Text.lines block).headD [], contentLengths, rest.take length⟩, rest.drop length)

namespace EslCommand

/-- A verb and its arguments, separated by spaces. -/
def words (verb : Text) (args : List Text) : Text :=
  args.foldl (fun line arg => line ++ ' ' :: arg) verb

/-- The command line: the verb and the fields that belong on it. -/
def commandLine : EslCommand → Text
  | auth password => words "auth".toList [password]
  | userAuth user password => words "userauth".toList [user ++ ':' :: password]
  | api command => words "api".toList [command]
  | bgApi command => words "bgapi".toList [command]
  | events format list => words "event".toList [format, list]
  | filter header value => words "filter".toList [header, value]
  | sendMsg uuid _ | execute _ _ uuid _ => words "sendmsg".toList uuid.toList
  | exit => words "exit".toList []
  | log level => words "log".toList [level]
  | noLog => words "nolog".toList []
  | noOp => words "noop".toList []
  | sendEvent event =>
      words "sendevent".toList [(event.headerStr EslEvent.eventName).getD []]
  | myEvents format uuid => words "myevents".toList (uuid.toList ++ [format])
  | linger timeoutSecs => words "linger".toList (timeoutSecs.toList.map Text.ofNat)
  | noLinger => words "nolinger".toList []
  | resume => words "resume".toList []
  | nixEvent list => words "nixevent".toList [list]
  | noEvents => words "noevents".toList []
  | filterDelete header value =>
      if header = "all".toList then words "filter".toList ["delete".toList, "all".toList]
      else words "filter".toList ("delete".toList :: header :: value.toList)
  | filterDeleteAll => words "filter".toList ["delete".toList, "all".toList]
  | divertEvents on => words "divert_events".toList [if on then "on".toList else "off".toList]
  | getVar name => words "getvar".toList [name]
  | connect => words "connect".toList []

/-- The body a command carries. -/
def carriedBody : EslCommand → Text
  | sendMsg _ event | sendEvent event => event.body.getD []
  | _ => []

/-- The wire text is exactly one frame of this command. -/
def SingleFrame (command : EslCommand) (wire : Text) : Prop :=
  ∃ frame, readCommandFrame (Utf8.encode wire) = some (frame, []) ∧
    frame.commandLine = command.commandLine ∧
    frame.contentLengths.length ≤ 1 ∧
    (∀ value ∈ frame.contentLengths,
      lengthOf value = some (Utf8.encode command.carriedBody).length) ∧
    frame.body = Utf8.encode command.carriedBody

end EslCommand

/-- A header line of a command. -/
def headerLine (entry : Text × Text) : Text := entry.1 ++ ": ".toList ++ entry.2

/-- The `Content-Length` values an event's own headers put into a command. -/
def EslEvent.contentLengthValues (event : EslEvent) : List Text :=
  event.headers.map.entries.filterMap fun entry =>
    contentLengthValue (headerLine entry)

/-- No header of the event reads as a `Content-Length`, or the event has no body and one header
announces none. -/
def EslEvent.LengthFree (event : EslEvent) : Prop :=
  event.contentLengthValues = [] ∨
    event.body = none ∧ ∃ value, event.contentLengthValues = [value] ∧ lengthOf value = some 0

/-- The events a caller hands over carry no length of their own. -/
def EslCommand.LengthFree : EslCommand → Prop
  | .sendMsg _ event | .sendEvent event => event.LengthFree
  | _ => True

/-! ### One command, one frame -/

/-- No line terminator occurs in the text. -/
def SingleLine (text : Text) : Prop := '\n' ∉ text ∧ '\r' ∉ text

instance (text : Text) : Decidable (SingleLine text) :=
  inferInstanceAs (Decidable ('\n' ∉ text ∧ '\r' ∉ text))

@[simp] theorem singleLine_nil : SingleLine [] := by decide

@[simp] theorem singleLine_append (left right : Text) :
    SingleLine (left ++ right) ↔ SingleLine left ∧ SingleLine right := by
  simp only [SingleLine, List.mem_append, not_or]
  tauto

@[simp] theorem singleLine_cons (c : Char) (text : Text) :
    SingleLine (c :: text) ↔ (c ≠ '\n' ∧ c ≠ '\r') ∧ SingleLine text := by
  simp only [SingleLine, List.mem_cons, not_or, ne_eq, eq_comm (a := c)]
  tauto

theorem validateNoNewlines_then {α : Type} {text context : Text} {next : Except EslError α}
    {result : α} :
    ((validateNoNewlines text context >>= fun _ => next) = .ok result) ↔
      SingleLine text ∧ next = .ok result := by
  by_cases hbreaks : '\n' ∈ text ∨ '\r' ∈ text
  · rw [validateNoNewlines, if_pos hbreaks]
    simp only [bind, Except.bind, reduceCtorEq, false_iff, not_and]
    intro hline
    exact absurd hbreaks (not_or.mpr hline)
  · rw [validateNoNewlines, if_neg hbreaks]
    exact (and_iff_right (not_or.mp hbreaks)).symm

theorem validateOptional_then {α : Type} {text : Option Text} {context : Text}
    {next : Except EslError α} {result : α} :
    ((validateOptional text context >>= fun _ => next) = .ok result) ↔
      (∀ value ∈ text, SingleLine value) ∧ next = .ok result := by
  cases text with
  | none => simp [validateOptional, bind, Except.bind]
  | some text =>
      rw [validateOptional, validateNoNewlines_then]
      simp

theorem singleLine_ofNat (n : Nat) : SingleLine (Text.ofNat n) := by
  refine ⟨fun hmem => ?_, fun hmem => ?_⟩
  all_goals exact absurd (Text.isDigit_of_mem_ofNat hmem) (by decide)

/-- A block of lines followed by a payload is read as that command line, the lengths of its header
lines and as much of the payload as the first of them announces. -/
theorem readCommandFrame_block {commandLine : Text} {headerLines : List Text}
    (hblock : BlockLines '\n' (commandLine :: headerLines))
    (hcr : ∀ line ∈ commandLine :: headerLines, '\r' ∉ line) (body : Text) :
    readCommandFrame
        (Utf8.encode (renderLines '\n' (commandLine :: headerLines) ++ '\n' :: body)) =
      (announcedLength (headerLines.filterMap contentLengthValue)).bind fun length =>
        if (Utf8.encode body).length < length then none
        else some (⟨commandLine, headerLines.filterMap contentLengthValue,
          (Utf8.encode body).take length⟩, (Utf8.encode body).drop length) := by
  have hne : commandLine :: headerLines ≠ [] := List.cons_ne_nil _ _
  have hfind := find_blankLine (by simp) hblock.encode (Utf8.encode body)
  have hlines : Text.lines (renderLines '\n' (commandLine :: headerLines)).dropLast =
      commandLine :: headerLines :=
    Text.lines_renderLines_dropLast hblock fun line hmem =>
      Text.stripSuffix_of_notMem (hcr line hmem)
  have hlast : (renderLines '\n' (commandLine :: headerLines)).dropLast ++ ['\n'] =
      renderLines '\n' (commandLine :: headerLines) := dropLast_renderLines_append hne
  set block := (renderLines '\n' (commandLine :: headerLines)).dropLast with hdef
  have hbytes : Utf8.encode (renderLines '\n' (commandLine :: headerLines) ++ '\n' :: body) =
      Utf8.encode block ++ 0x0A :: 0x0A :: Utf8.encode body := by
    rw [← hlast]
    simp only [Utf8.encode_append, List.append_assoc]
    rfl
  have hlength : (renderLines 0x0A ((commandLine :: headerLines).map Utf8.encode)).length - 1 =
      (Utf8.encode block).length := by
    rw [← encode_renderLines, ← hlast, Utf8.encode_append, List.length_append]
    rfl
  have hfound : Search.find headerTerminator
      (Utf8.encode block ++ 0x0A :: 0x0A :: Utf8.encode body) =
        some (Utf8.encode block).length := by
    rw [← hlength, ← hfind, ← encode_renderLines, ← hlast, Utf8.encode_append,
      List.append_assoc]
    rfl
  have hdrop : (Utf8.encode block ++ 0x0A :: 0x0A :: Utf8.encode body).drop
      ((Utf8.encode block).length + headerTerminator.length) = Utf8.encode body := by
    simp [List.drop_append, headerTerminator]
  rw [hbytes, readCommandFrame, hfound]
  simp only [Option.bind_eq_bind, Option.bind_some, List.take_left, Utf8.decode_encode, hlines,
    hdrop, Except.toOption, List.tail_cons, List.headD_cons]

/-! ### What the builder renders -/

theorem CommandBuilder.build_eq (builder : CommandBuilder) :
    builder.build =
      renderLines '\n' (builder.command :: builder.headers.entries.map headerLine) ++
        bodySection builder.body := by
  have hheaders : (builder.headers.entries.flatMap fun entry =>
      entry.1 ++ ": ".toList ++ entry.2 ++ ['\n']) =
        renderLines '\n' (builder.headers.entries.map headerLine) := by
    rw [renderLines, List.flatMap_map]
    rfl
  rw [build, hheaders, renderLines_cons]
  simp

namespace EslCommand

/-- Accepted headers are all one-line, and are kept in order. -/
theorem addHeaders_ok {entries : List (Text × Text)} {builder result : CommandBuilder}
    (h : addHeaders builder entries = .ok result) :
    (∀ entry ∈ entries, SingleLine entry.1 ∧ SingleLine entry.2) ∧
      result = { builder with
        headers := entries.foldl (fun map pair => map.insert pair.1 pair.2) builder.headers } := by
  induction entries generalizing builder with
  | nil =>
      obtain rfl : builder = result := Except.ok.inj h
      exact ⟨List.forall_mem_nil _, rfl⟩
  | cons entry entries ih =>
      rw [addHeaders, CommandBuilder.header, bind_assoc, validateNoNewlines_then, bind_assoc,
        validateNoNewlines_then] at h
      obtain ⟨hname, hvalue, hrest⟩ := h
      obtain ⟨hentries, hresult⟩ := ih hrest
      refine ⟨?_, hresult⟩
      intro other hother
      rcases List.mem_cons.mp hother with rfl | hother
      · exact ⟨hname, hvalue⟩
      · exact hentries other hother

/-- **A command built from an event is a block of lines and a payload**, the lines being the command
line, the event's headers and the length of a body. -/
theorem buildFromEvent_ok {cmd wire : Text} {event : EslEvent}
    (h : buildFromEvent cmd event = .ok wire) :
    (∀ entry ∈ event.headers.map.entries, SingleLine entry.1 ∧ SingleLine entry.2) ∧
      wire = renderLines '\n' (cmd :: (event.headers.map.entries.map headerLine ++
        event.body.toList.map lengthLine)) ++ '\n' :: event.body.getD [] := by
  rw [buildFromEvent] at h
  cases hadd : addHeaders (CommandBuilder.new cmd) event.headers.map.entries with
  | error e =>
      rw [hadd] at h
      cases h
  | ok builder =>
      obtain ⟨hentries, rfl⟩ := addHeaders_ok hadd
      refine ⟨hentries, ?_⟩
      have hmap : (event.headers.map.entries.foldl (fun map pair => map.insert pair.1 pair.2)
          IndexMap.empty).entries = event.headers.map.entries :=
        IndexMap.entries_foldl_insert _ IndexMap.empty event.headers.map.nodup
      rw [hadd] at h
      rw [← List.cons_append, ← renderLines_append_bodySection]
      cases hbody : event.body with
      | none =>
          simp only [hbody, bind, Except.bind, Except.ok.injEq] at h
          rw [← h, CommandBuilder.build_eq]
          simp only [CommandBuilder.new, hmap]
      | some body =>
          simp only [hbody, bind, Except.bind, Except.ok.injEq] at h
          rw [← h, CommandBuilder.build_eq]
          simp only [CommandBuilder.new, CommandBuilder.setBody, hmap]

end EslCommand

/-- A line whose key has no colon is split behind its key. -/
theorem parseHeaderLine_headerLine {entry : Text × Text} (hname : ':' ∉ entry.1)
    (hline : '\r' ∉ headerLine entry) :
    parseHeaderLine (headerLine entry) = .ok (some (normalizeHeaderKey entry.1, entry.2)) := by
  have hsplit : headerLine entry = entry.1 ++ ':' :: ' ' :: entry.2 := by
    rw [headerLine, List.append_assoc]
    rfl
  have hne : headerLine entry ≠ [] := by simp [hsplit]
  simp only [parseHeaderLine, Text.stripSuffix_of_notMem hline, if_neg hne]
  rw [hsplit, Text.splitFirst_append hname]
  rfl

/-- A line whose key has no colon and is no spelling of `Content-Length` announces nothing. -/
theorem contentLengthValue_headerLine {entry : Text × Text} (hname : ':' ∉ entry.1)
    (hkey : normalizeHeaderKey entry.1 ≠ headerContentLength) :
    contentLengthValue (headerLine entry) = none := by
  obtain ⟨rest, hstrip⟩ : ∃ rest, Text.stripSuffix '\r' (headerLine entry) =
      entry.1 ++ ':' :: rest := by
    rw [Text.stripSuffix, headerLine, List.append_assoc]
    split
    · exact ⟨(' ' :: entry.2).dropLast,
        by simp [List.dropLast_append_of_ne_nil, List.dropLast_cons_of_ne_nil]⟩
    · exact ⟨' ' :: entry.2, rfl⟩
  have hne : entry.1 ++ ':' :: rest ≠ [] := by simp
  simp only [contentLengthValue, parseHeaderLine, hstrip, if_neg hne, Text.splitFirst_append hname,
    if_neg hkey]

theorem singleLine_lengthLine (body : Text) : SingleLine (lengthLine body) := by
  have hname : SingleLine "Content-Length: ".toList := by decide
  exact (singleLine_append _ _).mpr ⟨hname, singleLine_ofNat _⟩

theorem lengthLine_ne_nil (body : Text) : lengthLine body ≠ [] :=
  List.append_ne_nil_of_left_ne_nil (by decide) _

theorem contentLengthValue_lengthLine (body : Text) :
    contentLengthValue (lengthLine body) = some (Text.ofNat (Utf8.encode body).length) := by
  have hkey : normalizeHeaderKey headerContentLength = headerContentLength := by decide +kernel
  have hcolon : ':' ∉ headerContentLength := by decide
  have hline : lengthLine body =
      headerLine (headerContentLength, Text.ofNat (Utf8.encode body).length) := rfl
  rw [contentLengthValue, hline, parseHeaderLine_headerLine hcolon]
  · simp only [hkey, if_true]
  · rw [← hline]
    exact (singleLine_lengthLine body).2

theorem lengthOf_ofNat (n : Nat) : lengthOf (Text.ofNat n) = some n := by
  have hplus : Text.stripPrefix '+' (Text.ofNat n) = Text.ofNat n := by
    have hdigit : ∀ c ∈ Text.ofNat n, c.isDigit = true := fun c hc => Text.isDigit_of_mem_ofNat hc
    generalize Text.ofNat n = digits at hdigit
    cases digits with
    | nil => rfl
    | cons c digits =>
        have hc : c ≠ '+' := by
          rintro rfl
          exact absurd (hdigit '+' List.mem_cons_self) (by decide)
        rw [Text.stripPrefix, if_neg hc]
  simp only [lengthOf, hplus, Text.ofNat_ne_nil, if_false, Text.parseDigits_ofNat]

namespace EslCommand

/-- The frame read back from a command built from an event: the payload is all of the body, if the
lengths of the block announce it. -/
theorem readCommandFrame_buildFromEvent {cmd wire : Text} {event : EslEvent} (hcmd : cmd ≠ [])
    (hline : SingleLine cmd) (h : buildFromEvent cmd event = .ok wire) :
    readCommandFrame (Utf8.encode wire) =
      (announcedLength (event.contentLengthValues ++
        event.body.toList.map fun body => Text.ofNat (Utf8.encode body).length)).bind fun length =>
          if (Utf8.encode (event.body.getD [])).length < length then none
          else some (⟨cmd, event.contentLengthValues ++
              event.body.toList.map fun body => Text.ofNat (Utf8.encode body).length,
            (Utf8.encode (event.body.getD [])).take length⟩,
            (Utf8.encode (event.body.getD [])).drop length) := by
  obtain ⟨hentries, rfl⟩ := buildFromEvent_ok h
  have hlines : ∀ line ∈ cmd :: (event.headers.map.entries.map headerLine ++
      event.body.toList.map lengthLine), line ≠ [] ∧ SingleLine line := by
    intro line hmem
    rcases List.mem_cons.mp hmem with rfl | hmem
    · exact ⟨hcmd, hline⟩
    · rcases List.mem_append.mp hmem with hmem | hmem
      · obtain ⟨entry, hentry, rfl⟩ := List.mem_map.mp hmem
        obtain ⟨hname, hvalue⟩ := hentries entry hentry
        refine ⟨by simp [headerLine], ?_⟩
        rw [headerLine, singleLine_append, singleLine_append]
        exact ⟨⟨hname, by decide⟩, hvalue⟩
      · obtain ⟨body, -, rfl⟩ := List.mem_map.mp hmem
        exact ⟨lengthLine_ne_nil body, singleLine_lengthLine body⟩
  have hvalues : (event.headers.map.entries.map headerLine ++
      event.body.toList.map lengthLine).filterMap contentLengthValue =
        event.contentLengthValues ++
          event.body.toList.map fun body => Text.ofNat (Utf8.encode body).length := by
    rw [List.filterMap_append, List.filterMap_map, EslEvent.contentLengthValues]
    congr 1
    cases event.body with
    | none => rfl
    | some body => simp [contentLengthValue_lengthLine]
  rw [readCommandFrame_block (fun line hmem => ⟨(hlines line hmem).1, (hlines line hmem).2.1⟩)
    (fun line hmem => (hlines line hmem).2.2), hvalues]

/-- **The frame of an event is whole exactly when the event brings no length of its own.** -/
theorem frame_iff_lengthFree {cmd wire : Text} {event : EslEvent} (hcmd : cmd ≠ [])
    (hline : SingleLine cmd) (h : buildFromEvent cmd event = .ok wire) :
    (∃ frame, readCommandFrame (Utf8.encode wire) = some (frame, []) ∧
      frame.commandLine = cmd ∧ frame.contentLengths.length ≤ 1 ∧
      (∀ value ∈ frame.contentLengths,
        lengthOf value = some (Utf8.encode (event.body.getD [])).length) ∧
      frame.body = Utf8.encode (event.body.getD [])) ↔ event.LengthFree := by
  rw [readCommandFrame_buildFromEvent hcmd hline h, EslEvent.LengthFree]
  -- The values in the block: those of the event, then the builder's own for a body.
  cases hvalues : event.contentLengthValues with
  | nil =>
      refine ⟨fun _ => .inl rfl, fun _ => ?_⟩
      cases hbody : event.body with
      | none =>
          exact ⟨⟨cmd, [], []⟩, rfl, rfl, Nat.zero_le 1, nofun, rfl⟩
      | some body =>
          refine ⟨⟨cmd, [Text.ofNat (Utf8.encode body).length], Utf8.encode body⟩, ?_, rfl,
            Nat.le_refl 1, ?_, rfl⟩
          · simp [announcedLength, lengthOf_ofNat]
          · intro value hvalue
            rw [List.mem_singleton.mp hvalue]
            exact lengthOf_ofNat _
  | cons value values =>
      constructor
      · rintro ⟨frame, hframe, -, hone, hlengths, -⟩
        obtain ⟨length, -, hframe⟩ := Option.bind_eq_some_iff.mp hframe
        split at hframe
        · cases hframe
        · obtain ⟨rfl, -⟩ := Prod.mk.inj (Option.some.inj hframe)
          -- A second value, of the event or for its body, would already be one too many.
          cases hbody : event.body with
          | none =>
              rw [hbody] at hone hlengths
              obtain rfl : values = [] := by
                simp only [List.cons_append, List.length_cons, List.length_append] at hone
                exact List.length_eq_zero_iff.mp (by omega)
              exact .inr ⟨rfl, value, rfl, hlengths value List.mem_cons_self⟩
          | some body =>
              rw [hbody] at hone
              simp at hone
      · rintro (hnone | ⟨hbody, other, hother, hzero⟩)
        · cases hnone
        · rw [hbody]
          obtain ⟨rfl, rfl⟩ := List.cons.inj hother
          refine ⟨⟨cmd, [value], []⟩, ?_, rfl, Nat.le_refl 1, ?_, rfl⟩
          · simp [announcedLength, hzero]
          · intro given hgiven
            rw [List.mem_singleton.mp hgiven]
            exact hzero

/-- The event whose headers and body a command is sent with. -/
def carriedEvent : EslCommand → EslEvent
  | sendMsg _ event | sendEvent event => event
  | execute app args _ options => executeEvent app args options
  | _ => EslEvent.new

theorem buildFromEvent_new (line : Text) :
    buildFromEvent line EslEvent.new = .ok (line ++ "\n\n".toList) := by
  have hbuild : buildFromEvent line EslEvent.new = .ok (CommandBuilder.new line).build := rfl
  rw [hbuild, CommandBuilder.build_eq]
  simp [CommandBuilder.new, IndexMap.empty, bodySection]

theorem sendeventName_ok {event : EslEvent} {name : Text} (h : sendeventName event = .ok name) :
    event.headerStr EslEvent.eventName = some name := by
  rw [sendeventName, EslEvent.eventType] at h
  cases hheader : event.headerStr EslEvent.eventName with
  | none =>
      rw [hheader] at h
      cases h
  | some value =>
      rw [hheader, Option.bind_some] at h
      cases hparse : EslEventType.parseEventType value with
      | none =>
          rw [hparse] at h
          exact congrArg some (Except.ok.inj h)
      | some eventType =>
          rw [hparse] at h
          rw [← EslEventType.asStr_of_parseEventType hparse]
          exact congrArg some (Except.ok.inj h)

theorem words_ne_nil {verb : Text} (hverb : verb ≠ []) (args : List Text) :
    words verb args ≠ [] := by
  induction args generalizing verb with
  | nil => exact hverb
  | cons arg args ih => exact ih (by simp)

theorem singleLine_words {verb : Text} {args : List Text} (hverb : SingleLine verb)
    (hargs : ∀ arg ∈ args, SingleLine arg) : SingleLine (words verb args) := by
  induction args generalizing verb with
  | nil => exact hverb
  | cons arg args ih =>
      have harg := hargs arg List.mem_cons_self
      refine ih ?_ fun other hother => hargs other (List.mem_cons_of_mem _ hother)
      exact (singleLine_append _ _).mpr ⟨hverb, (singleLine_cons _ _).mpr ⟨by decide, harg⟩⟩

/-- The line of a command: non-empty, one line, and what the wire text is built on. -/
def Renders (line : Text) (event : EslEvent) (wire : Text) : Prop :=
  line ≠ [] ∧ SingleLine line ∧ buildFromEvent line event = .ok wire

theorem Renders.words {verb : Text} {args : List Text} {event : EslEvent} {wire : Text}
    (hverb : verb ≠ [] ∧ SingleLine verb) (hargs : ∀ arg ∈ args, SingleLine arg)
    (hwire : buildFromEvent (words verb args) event = .ok wire) :
    Renders (words verb args) event wire :=
  ⟨words_ne_nil hverb.1 args, singleLine_words hverb.2 hargs, hwire⟩

/-- A simple command is built on its words, from an event with nothing in it. -/
theorem Renders.simple {verb : Text} {args : List Text} {wire : Text}
    (hverb : verb ≠ [] ∧ SingleLine verb) (hargs : ∀ arg ∈ args, SingleLine arg)
    (hwire : Except.ok (formatSimpleCommand verb args) = (.ok wire : Except EslError Text)) :
    Renders (EslCommand.words verb args) EslEvent.new wire := by
  obtain rfl := Except.ok.inj hwire
  exact .words hverb hargs (buildFromEvent_new _)

theorem Renders.sendMsg {uuid : Option Text} {event : EslEvent} {wire : Text}
    (huuid : ∀ value ∈ uuid, SingleLine value)
    (hwire : buildFromEvent (sendMsgLine uuid) event = .ok wire) :
    Renders (EslCommand.words "sendmsg".toList uuid.toList) event wire := by
  have hline : sendMsgLine uuid = EslCommand.words "sendmsg".toList uuid.toList := by
    cases uuid with
    | none => rfl
    | some uuid => rfl
  rw [hline] at hwire
  exact .words (by decide) (fun arg harg => huuid arg (Option.mem_toList.mp harg)) hwire

theorem Renders.sendEvent {event : EslEvent} {name wire : Text}
    (hname : event.headerStr EslEvent.eventName = some name) (hline : SingleLine name)
    (hwire : buildFromEvent ("sendevent ".toList ++ name) event = .ok wire) :
    Renders (EslCommand.sendEvent event).commandLine event wire := by
  have hverb : "sendevent ".toList = "sendevent".toList ++ [' '] := rfl
  rw [hverb, List.append_assoc] at hwire
  rw [commandLine, hname, Option.getD_some]
  exact .words (by decide) (by simpa using hline) hwire

/-- **An accepted command has a one-line command line**, and its wire text is built from the event
it carries. -/
theorem toWireFormat_ok {command : EslCommand} {wire : Text}
    (h : command.toWireFormat = .ok wire) :
    Renders command.commandLine command.carriedEvent wire := by
  rw [toWireFormat] at h
  cases command with
  | auth password =>
      obtain ⟨hpassword, hwire⟩ := validateNoNewlines_then.mp h
      exact .simple (by decide) (by simpa using hpassword) hwire
  | userAuth user password =>
      rw [validate, bind_assoc, validateNoNewlines_then, validateNoNewlines_then] at h
      obtain ⟨huser, hpassword, hwire⟩ := h
      refine .simple (by decide) ?_ hwire
      simp [huser, hpassword]
  | api command =>
      obtain ⟨hcommand, hwire⟩ := validateNoNewlines_then.mp h
      exact .simple (by decide) (by simpa using hcommand) hwire
  | bgApi command =>
      obtain ⟨hcommand, hwire⟩ := validateNoNewlines_then.mp h
      exact .simple (by decide) (by simpa using hcommand) hwire
  | events format list =>
      rw [validate, bind_assoc, validateNoNewlines_then, validateNoNewlines_then] at h
      obtain ⟨hformat, hlist, hwire⟩ := h
      exact .simple (by decide) (by simp [hformat, hlist]) hwire
  | filter header value =>
      rw [validate, bind_assoc, validateNoNewlines_then, validateNoNewlines_then] at h
      obtain ⟨hheader, hvalue, hwire⟩ := h
      exact .simple (by decide) (by simp [hheader, hvalue]) hwire
  | sendMsg uuid event =>
      obtain ⟨huuid, hwire⟩ := validateOptional_then.mp h
      exact .sendMsg huuid hwire
  | execute app args uuid options =>
      rw [validate, bind_assoc, validateNoNewlines_then, bind_assoc, validateOptional_then,
        validateOptional_then, render, sendMsgToWireFormat, validate, validateOptional_then] at h
      obtain ⟨-, -, huuid, -, hwire⟩ := h
      exact .sendMsg huuid hwire
  | log level =>
      obtain ⟨hlevel, hwire⟩ := validateNoNewlines_then.mp h
      exact .simple (by decide) (by simpa using hlevel) hwire
  | sendEvent event =>
      cases hname : sendeventName event with
      | error e =>
          simp only [validate, hname, bind, Except.bind] at h
          cases h
      | ok name =>
          rw [validate, hname] at h
          obtain ⟨hline, hwire⟩ := validateNoNewlines_then.mp h
          rw [render, hname] at hwire
          exact .sendEvent (sendeventName_ok hname) hline hwire
  | myEvents format uuid =>
      rw [validate, bind_assoc, validateNoNewlines_then, validateOptional_then] at h
      obtain ⟨hformat, huuid, hwire⟩ := h
      cases uuid with
      | none => exact .simple (by decide) (by simpa using hformat) hwire
      | some uuid =>
          exact .simple (by decide) (by simp [hformat, huuid uuid rfl]) hwire
  | linger timeoutSecs =>
      cases timeoutSecs with
      | none => exact .simple (by decide) (List.forall_mem_nil _) h
      | some timeoutSecs =>
          refine .simple (by decide) ?_ h
          intro arg harg
          rw [List.mem_singleton.mp harg]
          exact singleLine_ofNat timeoutSecs
  | nixEvent list =>
      obtain ⟨hlist, hwire⟩ := validateNoNewlines_then.mp h
      exact .simple (by decide) (by simpa using hlist) hwire
  | filterDelete header value =>
      rw [validate, bind_assoc, validateNoNewlines_then, validateOptional_then] at h
      obtain ⟨hheader, hvalue, hwire⟩ := h
      simp only [render] at hwire
      rw [commandLine]
      split at hwire
      · rename_i hall
        rw [if_pos hall]
        exact .simple (by decide) (by decide) hwire
      · rename_i hall
        rw [if_neg hall]
        cases value with
        | none => exact .simple (by decide) (by simp [hheader]) hwire
        | some value =>
            exact .simple (by decide) (by simp [hheader, hvalue value rfl]) hwire
  | divertEvents on =>
      cases on with
      | false => exact .simple (by decide) (by decide) h
      | true => exact .simple (by decide) (by decide) h
  | getVar name =>
      obtain ⟨hname, hwire⟩ := validateNoNewlines_then.mp h
      exact .simple (by decide) (by simpa using hname) hwire
  | filterDeleteAll => exact .simple (by decide) (by decide) h
  | exit | noLog | noOp | noLinger | resume | noEvents | connect =>
      exact .simple (by decide) (List.forall_mem_nil _) h

/-- The header keys an `execute` can set. -/
def executeKeys : List Text :=
  ["call-command", "execute-app-name", "execute-app-arg", "event-lock", "async", "loops"].map
    fun name => normalizeHeaderKey name.toList

/-- Every header of the event is one an `execute` sets. -/
def ExecuteKeyed (event : EslEvent) : Prop :=
  ∀ key ∈ event.headers.map.entries.map Prod.fst, key ∈ executeKeys

theorem ExecuteKeyed.setHeader {event : EslEvent} (h : ExecuteKeyed event) {name : Text}
    (hname : normalizeHeaderKey name ∈ executeKeys) (value : Text) :
    ExecuteKeyed (event.setHeader name value) := by
  intro key hkey
  rcases IndexMap.mem_map_fst_insertEntry.mp hkey with rfl | hkey
  · exact hname
  · exact h key hkey

theorem ExecuteKeyed.setOptionalHeader {event : EslEvent} (h : ExecuteKeyed event) {name : Text}
    (hname : normalizeHeaderKey name ∈ executeKeys) (value : Option Text) :
    ExecuteKeyed (setOptionalHeader event name value) := by
  cases value with
  | none => exact h
  | some value => exact h.setHeader hname value

theorem executeEvent_keyed (app : Text) (args : Option Text) (options : ExecuteOptions) :
    ExecuteKeyed (executeEvent app args options) := by
  have hnames : ∀ name ∈ ["call-command", "execute-app-name", "execute-app-arg", "event-lock",
      "async", "loops"], normalizeHeaderKey name.toList ∈ executeKeys :=
    fun name hname => List.mem_map_of_mem hname
  have hnew : ExecuteKeyed EslEvent.new := nofun
  have hcall := hnew.setHeader (hnames "call-command" (by simp)) "execute".toList
  have happ := hcall.setHeader (hnames "execute-app-name" (by simp)) app
  have harg := happ.setOptionalHeader (hnames "execute-app-arg" (by simp)) args
  have hlock := harg.setOptionalHeader (hnames "event-lock" (by simp))
    (if options.eventLock then some "true".toList else none)
  have hasync := hlock.setOptionalHeader (hnames "async" (by simp))
    (if options.asyncMode then some "true".toList else none)
  exact hasync.setOptionalHeader (hnames "loops" (by simp)) _

/-- An `execute` carries no length and no body. -/
theorem executeEvent_lengthFree (app : Text) (args : Option Text) (options : ExecuteOptions) :
    (executeEvent app args options).LengthFree := by
  have hkeys : ∀ key ∈ executeKeys, ':' ∉ key ∧ normalizeHeaderKey key ≠ headerContentLength := by
    decide +kernel
  refine .inl (List.filterMap_eq_nil_iff.mpr fun entry hentry => ?_)
  obtain ⟨hcolon, hkey⟩ := hkeys entry.1
    (executeEvent_keyed app args options entry.1 (List.mem_map_of_mem hentry))
  exact contentLengthValue_headerLine hcolon hkey

theorem setOptionalHeader_body (event : EslEvent) (name : Text) (value : Option Text) :
    (setOptionalHeader event name value).body = event.body := by
  cases value with
  | none => rfl
  | some value => rfl

theorem executeEvent_body (app : Text) (args : Option Text) (options : ExecuteOptions) :
    (executeEvent app args options).body = none := by
  simp only [executeEvent, setOptionalHeader_body]
  rfl

theorem carriedBody_eq (command : EslCommand) :
    command.carriedBody = command.carriedEvent.body.getD [] := by
  cases command with
  | execute app args uuid options => rw [carriedEvent, executeEvent_body]; rfl
  | _ => rfl

theorem lengthFree_iff (command : EslCommand) :
    command.LengthFree ↔ command.carriedEvent.LengthFree := by
  have hnew : EslEvent.new.LengthFree := .inl rfl
  cases command with
  | execute app args uuid options =>
      exact iff_of_true trivial (executeEvent_lengthFree app args options)
  | sendMsg uuid event => exact Iff.rfl
  | sendEvent event => exact Iff.rfl
  | _ => exact iff_of_true trivial hnew

/-- **One command, one frame**: an accepted command is read back as one whole frame exactly when no
event handed over by the caller brings a `Content-Length` of its own. -/
theorem singleFrame_iff (command : EslCommand) (wire : Text)
    (h : command.toWireFormat = .ok wire) :
    command.SingleFrame wire ↔ command.LengthFree := by
  obtain ⟨hne, hline, hbuild⟩ := toWireFormat_ok h
  rw [SingleFrame, carriedBody_eq, lengthFree_iff]
  exact frame_iff_lengthFree hne hline hbuild

/-- A message with a body, for a channel named on the command line. -/
def textMessage : EslCommand :=
  sendMsg (some "a1b2".toList)
    ((EslEvent.new.setHeader "call-command".toList "execute".toList).setBody "hi\n\nthere".toList)

theorem singleFrame_iff_textMessage :
    textMessage.toWireFormat = .ok
        "sendmsg a1b2\nCall-Command: execute\nContent-Length: 9\n\nhi\n\nthere".toList ∧
      textMessage.SingleFrame
        "sendmsg a1b2\nCall-Command: execute\nContent-Length: 9\n\nhi\n\nthere".toList := by
  have hwire : textMessage.toWireFormat = .ok
      "sendmsg a1b2\nCall-Command: execute\nContent-Length: 9\n\nhi\n\nthere".toList := by
    decide +kernel
  have hvalues : (EslEvent.new.setHeader "call-command".toList "execute".toList).contentLengthValues
      = [] := by decide +kernel
  exact ⟨hwire, (singleFrame_iff _ _ hwire).mpr (.inl hvalues)⟩

/-- A message whose event announces no body and has one. -/
def smugglingMessage : EslCommand :=
  sendMsg none ((EslEvent.new.setHeader "content-length".toList "0".toList).setBody
    "exit\n\n".toList)

/-- The body of the message is read as a second command. -/
theorem smuggled_exit :
    ∃ wire, smugglingMessage.toWireFormat = .ok wire ∧ ¬smugglingMessage.SingleFrame wire := by
  have hwire : smugglingMessage.toWireFormat = .ok
      "sendmsg\nContent-Length: 0\nContent-Length: 6\n\nexit\n\n".toList := by
    decide +kernel
  have hread : (readCommandFrame (Utf8.encode
      "sendmsg\nContent-Length: 0\nContent-Length: 6\n\nexit\n\n".toList)).map Prod.snd =
        some (Utf8.encode "exit\n\n".toList) := by
    decide +kernel
  refine ⟨_, hwire, ?_⟩
  rintro ⟨frame, hframe, -⟩
  rw [hframe, Option.map_some] at hread
  have hleft : ([] : Bytes) ≠ Utf8.encode "exit\n\n".toList := by decide +kernel
  exact hleft (Option.some.inj hread)

end EslCommand

end EslTokio
