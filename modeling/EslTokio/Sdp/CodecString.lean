import EslTokio.Library.Results
import EslTokio.SwitchPasses.ArgumentLine
import EslTokio.Sdp.Error

/-!
# Codec strings

`freeswitch-types/src/sdp/codec_string`: an entry `[modname.]name[~fmtp][@rate h][@ptime i][@bitrate
b] [@channels c]` with its setters, the comma-separated list of entries, and the strict and lenient
parsers.

* `EntryCall`, `Built` — every call that changes an entry, and the entries they reach.
* `CodecStringEntry.toText`, `parseEntry` — an entry as it is rendered and read.
* `Wellformed` — what every call keeps: plain names, and an fmtp the order of the splits leaves
  whole.
* **`codecString_roundTrip`** — what is rendered is read back, strictly and leniently.
-/

namespace EslTokio
namespace Sdp

open Library SwitchPasses

/-- `char::is_ascii_whitespace`. -/
def asciiWhitespace : List Char := [' ', '\t', '\n', '\x0c', '\r']

/-- A char that means something to the grammar. -/
def isGrammar (c : Char) : Bool :=
  [',', '@', '~', '.', '\'', '\\'].contains c || asciiWhitespace.contains c

/-- The first grammar delimiter in a name. -/
def checkNameGrammar (value : Text) : Option Char := value.find? isGrammar

/-- A name that is not empty, breaks no line and has no grammar delimiter. -/
def validateName (name : Text) : Except CodecStringError Text :=
  if name = [] then .error (.invalidCodecName name)
  else if '\n' ∈ name ∨ '\r' ∈ name then .error (.wireInjection "name" name)
  else
    match checkNameGrammar name with
    | some ch => .error (.invalidCharInName "name" ch name)
    | none => .ok name

/-- A single entry in a codec string. -/
structure CodecStringEntry where
  modname : Option Text
  name : Text
  fmtp : Option Text
  rate : Option UInt32
  ptime : Option UInt32
  bitrate : Option UInt32
  channels : Option UInt32
deriving DecidableEq, Repr

/-- Strip trailing spaces from an fmtp value at the point it is set. -/
def normalizeFmtpTrailingSpace (fmtp : Text) : Text := (fmtp.reverse.dropWhile (· = ' ')).reverse

namespace CodecStringEntry

/-- A new entry with a codec name. -/
def new (name : Text) : Except CodecStringError CodecStringEntry := do
  let name ← validateName name
  return ⟨none, name, none, none, none, none, none⟩

/-- Set or replace the codec name. -/
def setName (entry : CodecStringEntry) (name : Text) :
    Except CodecStringError CodecStringEntry := do
  let name ← validateName name
  return { entry with name := name }

/-- Set or replace the module prefix, which may be empty. -/
def setModule (entry : CodecStringEntry) (modname : Text) :
    Except CodecStringError CodecStringEntry :=
  if '\n' ∈ modname ∨ '\r' ∈ modname then .error (.wireInjection "modname" modname)
  else
    match checkNameGrammar modname with
    | some ch => .error (.invalidCharInName "modname" ch modname)
    | none => .ok { entry with modname := some modname }

/-- Set or replace the format parameters. -/
def setFmtp (entry : CodecStringEntry) (fmtp : Text) : Except CodecStringError CodecStringEntry :=
  let fmtp := normalizeFmtpTrailingSpace fmtp
  if '\n' ∈ fmtp ∨ '\r' ∈ fmtp then .error (.wireInjection "fmtp" fmtp)
  else if '@' ∈ fmtp then .error (.atInFmtp fmtp)
  else if '.' ∈ fmtp ∧ entry.modname = none then .error (.dotInFmtpWithoutModule fmtp)
  else .ok { entry with fmtp := some fmtp }

/-- Clear the format parameters. -/
def clearFmtp (entry : CodecStringEntry) : CodecStringEntry := { entry with fmtp := none }

/-- Clear the module prefix, unless a dot in the fmtp would take its place. -/
def clearModule (entry : CodecStringEntry) : Except CodecStringError CodecStringEntry :=
  match entry.fmtp with
  | some fmtp =>
      if '.' ∈ fmtp then .error (.dotInFmtpWithoutModule fmtp)
        else .ok { entry with modname := none }
  | none => .ok { entry with modname := none }

/-- A qualifier as it is rendered. -/
def qualifierText (value : UInt32) (letter : Char) : Text := Text.ofNat value.toNat ++ [letter]

/-- An entry as it is rendered. -/
def toText (entry : CodecStringEntry) : Text :=
  entry.modname.elim [] (· ++ ['.']) ++ entry.name ++
    entry.fmtp.elim [] (fun fmtp => '~' :: escapeInsideToken fmtp (some ',')) ++
    entry.rate.elim [] (fun r => '@' :: qualifierText r 'h') ++
    entry.ptime.elim [] (fun p => '@' :: qualifierText p 'i') ++
    entry.bitrate.elim [] (fun b => '@' :: qualifierText b 'b') ++
    entry.channels.elim [] (fun c => '@' :: qualifierText c 'c')

end CodecStringEntry

/-- A call that changes an entry; a numeric qualifier is set or cleared. -/
inductive EntryCall where
  | setName (name : Text)
  | setModule (modname : Text)
  | setFmtp (fmtp : Text)
  | clearFmtp
  | clearModule
  | rate (value : Option UInt32)
  | ptime (value : Option UInt32)
  | bitrate (value : Option UInt32)
  | channels (value : Option UInt32)
deriving DecidableEq, Repr

namespace EntryCall

/-- What a call makes of an entry. -/
def call (entry : CodecStringEntry) : EntryCall → Except CodecStringError CodecStringEntry
  | .setName name => entry.setName name
  | .setModule modname => entry.setModule modname
  | .setFmtp fmtp => entry.setFmtp fmtp
  | .clearFmtp => .ok entry.clearFmtp
  | .clearModule => entry.clearModule
  | .rate value => .ok { entry with rate := value }
  | .ptime value => .ok { entry with ptime := value }
  | .bitrate value => .ok { entry with bitrate := value }
  | .channels value => .ok { entry with channels := value }

/-- An entry after a call; a call that fails leaves it as it was. -/
def run (entry : CodecStringEntry) (change : EntryCall) : CodecStringEntry :=
  match change.call entry with
  | .ok changed => changed
  | .error _ => entry

/-- No text of a call holds a NUL. -/
def NulFree : EntryCall → Prop
  | .setName text | .setModule text | .setFmtp text => '\x00' ∉ text
  | _ => True

instance (change : EntryCall) : Decidable change.NulFree :=
  match change with
  | .setName text | .setModule text | .setFmtp text => inferInstanceAs (Decidable ('\x00' ∉ text))
  | .clearFmtp | .clearModule | .rate _ | .ptime _ | .bitrate _ | .channels _ => .isTrue trivial

end EntryCall

/-- An entry reached from a new one by any calls over NUL-free texts. -/
def Built (entry : CodecStringEntry) : Prop :=
  ∃ (name : Text) (start : CodecStringEntry) (calls : List EntryCall), '\x00' ∉ name ∧
    (∀ change ∈ calls, EntryCall.NulFree change) ∧
    CodecStringEntry.new name = .ok start ∧ calls.foldl EntryCall.run start = entry

/-! ### The parsers -/

/-- `separate_string_char_delim`: each token of the scan on `delim` through the cleanup. -/
def separateStringCharDelim (text : Text) (delim : Char) : List Text :=
  (charDelim text delim none).spans.map fun span =>
    untrace (cleanup (slice (trace text) span) (some delim))

/-- A codec string's entry tokens. -/
def splitCodecString (text : Text) : List Text := separateStringCharDelim text ','

/-- The value of the leading digits, if they are a `u32`, and what follows them. -/
def atoiPrefix (text : Text) : Option UInt32 × Text :=
  ((Text.parseUnsigned 32 (text.takeWhile Char.isDigit)).map UInt32.ofNat,
    text.dropWhile Char.isDigit)

/-- Which field a part between `@`s sets. -/
inductive Qualifier where
  | ptime
  | rate
  | bitrate
  | channels
deriving DecidableEq, Repr

/-- The qualifier letter of a part, in the switch's own order. -/
def classify (part : Text) : Option Qualifier :=
  if 'i' ∈ part then some .ptime
  else if 'h' ∈ part ∨ 'k' ∈ part then some .rate
  else if 'b' ∈ part then some .bitrate
  else if 'c' ∈ part then some .channels
  else none

/-- Set the field a qualifier names. -/
def Qualifier.assign (value : UInt32) (entry : CodecStringEntry) : Qualifier → CodecStringEntry
  | .ptime => { entry with ptime := some value }
  | .rate => { entry with rate := some value }
  | .bitrate => { entry with bitrate := some value }
  | .channels => { entry with channels := some value }

/-- The warnings of a lenient parse; a strict one has none to add to. -/
abbrev Warnings := Option (List SdpWarning)

/-- A qualifier that is of no use: a strict parse fails, a lenient one records it and goes on. -/
def qualifierFault (part : Text) (reason : String) : Warnings → Except CodecStringError Warnings
  | none => .error (.qualifierParseError part reason)
  | some found => .ok (some (found ++ [.codecStringQualifier part reason]))

/-- Classify one part and assign it. -/
def applyQualifierPart (state : CodecStringEntry × Warnings) (part : Text) :
    Except CodecStringError (CodecStringEntry × Warnings) :=
  match classify part with
  | none => do
      let warnings ← qualifierFault part "no recognised qualifier letter" state.2
      return (state.1, warnings)
  | some qualifier =>
      match (atoiPrefix part).1 with
      | none => do
          let reason := if part.head?.any Char.isDigit then "value overflows u32"
            else "no leading digits"
          let warnings ← qualifierFault part reason state.2
          return (state.1, warnings)
      | some value => .ok (qualifier.assign value state.1, state.2)

/-- The name segment of a token and its qualifier parts; a trailing `@` has an empty one. -/
def splitQualifiers (token : Text) : Text × List Text :=
  match Text.splitFirst '@' token with
  | some (nameSeg, qualifiers) => (nameSeg, qualifiers.splitOn '@')
  | none => (token, [])

/-- What stands before the first `c`, if anything does, and the rest. -/
def splitBefore (c : Char) (text : Text) : Option Text × Text :=
  match Text.splitFirst c text with
  | some (before, after) => (some before, after)
  | none => (none, text)

/-- What stands before the first `c`, and the rest, if there is one. -/
def splitAfter (c : Char) (text : Text) : Text × Option Text :=
  match Text.splitFirst c text with
  | some (before, after) => (before, some after)
  | none => (text, none)

/-- A setter run on a part, if there is one. -/
def setIfSome (set : CodecStringEntry → Text → Except CodecStringError CodecStringEntry)
    (entry : CodecStringEntry) : Option Text → Except CodecStringError CodecStringEntry
  | some text => set entry text
  | none => .ok entry

/-- Parse one entry token: the `@` split, then the `.` split, then the `~` split. -/
def parseEntry (token : Text) (warnings : Warnings) :
    Except CodecStringError (CodecStringEntry × Warnings) := do
  let (nameSeg, qualifiers) := splitQualifiers token
  let (modname, nameAndFmtp) := splitBefore '.' nameSeg
  let (name, fmtp) := splitAfter '~' nameAndFmtp
  let entry ← CodecStringEntry.new name
  let entry ← setIfSome CodecStringEntry.setModule entry modname
  let entry ← setIfSome CodecStringEntry.setFmtp entry fmtp
  qualifiers.foldlM applyQualifierPart (entry, warnings)

/-- A list of codec-string entries. -/
structure CodecString where
  entries : List CodecStringEntry
deriving DecidableEq, Repr

/-- `SWITCH_MAX_CODECS`: the most slots the switch reads. -/
def maxSwitchEntries : Nat := 50

/-- More slots than the switch reads fail a strict parse and are recorded by a lenient one. -/
def checkSlots (slots : Nat) (warnings : Warnings) : Except CodecStringError Warnings :=
  if maxSwitchEntries < slots then
    match warnings with
    | none => .error (.tooManyEntries slots maxSwitchEntries)
    | some found => .ok (some (found ++ [.codecStringTruncated slots maxSwitchEntries]))
  else .ok warnings

/-- One more token of a codec string; an empty one is skipped. -/
def pushToken (state : List CodecStringEntry × Warnings) (token : Text) :
    Except CodecStringError (List CodecStringEntry × Warnings) :=
  if token = [] then .ok state
  else do
    let (entry, warnings) ← parseEntry token state.2
    return (state.1 ++ [entry], warnings)

/-- The parser behind the strict and the lenient one. -/
def parseCodecStringInner (text : Text) (warnings : Warnings) :
    Except CodecStringError (CodecString × Warnings) := do
  let tokens := splitCodecString text
  let warnings ← checkSlots tokens.length warnings
  let (entries, warnings) ← tokens.foldlM pushToken ([], warnings)
  return (⟨entries⟩, warnings)

namespace CodecString

/-- A codec string as it is rendered. -/
def toText (codecs : CodecString) : Text := [','].intercalate (codecs.entries.map (·.toText))

/-- The strict parse. -/
def fromStr (text : Text) : Except CodecStringError CodecString :=
  (parseCodecStringInner text none).map Prod.fst

/-- The lenient parse, with the warnings so far and those it adds. -/
def parseLenient (text : Text) (warnings : List SdpWarning) :
    Except CodecStringError (CodecString × Warnings) :=
  parseCodecStringInner text (some warnings)

end CodecString

/-- Parse a single entry; a comma between two entries is an error. -/
def CodecStringEntry.fromStr (text : Text) : Except CodecStringError CodecStringEntry :=
  match (splitCodecString text).filter (· ≠ []) with
  | [] => .error (.invalidCodecName text)
  | [token] => (parseEntry token none).map Prod.fst
  | _ :: _ :: _ => .error (.multipleEntries text)

/-! ### What every call keeps -/

/-- A text with no grammar delimiter and no NUL. -/
def PlainText (value : Text) : Prop := ∀ c ∈ value, isGrammar c = false ∧ c ≠ '\x00'

/-- What every call keeps: plain names, and an fmtp that ends in no space, breaks no line, has no
`@`, and has a `.` only behind a module prefix. -/
structure Wellformed (entry : CodecStringEntry) : Prop where
  name_ne : entry.name ≠ []
  name : PlainText entry.name
  modname : ∀ m ∈ entry.modname, PlainText m
  fmtp_free : ∀ f ∈ entry.fmtp, '\x00' ∉ f ∧ '\n' ∉ f ∧ '\r' ∉ f ∧ '@' ∉ f
  fmtp_last : ∀ f ∈ entry.fmtp, f.getLast? ≠ some ' '
  dot : ∀ f ∈ entry.fmtp, '.' ∈ f → entry.modname ≠ none

theorem PlainText.notMem {value : Text} (h : PlainText value) {c : Char} (hc : isGrammar c = true) :
    c ∉ value := by
  intro hmem
  rw [(h c hmem).1] at hc
  cases hc

theorem checkNameGrammar_none {value : Text} :
    checkNameGrammar value = none ↔ ∀ c ∈ value, isGrammar c = false := by
  rw [checkNameGrammar, List.find?_eq_none]
  simp

theorem validateName_ok {name valid : Text} :
    validateName name = .ok valid ↔ name ≠ [] ∧ (∀ c ∈ name, isGrammar c = false) ∧
      valid = name := by
  have hgrammar : (∀ c ∈ name, isGrammar c = false) → ¬('\n' ∈ name ∨ '\r' ∈ name) := by
    rintro h (hmem | hmem)
    · exact absurd (h _ hmem) (by decide)
    · exact absurd (h _ hmem) (by decide)
  unfold validateName
  split
  · rename_i hnil
    exact ⟨nofun, fun h => absurd hnil h.1⟩
  · rename_i hne
    split
    · rename_i hbreaks
      exact ⟨nofun, fun h => absurd hbreaks (hgrammar h.2.1)⟩
    · cases hcheck : checkNameGrammar name with
      | some ch =>
          refine ⟨nofun, fun h => ?_⟩
          rw [checkNameGrammar_none.mpr h.2.1] at hcheck
          cases hcheck
      | none =>
          refine ⟨fun h => ⟨hne, checkNameGrammar_none.mp hcheck, (Except.ok.inj h).symm⟩,
            fun h => ?_⟩
          rw [h.2.2]

theorem mem_normalize {fmtp : Text} {c : Char} (h : c ∈ normalizeFmtpTrailingSpace fmtp) :
    c ∈ fmtp := by
  rw [normalizeFmtpTrailingSpace, List.mem_reverse] at h
  exact List.mem_reverse.mp ((List.dropWhile_sublist _).subset h)

theorem getLast?_normalize (fmtp : Text) :
    (normalizeFmtpTrailingSpace fmtp).getLast? ≠ some ' ' := by
  rw [normalizeFmtpTrailingSpace, List.getLast?_reverse]
  intro h
  have := List.head?_dropWhile_not (fun c : Char => decide (c = ' ')) fmtp.reverse
  rw [h] at this
  simp at this

/-- An fmtp that ends in no space is left as it is. -/
theorem normalize_of_last {fmtp : Text} (h : fmtp.getLast? ≠ some ' ') :
    normalizeFmtpTrailingSpace fmtp = fmtp := by
  rw [normalizeFmtpTrailingSpace]
  cases hreverse : fmtp.reverse with
  | nil =>
      rw [List.reverse_eq_nil_iff.mp hreverse]
      rfl
  | cons c rest =>
      have hc : c ≠ ' ' := by
        rintro rfl
        rw [← List.head?_reverse, hreverse] at h
        exact h rfl
      rw [List.dropWhile_cons_of_neg (by simpa using hc), ← hreverse, List.reverse_reverse]

section Calls

variable {entry changed : CodecStringEntry}

theorem Wellformed.new {name : Text} (hname : '\x00' ∉ name)
    (h : CodecStringEntry.new name = .ok entry) :
    Wellformed entry := by
  unfold CodecStringEntry.new at h
  cases hvalid : validateName name with
  | error e =>
      rw [hvalid] at h
      cases h
  | ok valid =>
      rw [hvalid] at h
      obtain rfl := Except.ok.inj h
      obtain ⟨hne, hgrammar, rfl⟩ := validateName_ok.mp hvalid
      exact ⟨hne, fun c hc => ⟨hgrammar c hc, fun heq => hname (heq ▸ hc)⟩, nofun, nofun,
        nofun, nofun⟩

theorem Wellformed.setName (hentry : Wellformed entry) {name : Text} (hname : '\x00' ∉ name)
    (h : entry.setName name = .ok changed) : Wellformed changed := by
  unfold CodecStringEntry.setName at h
  cases hvalid : validateName name with
  | error e =>
      rw [hvalid] at h
      cases h
  | ok valid =>
      rw [hvalid] at h
      obtain rfl := Except.ok.inj h
      obtain ⟨hne, hgrammar, rfl⟩ := validateName_ok.mp hvalid
      exact { hentry with
        name_ne := hne
        name := fun c hc => ⟨hgrammar c hc, fun heq => hname (heq ▸ hc)⟩ }

theorem setModule_ok {modname : Text} :
    entry.setModule modname = .ok changed ↔
      (∀ c ∈ modname, isGrammar c = false) ∧ changed = { entry with modname := some modname } := by
  have hgrammar : (∀ c ∈ modname, isGrammar c = false) → ¬('\n' ∈ modname ∨ '\r' ∈ modname) := by
    rintro h (hmem | hmem)
    · exact absurd (h _ hmem) (by decide)
    · exact absurd (h _ hmem) (by decide)
  unfold CodecStringEntry.setModule
  split
  · rename_i hbreaks
    exact ⟨nofun, fun h => absurd hbreaks (hgrammar h.1)⟩
  · cases hcheck : checkNameGrammar modname with
    | some ch =>
        refine ⟨nofun, fun h => ?_⟩
        rw [checkNameGrammar_none.mpr h.1] at hcheck
        cases hcheck
    | none =>
        exact ⟨fun h => ⟨checkNameGrammar_none.mp hcheck, (Except.ok.inj h).symm⟩,
          fun h => congrArg Except.ok h.2.symm⟩

theorem Wellformed.setModule (hentry : Wellformed entry) {modname : Text}
    (hmodname : '\x00' ∉ modname)
    (h : entry.setModule modname = .ok changed) : Wellformed changed := by
  obtain ⟨hgrammar, rfl⟩ := setModule_ok.mp h
  exact { hentry with
    modname := by
      rintro m hm
      obtain rfl := Option.some.inj hm
      exact fun c hc => ⟨hgrammar c hc, fun heq => hmodname (heq ▸ hc)⟩
    dot := fun _ _ _ => Option.some_ne_none _ }

theorem setFmtp_ok {fmtp : Text} :
    entry.setFmtp fmtp = .ok changed ↔
      ('\n' ∉ normalizeFmtpTrailingSpace fmtp ∧ '\r' ∉ normalizeFmtpTrailingSpace fmtp) ∧
      '@' ∉ normalizeFmtpTrailingSpace fmtp ∧
      ('.' ∈ normalizeFmtpTrailingSpace fmtp → entry.modname ≠ none) ∧
      changed = { entry with fmtp := some (normalizeFmtpTrailingSpace fmtp) } := by
  unfold CodecStringEntry.setFmtp
  simp only
  split_ifs with hbreaks hat hdot
  · simp only [false_iff, not_and]
    exact fun h => absurd hbreaks (not_or.mpr h)
  · simp only [false_iff, not_and]
    exact fun _ h => absurd hat h
  · simp only [false_iff, not_and]
    exact fun _ _ h => absurd hdot.2 (h hdot.1)
  · rw [not_or] at hbreaks
    rw [not_and] at hdot
    exact ⟨fun h => ⟨hbreaks, hat, hdot, (Except.ok.inj h).symm⟩, fun h =>
      congrArg Except.ok h.2.2.2.symm⟩

theorem Wellformed.setFmtp (hentry : Wellformed entry) {fmtp : Text} (hfmtp : '\x00' ∉ fmtp)
    (h : entry.setFmtp fmtp = .ok changed) : Wellformed changed := by
  obtain ⟨⟨hn, hr⟩, hat, hdot, rfl⟩ := setFmtp_ok.mp h
  exact { hentry with
    fmtp_free := by
      rintro f hf
      obtain rfl := Option.some.inj hf
      exact ⟨fun hmem => hfmtp (mem_normalize hmem), hn, hr, hat⟩
    fmtp_last := by
      rintro f hf
      obtain rfl := Option.some.inj hf
      exact getLast?_normalize fmtp
    dot := by
      rintro f hf
      obtain rfl := Option.some.inj hf
      exact hdot }

theorem Wellformed.clearModule (hentry : Wellformed entry) (h : entry.clearModule = .ok changed) :
    Wellformed changed := by
  have hdotless : (∀ f ∈ entry.fmtp, '.' ∉ f) ∧ changed = { entry with modname := none } := by
    unfold CodecStringEntry.clearModule at h
    split at h
    · rename_i fmtp hfmtp
      split at h
      · cases h
      · rename_i hdot
        refine ⟨fun f hf => ?_, (Except.ok.inj h).symm⟩
        obtain rfl := Option.some.inj (hfmtp.symm.trans hf)
        exact hdot
    · rename_i hfmtp
      exact ⟨fun f hf => absurd (hfmtp.symm.trans hf) nofun, (Except.ok.inj h).symm⟩
  obtain ⟨hdot, rfl⟩ := hdotless
  exact { hentry with
    modname := nofun
    dot := fun f hf hmem => absurd hmem (hdot f hf) }

/-- One call, failed or not, keeps an entry well formed. -/
theorem Wellformed.run (hentry : Wellformed entry) {change : EntryCall} (hchange : change.NulFree) :
    Wellformed (EntryCall.run entry change) := by
  unfold EntryCall.run
  cases hcall : change.call entry with
  | error e => exact hentry
  | ok changed =>
      cases change with
      | setName name => exact hentry.setName hchange hcall
      | setModule modname => exact hentry.setModule hchange hcall
      | setFmtp fmtp => exact hentry.setFmtp hchange hcall
      | clearFmtp =>
          obtain rfl := Except.ok.inj hcall
          exact { hentry with
            fmtp_free := nofun
            fmtp_last := nofun
            dot := nofun }
      | clearModule => exact hentry.clearModule hcall
      | rate value =>
          obtain rfl := Except.ok.inj hcall
          exact { hentry with }
      | ptime value =>
          obtain rfl := Except.ok.inj hcall
          exact { hentry with }
      | bitrate value =>
          obtain rfl := Except.ok.inj hcall
          exact { hentry with }
      | channels value =>
          obtain rfl := Except.ok.inj hcall
          exact { hentry with }

end Calls

/-- **Every entry the calls reach is well formed**, in whatever order they are made. -/
theorem Built.wellformed {entry : CodecStringEntry} (h : Built entry) : Wellformed entry := by
  obtain ⟨name, start, calls, hname, hcalls, hstart, rfl⟩ := h
  have hwell := Wellformed.new hname hstart
  clear hstart
  induction calls generalizing start with
  | nil => exact hwell
  | cons change calls ih =>
      obtain ⟨hchange, hlater⟩ := List.forall_mem_cons.mp hcalls
      exact ih (EntryCall.run start change) hlater (hwell.run hchange)

/-! ### An entry as one token -/

namespace CodecStringEntry

/-- The qualifier parts of an entry. -/
def parts (entry : CodecStringEntry) : List Text :=
  (entry.rate.map (qualifierText · 'h')).toList ++ (entry.ptime.map (qualifierText · 'i')).toList ++
    (entry.bitrate.map (qualifierText · 'b')).toList ++
    (entry.channels.map (qualifierText · 'c')).toList

/-- An entry before its first qualifier, with no escape. -/
def nameSeg (entry : CodecStringEntry) : Text :=
  entry.modname.elim [] (· ++ ['.']) ++ entry.name ++ entry.fmtp.elim [] ('~' :: ·)

/-- An entry with no escape: the token its rendering is read as. -/
def token (entry : CodecStringEntry) : Text := entry.nameSeg ++ entry.parts.flatMap ('@' :: ·)

end CodecStringEntry

theorem escapeInsideToken_append (left right : Text) (delim : Option Char) :
    escapeInsideToken (left ++ right) delim = escapeInsideToken left delim ++
      escapeInsideToken right delim :=
  List.flatMap_append

/-- A text with none of what is escaped is written as it is. -/
theorem escapeInsideToken_plain {text : Text}
    (h : ∀ c ∈ text, takesABackslash c (some ',') = false) :
    escapeInsideToken text (some ',') = text := by
  induction text with
  | nil => rfl
  | cons c text ih =>
      obtain ⟨hc, htext⟩ := List.forall_mem_cons.mp h
      rw [escapeInsideToken, List.flatMap_cons, ← escapeInsideToken, ih htext,
        if_neg (by simp [hc])]
      rfl

theorem PlainText.escape {text : Text} (h : PlainText text) :
    escapeInsideToken text (some ',') = text := by
  refine escapeInsideToken_plain fun c hc => ?_
  by_contra htakes
  rw [Bool.not_eq_false, takesABackslash, Bool.or_eq_true, Bool.or_eq_true, decide_eq_true_eq,
    decide_eq_true_eq, decide_eq_true_eq, Option.some.injEq] at htakes
  rcases htakes with (rfl | rfl) | rfl
  all_goals exact absurd (h _ hc).1 (by decide)

theorem mem_qualifierText {value : UInt32} {letter c : Char}
    (h : c ∈ CodecStringEntry.qualifierText value letter) : c.isDigit = true ∨ c = letter := by
  rcases List.mem_append.mp h with hdigit | hletter
  · exact .inl (Text.isDigit_of_mem_ofNat hdigit)
  · exact .inr (List.mem_singleton.mp hletter)

/-- A qualifier part is digits and a letter. -/
theorem mem_parts {entry : CodecStringEntry} {part : Text} (h : part ∈ entry.parts) :
    ∀ c ∈ part, c.isDigit = true ∨ c ∈ ['h', 'i', 'b', 'c'] := by
  have hone : ∀ {value : Option UInt32} {letter : Char}, letter ∈ ['h', 'i', 'b', 'c'] →
      part ∈ (value.map (CodecStringEntry.qualifierText · letter)).toList →
      ∀ c ∈ part, c.isDigit = true ∨ c ∈ ['h', 'i', 'b', 'c'] := by
    intro value letter hletter hpart c hc
    obtain ⟨v, -, rfl⟩ := Option.map_eq_some_iff.mp (Option.mem_toList.mp hpart)
    rcases mem_qualifierText hc with hdigit | rfl
    · exact .inl hdigit
    · exact .inr hletter
  simp only [CodecStringEntry.parts, List.mem_append] at h
  rcases h with ((h | h) | h) | h
  · exact hone (by decide) h
  · exact hone (by decide) h
  · exact hone (by decide) h
  · exact hone (by decide) h

theorem parts_notMem {entry : CodecStringEntry} {c : Char} (hdigit : c.isDigit = false)
    (hletter : c ∉ ['h', 'i', 'b', 'c']) {part : Text} (h : part ∈ entry.parts) : c ∉ part := by
  intro hmem
  rcases mem_parts h c hmem with hc | hc
  · rw [hdigit] at hc
    cases hc
  · exact hletter hc

/-- The rendering of an entry is its token, escaped. -/
theorem toText_eq {entry : CodecStringEntry} (h : Wellformed entry) :
    entry.toText = escapeInsideToken entry.token (some ',') := by
  have hmod : escapeInsideToken (entry.modname.elim [] (· ++ ['.'])) (some ',') =
      entry.modname.elim [] (· ++ ['.']) := by
    cases hmodname : entry.modname with
    | none => rfl
    | some m =>
        rw [Option.elim_some, escapeInsideToken_append, (h.modname m hmodname).escape]
        rfl
  have hfmtp : escapeInsideToken (entry.fmtp.elim [] ('~' :: ·)) (some ',') =
      entry.fmtp.elim [] (fun fmtp => '~' :: escapeInsideToken fmtp (some ',')) := by
    cases entry.fmtp with
    | none => rfl
    | some f => rfl
  have hparts : escapeInsideToken (entry.parts.flatMap ('@' :: ·)) (some ',') =
      entry.parts.flatMap ('@' :: ·) := by
    refine escapeInsideToken_plain fun c hc => ?_
    obtain ⟨part, hpart, hmem⟩ := List.mem_flatMap.mp hc
    by_contra htakes
    rw [Bool.not_eq_false, takesABackslash, Bool.or_eq_true, Bool.or_eq_true, decide_eq_true_eq,
      decide_eq_true_eq, decide_eq_true_eq, Option.some.injEq] at htakes
    have hat : c ≠ '@' := by
      rintro rfl
      revert htakes
      decide
    have hin : c ∈ part := (List.mem_cons.mp hmem).resolve_left hat
    rcases htakes with (rfl | rfl) | rfl
    all_goals exact parts_notMem (by decide) (by decide) hpart hin
  have hjoin : entry.parts.flatMap ('@' :: ·) =
      entry.rate.elim [] (fun r => '@' :: CodecStringEntry.qualifierText r 'h') ++
        entry.ptime.elim [] (fun p => '@' :: CodecStringEntry.qualifierText p 'i') ++
        entry.bitrate.elim [] (fun b => '@' :: CodecStringEntry.qualifierText b 'b') ++
        entry.channels.elim [] (fun c => '@' :: CodecStringEntry.qualifierText c 'c') := by
    have hone : ∀ (value : Option UInt32) (letter : Char),
        (value.map (CodecStringEntry.qualifierText · letter)).toList.flatMap ('@' :: ·) =
          value.elim [] (fun v => '@' :: CodecStringEntry.qualifierText v letter) := by
      intro value letter
      cases value with
      | none => rfl
      | some v => simp
    simp only [CodecStringEntry.parts, List.flatMap_append, hone]
  rw [CodecStringEntry.token, CodecStringEntry.nameSeg, escapeInsideToken_append,
    escapeInsideToken_append,
    escapeInsideToken_append, hmod, hfmtp, hparts, h.name.escape, hjoin, CodecStringEntry.toText]
  simp only [List.append_assoc]

theorem trimmed_escapeInsideToken {text : Text} (h : Trimmed text) (delim : Option Char) :
    Trimmed (escapeInsideToken text delim) := by
  constructor
  · intro d hd
    cases text with
    | nil => cases hd
    | cons c text =>
        rw [escapeInsideToken, List.flatMap_cons] at hd
        split at hd
        · obtain rfl : '\\' = d := Option.some.inj hd
          decide
        · obtain rfl : c = d := Option.some.inj hd
          exact h.head c rfl
  · intro d hd
    rcases List.eq_nil_or_concat text with rfl | ⟨text, c, rfl⟩
    · cases hd
    · have hc : c ≠ ' ' := h.last c (by simp)
      have hlast : (escapeInsideToken [c] delim).getLast? = some c := by
        rw [escapeInsideToken, List.flatMap_singleton]
        split
        · rfl
        · rfl
      rw [List.concat_eq_append, escapeInsideToken_append, List.getLast?_append, hlast] at hd
      obtain rfl : c = d := Option.some.inj hd
      exact hc

theorem mem_token {entry : CodecStringEntry} {c : Char} (h : c ∈ entry.token) :
    (∃ m ∈ entry.modname, c ∈ m) ∨ c ∈ entry.name ∨ (∃ f ∈ entry.fmtp, c ∈ f) ∨
    c ∈ ['.', '~', '@'] ∨
      ∃ part ∈ entry.parts, c ∈ part := by
  rw [CodecStringEntry.token, CodecStringEntry.nameSeg, List.mem_append, List.mem_append,
    List.mem_append] at h
  rcases h with ((hmod | hname) | hfmtp) | hparts
  · cases hm : entry.modname with
    | none =>
        rw [hm] at hmod
        cases hmod
    | some m =>
        rw [hm] at hmod
        rcases List.mem_append.mp hmod with hmem | hdot
        · exact .inl ⟨m, rfl, hmem⟩
        · exact .inr (.inr (.inr (.inl (by simp [List.mem_singleton.mp hdot]))))
  · exact .inr (.inl hname)
  · cases hf : entry.fmtp with
    | none =>
        rw [hf] at hfmtp
        cases hfmtp
    | some f =>
        rw [hf] at hfmtp
        rcases List.mem_cons.mp hfmtp with htilde | hmem
        · exact .inr (.inr (.inr (.inl (by simp [htilde]))))
        · exact .inr (.inr (.inl ⟨f, rfl, hmem⟩))
  · obtain ⟨part, hpart, hmem⟩ := List.mem_flatMap.mp hparts
    rcases List.mem_cons.mp hmem with hat | hin
    · exact .inr (.inr (.inr (.inl (by simp [hat]))))
    · exact .inr (.inr (.inr (.inr ⟨part, hpart, hin⟩)))

namespace Wellformed

variable {entry : CodecStringEntry}

theorem token_free (h : Wellformed entry) : '\x00' ∉ entry.token := by
  intro hmem
  rcases mem_token hmem with ⟨m, hm, hc⟩ | hc | ⟨f, hf, hc⟩ | hc | ⟨part, hpart, hc⟩
  · exact (h.modname m hm _ hc).2 rfl
  · exact (h.name _ hc).2 rfl
  · exact (h.fmtp_free f hf).1 hc
  · exact absurd hc (by decide)
  · exact parts_notMem (by decide) (by decide) hpart hc

theorem token_ne_nil (h : Wellformed entry) : entry.token ≠ [] := by
  intro hnil
  rw [CodecStringEntry.token, CodecStringEntry.nameSeg, List.append_eq_nil_iff,
    List.append_eq_nil_iff, List.append_eq_nil_iff] at hnil
  exact h.name_ne hnil.1.1.2

theorem token_head (h : Wellformed entry) : ∀ c ∈ entry.token.head?, c ≠ ' ' := by
  have hplain : ∀ {value : Text}, PlainText value → ∀ c ∈ value.head?, c ≠ ' ' := by
    rintro value hvalue c hc rfl
    exact hvalue.notMem (by decide) (List.mem_of_mem_head? hc)
  intro c hc
  rw [CodecStringEntry.token, CodecStringEntry.nameSeg, List.append_assoc, List.append_assoc] at hc
  cases hm : entry.modname with
  | none =>
      rw [hm, Option.elim_none, List.nil_append, List.head?_append_of_ne_nil _ h.name_ne] at hc
      exact hplain h.name c hc
  | some m =>
      rw [hm, Option.elim_some, List.append_assoc] at hc
      cases m with
      | nil =>
          obtain rfl : '.' = c := Option.some.inj hc
          decide
      | cons d m =>
          obtain rfl : d = c := Option.some.inj hc
          exact hplain (h.modname _ hm) d rfl

theorem token_last (h : Wellformed entry) : ∀ c ∈ entry.token.getLast?, c ≠ ' ' := by
  rintro c hc rfl
  rw [CodecStringEntry.token, List.getLast?_append] at hc
  cases hparts : (entry.parts.flatMap ('@' :: ·)).getLast? with
  | some d =>
      rw [hparts, Option.some_or] at hc
      obtain rfl : d = ' ' := Option.some.inj hc
      obtain ⟨part, hpart, hmem⟩ := List.mem_flatMap.mp (List.mem_of_getLast? hparts)
      exact parts_notMem (by decide) (by decide) hpart
        ((List.mem_cons.mp hmem).resolve_left (by decide))
  | none =>
      rw [hparts, Option.none_or, CodecStringEntry.nameSeg] at hc
      cases hf : entry.fmtp with
      | none =>
          rw [hf, Option.elim_none, List.append_nil,
            List.getLast?_append_of_ne_nil _ h.name_ne] at hc
          exact h.name.notMem (by decide) (List.mem_of_getLast? hc)
      | some f =>
          rw [hf, Option.elim_some, List.getLast?_append_of_ne_nil _ (List.cons_ne_nil _ _)] at hc
          cases f with
          | nil => exact absurd (Option.some.inj hc) (by decide)
          | cons d f =>
              rw [List.getLast?_cons_cons] at hc
              exact h.fmtp_last _ hf hc

/-- An entry is one token of the split on commas, read as its token. -/
theorem joint (h : Wellformed entry) :
    Joint ',' entry.toText ∧ written (some ',') false entry.toText = entry.token := by
  have htrimmed : Trimmed (escapeInsideToken entry.token (some ',')) :=
    trimmed_escapeInsideToken ⟨h.token_head, h.token_last⟩ _
  have hne : escapeInsideToken entry.token (some ',') ≠ [] := by
    obtain ⟨c, rest, htoken⟩ := List.exists_cons_of_ne_nil h.token_ne_nil
    rw [htoken, escapeInsideToken, List.flatMap_cons]
    split
    · exact List.cons_ne_nil _ _
    · exact List.cons_ne_nil _ _
  rw [toText_eq h]
  exact (Escapes.inside (by decide) h.token_free).joint hne htrimmed

end Wellformed

/-- **A rendered list is split into the tokens of its entries.** -/
theorem splitCodecString_toText {entries : List CodecStringEntry}
    (h : ∀ entry ∈ entries, Wellformed entry) :
    splitCodecString ([','].intercalate (entries.map (·.toText))) = entries.map (·.token) := by
  by_cases hne : entries = []
  · subst hne
    rfl
  · have hjoint : ∀ x ∈ entries.map (·.toText), Joint ',' x := by
      intro x hx
      obtain ⟨entry, hentry, rfl⟩ := List.mem_map.mp hx
      exact (h entry hentry).joint.1
    have hcutting : Cutting ',' := ⟨by decide, by decide, by decide, by decide⟩
    have hroom : Allows none (entries.map (·.toText)).length := nofun
    obtain ⟨-, hspans⟩ := pureCut_joined (.inr hcutting) (by simpa using hne) hjoint hroom
    have hcut : pureCut ([','].intercalate (entries.map (·.toText))) ',' none =
        charDelim ([','].intercalate (entries.map (·.toText))) ',' none := rfl
    have hordered : Ordered 0 (trace ([','].intercalate (entries.map (·.toText)))) :=
      ordered_traceFrom 0 _
    have hchars : chars (trace ([','].intercalate (entries.map (·.toText)))) =
        [','].intercalate (entries.map (·.toText)) := chars_traceFrom 0 _
    rw [splitCodecString, separateStringCharDelim, ← hcut]
    refine (cleaned_joined hordered hjoint (by rw [hchars]; exact hspans)).trans ?_
    rw [List.map_map]
    exact List.map_congr_left fun entry hentry => (h entry hentry).joint.2

/-! ### Reading a token -/

theorem splitFirst_none {c : Char} {text : Text} (h : c ∉ text) :
    Text.splitFirst c text = none := by
  cases hsplit : Text.splitFirst c text with
  | none => rfl
  | some parts =>
      obtain ⟨-, heq⟩ := Text.splitFirst_some hsplit
      exact absurd (by rw [heq]; simp) h

theorem atoiPrefix_qualifierText (value : UInt32) {letter : Char}
    (hletter : letter.isDigit = false) :
    (atoiPrefix (CodecStringEntry.qualifierText value letter)).1 = some value := by
  have hdigits : (CodecStringEntry.qualifierText value letter).takeWhile Char.isDigit =
      Text.ofNat value.toNat := by
    rw [CodecStringEntry.qualifierText, List.takeWhile_append_of_pos fun c hc =>
      Text.isDigit_of_mem_ofNat hc,
      List.takeWhile_cons_of_neg (by rw [hletter]; exact Bool.false_ne_true), List.append_nil]
  have hplus : Text.stripPrefix '+' (Text.ofNat value.toNat) = Text.ofNat value.toNat := by
    cases htext : Text.ofNat value.toNat with
    | nil => rfl
    | cons c rest =>
        have hc : c ≠ '+' := by
          rintro rfl
          have hmem : '+' ∈ Text.ofNat value.toNat := by
            rw [htext]
            exact List.mem_cons_self
          exact absurd (Text.isDigit_of_mem_ofNat hmem) (by decide)
        rw [Text.stripPrefix, if_neg hc]
  have hparse : Text.parseUnsigned 32 (Text.ofNat value.toNat) = some value.toNat := by
    simp only [Text.parseUnsigned, hplus, if_neg (Text.ofNat_ne_nil _), Text.parseDigits_ofNat]
    rw [Option.filter_some, if_pos (by simpa using value.toNat_lt)]
  rw [atoiPrefix]
  simp only [hdigits, hparse, Option.map_some, UInt32.ofNat_toNat]

/-- A qualifier part sets the field of its letter. -/
theorem applyQualifierPart_text {letter : Char} {qualifier : Qualifier} (value : UInt32)
    (hletter : letter.isDigit = false)
    (hclassify : ∀ digits : Text, (∀ c ∈ digits, c.isDigit = true) →
      classify (digits ++ [letter]) = some qualifier) (state : CodecStringEntry × Warnings) :
    applyQualifierPart state (CodecStringEntry.qualifierText value letter) =
      .ok (qualifier.assign value state.1, state.2) := by
  have hpart : classify (CodecStringEntry.qualifierText value letter) = some qualifier :=
    hclassify _ fun c hc => Text.isDigit_of_mem_ofNat hc
  simp only [applyQualifierPart, hpart, atoiPrefix_qualifierText value hletter]

theorem classify_digits {digits : Text} (h : ∀ c ∈ digits, c.isDigit = true) :
    classify (digits ++ ['h']) = some .rate ∧ classify (digits ++ ['i']) = some .ptime ∧
      classify (digits ++ ['b']) = some .bitrate ∧ classify (digits ++ ['c']) = some .channels := by
  have hnot : ∀ c : Char, c.isDigit = false → c ∉ digits := by
    intro c hc hmem
    rw [h c hmem] at hc
    cases hc
  have hi := hnot 'i' (by decide)
  have hh := hnot 'h' (by decide)
  have hk := hnot 'k' (by decide)
  have hb := hnot 'b' (by decide)
  have hc := hnot 'c' (by decide)
  refine ⟨?_, ?_, ?_, ?_⟩
  all_goals simp [classify, hi, hh, hk, hb, hc]

/-- The parts of an entry set its qualifiers. -/
theorem foldlM_parts (entry : CodecStringEntry) (warnings : Warnings) :
    entry.parts.foldlM applyQualifierPart
        ({ entry with rate := none, ptime := none, bitrate := none, channels := none }, warnings) =
      .ok (entry, warnings) := by
  have hrate := fun value =>
    applyQualifierPart_text value (by decide : ('h' : Char).isDigit = false)
    fun _ hdigits => (classify_digits hdigits).1
  have hptime := fun value =>
    applyQualifierPart_text value (by decide : ('i' : Char).isDigit = false)
    fun _ hdigits => (classify_digits hdigits).2.1
  have hbitrate := fun value =>
    applyQualifierPart_text value (by decide : ('b' : Char).isDigit = false)
    fun _ hdigits => (classify_digits hdigits).2.2.1
  have hchannels := fun value =>
    applyQualifierPart_text value (by decide : ('c' : Char).isDigit = false)
    fun _ hdigits => (classify_digits hdigits).2.2.2
  obtain ⟨modname, name, fmtp, rate, ptime, bitrate, channels⟩ := entry
  cases rate
  all_goals cases ptime
  all_goals cases bitrate
  all_goals cases channels
  all_goals
    simp only [CodecStringEntry.parts, Option.map_some, Option.map_none, Option.toList_some,
      Option.toList_none, List.nil_append, List.append_nil, List.foldlM_cons, List.foldlM_nil,
      List.cons_append, hrate, hptime, hbitrate, hchannels, bind, Except.bind, pure,
      Except.pure, Qualifier.assign]

/-- The `@` split takes an entry's token apart into its name segment and its parts. -/
theorem splitQualifiers_token {entry : CodecStringEntry} (h : Wellformed entry) :
    splitQualifiers entry.token = (entry.nameSeg, entry.parts) := by
  have hseg : '@' ∉ entry.nameSeg := by
    intro hmem
    rw [CodecStringEntry.nameSeg, List.mem_append, List.mem_append] at hmem
    rcases hmem with (hmod | hname) | hfmtp
    · cases hm : entry.modname with
      | none =>
          rw [hm] at hmod
          cases hmod
      | some m =>
          rw [hm] at hmod
          rcases List.mem_append.mp hmod with hin | hdot
          · exact (h.modname m hm).notMem (by decide) hin
          · exact absurd (List.mem_singleton.mp hdot) (by decide)
    · exact h.name.notMem (by decide) hname
    · cases hf : entry.fmtp with
      | none =>
          rw [hf] at hfmtp
          cases hfmtp
      | some f =>
          rw [hf] at hfmtp
          exact (h.fmtp_free f hf).2.2.2 ((List.mem_cons.mp hfmtp).resolve_left (by decide))
  have hparts : ∀ part ∈ entry.parts, '@' ∉ part := fun part hpart =>
    parts_notMem (by decide) (by decide) hpart
  rw [splitQualifiers, CodecStringEntry.token]
  cases hlist : entry.parts with
  | nil =>
      rw [List.flatMap_nil, List.append_nil, splitFirst_none hseg]
  | cons part parts =>
      rw [List.flatMap_cons, List.cons_append, Text.splitFirst_append hseg]
      have hjoin : part ++ parts.flatMap ('@' :: ·) = ['@'].intercalate (part :: parts) := by
        clear hlist
        induction parts generalizing part with
        | nil => simp [List.intercalate_singleton]
        | cons next parts ih =>
            rw [List.intercalate_cons_cons, ← ih next, List.flatMap_cons]
            simp
      rw [hlist] at hparts
      simp only [hjoin, List.splitOn_intercalate '@' hparts (List.cons_ne_nil _ _)]

/-- The `.` split takes the module prefix off, since a dot in the fmtp stands behind one. -/
theorem splitBefore_nameSeg {entry : CodecStringEntry} (h : Wellformed entry) :
    splitBefore '.' entry.nameSeg =
      (entry.modname, entry.name ++ entry.fmtp.elim [] ('~' :: ·)) := by
  rw [splitBefore, CodecStringEntry.nameSeg, List.append_assoc]
  cases hm : entry.modname with
  | some m =>
      rw [Option.elim_some, List.append_assoc, List.singleton_append,
        Text.splitFirst_append ((h.modname m hm).notMem (by decide))]
  | none =>
      have hdot : '.' ∉ entry.name ++ entry.fmtp.elim [] ('~' :: ·) := by
        rw [List.mem_append, not_or]
        refine ⟨h.name.notMem (by decide), ?_⟩
        cases hf : entry.fmtp with
        | none => exact nofun
        | some f =>
            rw [Option.elim_some, List.mem_cons, not_or]
            exact ⟨by decide, fun hmem => h.dot f hf hmem hm⟩
      rw [Option.elim_none, List.nil_append, splitFirst_none hdot]

theorem splitAfter_name {entry : CodecStringEntry} (h : Wellformed entry) :
    splitAfter '~' (entry.name ++ entry.fmtp.elim [] ('~' :: ·)) = (entry.name, entry.fmtp) := by
  have htilde : '~' ∉ entry.name := h.name.notMem (by decide)
  rw [splitAfter]
  cases entry.fmtp with
  | none => rw [Option.elim_none, List.append_nil, splitFirst_none htilde]
  | some f => rw [Option.elim_some, Text.splitFirst_append htilde]

/-- **An entry's token is read as the entry**, with nothing to warn of. -/
theorem parseEntry_token {entry : CodecStringEntry} (h : Wellformed entry) (warnings : Warnings) :
    parseEntry entry.token warnings = .ok (entry, warnings) := by
  have hnew : CodecStringEntry.new entry.name = .ok
      ⟨none, entry.name, none, none, none, none, none⟩ := by
    rw [CodecStringEntry.new, validateName_ok.mpr ⟨h.name_ne, fun c hc => (h.name c hc).1, rfl⟩]
    rfl
  have hmodule : setIfSome CodecStringEntry.setModule
      ⟨none, entry.name, none, none, none, none, none⟩
      entry.modname = .ok ⟨entry.modname, entry.name, none, none, none, none, none⟩ := by
    cases hm : entry.modname with
    | none => rfl
    | some m => exact setModule_ok.mpr ⟨fun c hc => (h.modname m hm c hc).1, rfl⟩
  have hfmtp : setIfSome CodecStringEntry.setFmtp ⟨entry.modname, entry.name, none, none,
      none, none, none⟩
      entry.fmtp = .ok ⟨entry.modname, entry.name, entry.fmtp, none, none, none, none⟩ := by
    cases hf : entry.fmtp with
    | none => rfl
    | some f =>
        obtain ⟨-, hn, hr, hat⟩ := h.fmtp_free f hf
        refine setFmtp_ok.mpr ?_
        rw [normalize_of_last (h.fmtp_last f hf)]
        exact ⟨⟨hn, hr⟩, hat, h.dot f hf, rfl⟩
  simp only [parseEntry, splitQualifiers_token h, splitBefore_nameSeg h, splitAfter_name h,
    hnew, hmodule, hfmtp, bind, Except.bind]
  exact foldlM_parts entry warnings

/-! ### Reading a list -/

/-- Tokens of entries are pushed one after the other. -/
theorem foldlM_pushToken {entries : List CodecStringEntry} (h : ∀ entry ∈ entries, Wellformed entry)
    (warnings : Warnings) (before : List CodecStringEntry) :
    (entries.map (·.token)).foldlM pushToken (before, warnings) = .ok
    (before ++ entries, warnings) := by
  induction entries generalizing before with
  | nil =>
      rw [List.append_nil]
      rfl
  | cons entry entries ih =>
      obtain ⟨hentry, hentries⟩ := List.forall_mem_cons.mp h
      have hpush : pushToken (before, warnings) entry.token = .ok
          (before ++ [entry], warnings) := by
        rw [pushToken, if_neg hentry.token_ne_nil, parseEntry_token hentry]
        rfl
      rw [List.map_cons, List.foldlM_cons, hpush]
      refine (ih hentries (before ++ [entry])).trans ?_
      rw [List.append_assoc, List.singleton_append]

/-- A list of well-formed entries within the cap is read back, whatever the parse does with
warnings. -/
theorem parseCodecStringInner_toText {entries : List CodecStringEntry}
    (hlength : entries.length ≤ maxSwitchEntries) (h : ∀ entry ∈ entries, Wellformed entry)
    (warnings : Warnings) :
    parseCodecStringInner (CodecString.toText ⟨entries⟩) warnings = .ok (⟨entries⟩, warnings) := by
  have hslots : checkSlots (entries.map (·.token)).length warnings = .ok warnings := by
    unfold checkSlots
    rw [if_neg (by simpa using hlength)]
  simp only [parseCodecStringInner, CodecString.toText, splitCodecString_toText h, hslots,
    bind, Except.bind, foldlM_pushToken h, List.nil_append]
  rfl

/-- An entry alone is read back. -/
theorem entryFromStr_toText {entry : CodecStringEntry} (h : Wellformed entry) :
    CodecStringEntry.fromStr entry.toText = .ok entry := by
  have htokens : splitCodecString entry.toText = [entry.token] := by
    have hsplit := splitCodecString_toText (List.forall_mem_singleton.mpr h)
    rwa [List.map_singleton, List.intercalate_singleton] at hsplit
  have hfilter : [entry.token].filter (· ≠ []) = [entry.token] :=
    List.filter_eq_self.mpr (List.forall_mem_singleton.mpr (decide_eq_true h.token_ne_nil))
  rw [CodecStringEntry.fromStr, htokens, hfilter]
  simp only [parseEntry_token h]
  rfl

/-! ### What a strict parse returns -/

theorem Wellformed.applyQualifierPart {state state' : CodecStringEntry × Warnings}
    (hstate : Wellformed state.1) {part : Text} (h : applyQualifierPart state part = .ok state') :
    Wellformed state'.1 := by
  unfold Sdp.applyQualifierPart at h
  split at h
  · cases hfault : qualifierFault part "no recognised qualifier letter" state.2 with
    | error e =>
        rw [hfault] at h
        cases h
    | ok warnings =>
        rw [hfault] at h
        obtain rfl := Except.ok.inj h
        exact hstate
  · rename_i qualifier hclassify
    split at h
    · simp only [bind, Except.bind] at h
      split at h
      · cases h
      · obtain rfl := Except.ok.inj h
        exact hstate
    · obtain rfl := Except.ok.inj h
      cases qualifier with
      | ptime => exact { hstate with }
      | rate => exact { hstate with }
      | bitrate => exact { hstate with }
      | channels => exact { hstate with }

theorem mem_of_splitFirst {c d : Char} {text before after : Text}
    (h : Text.splitFirst c text = some (before, after)) (hd : d ∈ before ∨ d ∈ after) :
    d ∈ text := by
  rw [(Text.splitFirst_some h).2]
  rcases hd with hd | hd
  · exact List.mem_append_left _ hd
  · exact List.mem_append_right _ (List.mem_cons_of_mem _ hd)

/-- What a strict or lenient parse makes of a NUL-free token is well formed. -/
theorem Wellformed.parseEntry {token : Text} (htoken : '\x00' ∉ token) {warnings : Warnings}
    {parsed : CodecStringEntry × Warnings} (h : parseEntry token warnings = .ok parsed) :
    Wellformed parsed.1 := by
  have hseg : '\x00' ∉ (splitQualifiers token).1 := by
    rw [splitQualifiers]
    split
    · rename_i hsplit
      exact fun hmem => htoken (mem_of_splitFirst hsplit (.inl hmem))
    · exact htoken
  have hbefore : (∀ m ∈ (splitBefore '.' (splitQualifiers token).1).1, '\x00' ∉ m) ∧
      '\x00' ∉ (splitBefore '.' (splitQualifiers token).1).2 := by
    rw [splitBefore]
    split
    · rename_i hsplit
      refine ⟨fun m hm hmem => ?_, fun hmem => hseg (mem_of_splitFirst hsplit (.inr hmem))⟩
      obtain rfl := Option.some.inj hm
      exact hseg (mem_of_splitFirst hsplit (.inl hmem))
    · exact ⟨nofun, hseg⟩
  have hafter : '\x00' ∉ (splitAfter '~' (splitBefore '.' (splitQualifiers token).1).2).1 ∧
      ∀ f ∈ (splitAfter '~' (splitBefore '.' (splitQualifiers token).1).2).2, '\x00' ∉ f := by
    rw [splitAfter]
    split
    · rename_i hsplit
      refine ⟨fun hmem => hbefore.2 (mem_of_splitFirst hsplit (.inl hmem)), fun f hf hmem => ?_⟩
      obtain rfl := Option.some.inj hf
      exact hbefore.2 (mem_of_splitFirst hsplit (.inr hmem))
    · exact ⟨hbefore.2, nofun⟩
  unfold Sdp.parseEntry at h
  obtain ⟨named, hnamed, h⟩ := bind_ok_iff.mp h
  obtain ⟨prefixed, hprefixed, h⟩ := bind_ok_iff.mp h
  obtain ⟨tuned, htuned, h⟩ := bind_ok_iff.mp h
  have hwell := Wellformed.new hafter.1 hnamed
  have hopens : Wellformed prefixed := by
    unfold setIfSome at hprefixed
    split at hprefixed
    · rename_i m hm
      exact hwell.setModule (hbefore.1 m hm) hprefixed
    · obtain rfl := Except.ok.inj hprefixed
      exact hwell
  have htune : Wellformed tuned := by
    unfold setIfSome at htuned
    split at htuned
    · rename_i f hf
      exact hopens.setFmtp (hafter.2 f hf) htuned
    · obtain rfl := Except.ok.inj htuned
      exact hopens
  exact foldlM_keeps (fun hs (_ : True) hstep => Wellformed.applyQualifierPart hs hstep)
    (fun _ _ => trivial) htune h

/-- The tokens of a NUL-free text are NUL-free. -/
theorem splitCodecString_free {text : Text} (htext : '\x00' ∉ text) :
    ∀ token ∈ splitCodecString text, '\x00' ∉ token := by
  intro token htoken
  obtain ⟨span, -, rfl⟩ := List.mem_map.mp htoken
  have hordered : Ordered 0 (trace text) := ordered_traceFrom 0 text
  have hfree : NulFree (trace text) := by
    rw [nulFree_iff]
    exact (chars_traceFrom 0 text).symm ▸ htext
  have hslice : NulFree (slice (trace text) span) := fun cell hcell =>
    hfree cell (((List.drop_sublist _ _).trans (List.take_sublist _ _)).subset hcell)
  rw [untrace_whole ((hordered.slice span).cleanup _).whole]
  exact (nulFree_iff _).mp (cleanup_nulFree (some ',') hslice)

theorem pushToken_ok {state state' : List CodecStringEntry × Warnings} {token : Text}
    (h : pushToken state token = .ok state') :
    state' = state ∨ ∃ parsed, parseEntry token state.2 = .ok parsed ∧
      state' = (state.1 ++ [parsed.1], parsed.2) := by
  unfold pushToken at h
  split at h
  · exact .inl (Except.ok.inj h).symm
  · obtain ⟨parsed, hparsed, h⟩ := bind_ok_iff.mp h
    exact .inr ⟨parsed, hparsed, (Except.ok.inj h).symm⟩

/-- No token adds more than one entry. -/
theorem length_foldlM_pushToken {tokens : List Text}
    {state state' : List CodecStringEntry × Warnings}
    (h : tokens.foldlM pushToken state = .ok state') :
    state'.1.length ≤ state.1.length + tokens.length := by
  induction tokens generalizing state with
  | nil =>
      obtain rfl := Except.ok.inj h
      exact Nat.le_refl _
  | cons token tokens ih =>
      rw [List.foldlM_cons] at h
      obtain ⟨middle, hmiddle, h⟩ := bind_ok_iff.mp h
      have hlater := ih h
      have hone : middle.1.length ≤ state.1.length + 1 := by
        rcases pushToken_ok hmiddle with rfl | ⟨parsed, -, rfl⟩
        · exact Nat.le_succ _
        · simp
      rw [List.length_cons]
      omega

/-- What a strict parse returns is a list of well-formed entries within the cap. -/
theorem fromStr_wellformed {text : Text} (htext : '\x00' ∉ text) {codecs : CodecString}
    (h : CodecString.fromStr text = .ok codecs) :
    codecs.entries.length ≤ maxSwitchEntries ∧ ∀ entry ∈ codecs.entries, Wellformed entry := by
  unfold CodecString.fromStr at h
  cases hparse : parseCodecStringInner text none with
  | error e =>
      rw [hparse] at h
      cases h
  | ok parsed =>
      rw [hparse] at h
      obtain rfl : parsed.1 = codecs := Except.ok.inj h
      unfold parseCodecStringInner at hparse
      obtain ⟨warnings, hslots, hparse⟩ := bind_ok_iff.mp hparse
      obtain ⟨pushed, hpushed, hparse⟩ := bind_ok_iff.mp hparse
      obtain rfl := Except.ok.inj hparse
      refine ⟨?_, ?_⟩
      · have hcap : (splitCodecString text).length ≤ maxSwitchEntries := by
          unfold checkSlots at hslots
          split at hslots
          · cases hslots
          · rename_i hcap
            exact Nat.le_of_not_lt hcap
        have hlength := length_foldlM_pushToken hpushed
        rw [List.length_nil, Nat.zero_add] at hlength
        exact hlength.trans hcap
      · refine foldlM_keeps (P := fun state => ∀ entry ∈ state.1, Wellformed entry) ?_
          (splitCodecString_free htext) (fun _ hmem => absurd hmem List.not_mem_nil) hpushed
        intro state token state' hstate htoken hpush
        rcases pushToken_ok hpush with rfl | ⟨parsed, hparsed, rfl⟩
        · exact hstate
        · intro entry hentry
          rcases List.mem_append.mp hentry with hold | hnew
          · exact hstate entry hold
          · rw [List.mem_singleton.mp hnew]
            exact Wellformed.parseEntry htoken hparsed

/-- **A codec string is read back**: every list of at most 50 entries the calls reach, strictly and
leniently with no warning added, each such entry alone, and so whatever a strict parse of a NUL-free
text returns. -/
theorem codecString_roundTrip :
    (∀ entries : List CodecStringEntry, entries.length ≤ maxSwitchEntries →
      (∀ entry ∈ entries, Built entry) →
      CodecString.fromStr (CodecString.toText ⟨entries⟩) = .ok ⟨entries⟩ ∧
      ∀ warnings, CodecString.parseLenient (CodecString.toText ⟨entries⟩) warnings =
        .ok (⟨entries⟩, some warnings)) ∧
    (∀ entry, Built entry → CodecStringEntry.fromStr entry.toText = .ok entry) ∧
    ∀ (text : Text) (codecs : CodecString), '\x00' ∉ text → CodecString.fromStr text = .ok codecs →
      CodecString.fromStr codecs.toText = .ok codecs := by
  have hstrict : ∀ {entries : List CodecStringEntry}, entries.length ≤ maxSwitchEntries →
      (∀ entry ∈ entries, Wellformed entry) →
      CodecString.fromStr (CodecString.toText ⟨entries⟩) = .ok ⟨entries⟩ := by
    intro entries hlength hentries
    rw [CodecString.fromStr, parseCodecStringInner_toText hlength hentries]
    rfl
  refine ⟨?_, ?_, ?_⟩
  · intro entries hlength hentries
    have hwell : ∀ entry ∈ entries, Wellformed entry :=
      fun entry hentry => (hentries entry hentry).wellformed
    exact ⟨hstrict hlength hwell, fun warnings =>
      parseCodecStringInner_toText hlength hwell (some warnings)⟩
  · exact fun entry hentry => entryFromStr_toText hentry.wellformed
  · intro text codecs htext hparse
    obtain ⟨hlength, hwell⟩ := fromStr_wellformed htext hparse
    exact hstrict hlength hwell

/-- An entry whose fmtp holds a dot, a comma, a quote and a backslash behind a module prefix. -/
def dottedEntry : CodecStringEntry :=
  ⟨some "mod_evs".toList, "EVS".toList, some "br=13.2,'\\".toList, some 16000, none, none, some 2⟩

theorem dottedEntry_roundTrip :
    CodecString.fromStr (CodecString.toText ⟨[dottedEntry, dottedEntry]⟩) = .ok
      ⟨[dottedEntry, dottedEntry]⟩ ∧
      CodecStringEntry.fromStr dottedEntry.toText = .ok dottedEntry ∧
      CodecString.fromStr (CodecString.toText ⟨[]⟩) = .ok ⟨[]⟩ := by
  have hbuilt : Built dottedEntry :=
    ⟨"EVS".toList, ⟨none, "EVS".toList, none, none, none, none, none⟩,
      [.setModule "mod_evs".toList, .setFmtp "br=13.2,'\\ ".toList, .clearModule,
      .rate (some 16000),
        .channels (some 2)],
      by decide +kernel, by decide +kernel, by decide +kernel, by decide +kernel⟩
  refine ⟨?_, codecString_roundTrip.2.1 dottedEntry hbuilt, ?_⟩
  · refine (codecString_roundTrip.1 [dottedEntry, dottedEntry] (by decide) ?_).1
    exact List.forall_mem_cons.mpr ⟨hbuilt, List.forall_mem_singleton.mpr hbuilt⟩
  · exact codecString_roundTrip.2.2 [] ⟨[]⟩ nofun rfl

end Sdp
end EslTokio
