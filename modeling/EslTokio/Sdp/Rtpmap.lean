import EslTokio.Sdp.Codecs
import Mathlib.Data.List.TakeWhile

/-!
# The grammar of an rtpmap value

`codecs/attrs.rs` reads an `a=rtpmap` value with a cursor that skips white space on both sides of a
number and before a name.

* `Rtpmap` — the values of the attribute: a payload type, a name, a clock rate and an optional
  channel count.
* `number_append`, `number_eq_some` — what the cursor takes of a number, and where it stops.
* **`parseRtpmap_exact`** — the values the parser accepts are those of the grammar, and every
  encoding is read back from its plain spelling.
-/

namespace EslTokio
namespace Sdp

open Library

/-! ### The grammar -/

/-- A space or a tab. -/
def isWs (c : Char) : Bool := c = ' ' || c = '\t'

/-- A run of spaces and tabs. -/
def Blank (text : Text) : Prop := ∀ c ∈ text, isWs c = true

/-- A run of digits and its value. -/
structure DigitRun (digits : Text) (n : Nat) : Prop where
  nonempty : digits ≠ []
  isDigit : ∀ c ∈ digits, c.isDigit = true
  value : Nat.ofDigitChars 10 digits 0 = n

/-- An encoding name: some text without white space or a `/`. -/
structure EncodingName (name : Text) : Prop where
  nonempty : name ≠ []
  plain : ∀ c ∈ name, c ≠ ' ' ∧ c ≠ '\t' ∧ c ≠ '/'

/-- What stands behind a clock rate: nothing, a `/` alone, or a `/` and a channel count. -/
inductive RtpmapTail : Text → Option UInt32 → Prop
  | absent : RtpmapTail [] none
  | empty {ws : Text} (hws : Blank ws) : RtpmapTail ('/' :: ws) none
  | count {ws digits ws' : Text} {channels : UInt32} (hws : Blank ws)
      (hdigits : DigitRun digits channels.toNat) (hws' : Blank ws') :
      RtpmapTail ('/' :: (ws ++ (digits ++ ws'))) (some channels)

/-- An rtpmap value: `WS* D1 WS* name "/" WS* D2 WS*` and a tail, `D1` a maximal run of digits. -/
inductive Rtpmap : Text → UInt8 → Encoding → Prop
  | mk {ws digits gap name ws' rate ws'' tail : Text} {pt : UInt8} {clockRate : UInt32}
      {channels : Option UInt32} (hws : Blank ws) (hpt : DigitRun digits pt.toNat)
      (hgap : Blank gap)
      (hname : EncodingName name) (hmaximal : Text.Stops Char.isDigit (gap ++ name))
      (hws' : Blank ws')
      (hrate : DigitRun rate clockRate.toNat) (hws'' : Blank ws'')
      (htail : RtpmapTail tail channels) :
      Rtpmap (ws ++ (digits ++ (gap ++ (name ++ '/' :: (ws' ++ (rate ++ (ws'' ++ tail)))))))
        pt ⟨name, clockRate, channels⟩

/-- The plain spelling of an rtpmap value. -/
def rtpmapText (pt : UInt8) (encoding : Encoding) : Text :=
  Text.ofNat pt.toNat ++ ' ' :: (encoding.name ++ '/' :: (Text.ofNat encoding.clockRate.toNat ++
    (encoding.channels.elim [] fun channels => '/' :: Text.ofNat channels.toNat)))

/-! ### Digits and white space -/

theorem digitRun_ofNat (n : Nat) : DigitRun (Text.ofNat n) n :=
  ⟨Text.ofNat_ne_nil n, fun _ hc => Text.isDigit_of_mem_ofNat hc, Nat.ofDigitChars_ten_toDigits⟩

theorem isWs_of_isDigit {c : Char} (h : c.isDigit = true) : isWs c = false := by
  simp only [isWs, Bool.or_eq_false_iff, decide_eq_false_iff_not]
  constructor
  · rintro rfl
    exact absurd h (by decide)
  · rintro rfl
    exact absurd h (by decide)

theorem isDigit_of_isWs {c : Char} (h : isWs c = true) : c.isDigit = false := by
  by_contra hdigit
  rw [isWs_of_isDigit (by simpa using hdigit)] at h
  cases h

theorem DigitRun.stops {digits : Text} {n : Nat} (h : DigitRun digits n) (rest : Text) :
    Text.Stops isWs (digits ++ rest) := by
  cases digits with
  | nil => exact absurd rfl h.nonempty
  | cons c digits => exact Text.stops_cons (isWs_of_isDigit (h.isDigit c List.mem_cons_self)) _

theorem EncodingName.stops {name : Text} (h : EncodingName name) (rest : Text) :
    Text.Stops isWs (name ++ rest) := by
  cases name with
  | nil => exact absurd rfl h.nonempty
  | cons c name =>
      obtain ⟨hspace, htab, -⟩ := h.plain c List.mem_cons_self
      exact Text.stops_cons (by simp [isWs, hspace, htab]) _

theorem RtpmapTail.stops {tail : Text} {channels : Option UInt32} (h : RtpmapTail tail channels) :
    Text.Stops isWs tail ∧ Text.Stops Char.isDigit tail := by
  cases h with
  | absent => exact ⟨Text.stops_nil _, Text.stops_nil _⟩
  | empty _ => exact ⟨Text.stops_cons (by decide) _, Text.stops_cons (by decide) _⟩
  | count _ _ _ => exact ⟨Text.stops_cons (by decide) _, Text.stops_cons (by decide) _⟩

theorem Blank.stops_isDigit {ws rest : Text} (h : Blank ws) (hrest : Text.Stops Char.isDigit rest) :
    Text.Stops Char.isDigit (ws ++ rest) := by
  cases ws with
  | nil => exact hrest
  | cons c ws => exact Text.stops_cons (isDigit_of_isWs (h c List.mem_cons_self)) _

theorem blank_nil : Blank [] := fun _ hc => absurd hc (by simp)

theorem skipWs_append {ws rest : Text} (hws : Blank ws) (hrest : Text.Stops isWs rest) :
    skipWs (ws ++ rest) = rest :=
  Text.dropWhile_append_of_stops hws hrest

theorem skipWs_of_stops {text : Text} (h : Text.Stops isWs text) : skipWs text = text :=
  skipWs_append blank_nil h

/-- White space is skipped up to where it stops. -/
theorem skipWs_split (text : Text) :
    ∃ ws, Blank ws ∧ text = ws ++ skipWs text ∧ Text.Stops isWs (skipWs text) :=
  ⟨text.takeWhile isWs, fun _ hc => List.mem_takeWhile_imp hc, List.takeWhile_append_dropWhile.symm,
    Text.stops_dropWhile isWs text⟩

/-! ### The cursor -/

/-- The digits of a number are read whole. -/
theorem parseUnsigned_digits {digits : Text} (h : ∀ c ∈ digits, c.isDigit = true)
    (hne : digits ≠ []) :
    Text.parseUnsigned 32 digits =
      if Nat.ofDigitChars 10 digits 0 < 2 ^ 32 then some (Nat.ofDigitChars 10 digits 0)
        else none := by
  have hplus : Text.stripPrefix '+' digits = digits := by
    cases digits with
    | nil => rfl
    | cons c digits =>
        have hc : c ≠ '+' := by
          rintro rfl
          exact absurd (h '+' List.mem_cons_self) (by decide)
        rw [Text.stripPrefix, if_neg hc]
  simp only [Text.parseUnsigned, hplus, if_neg hne, Text.parseDigits_of_isDigit h,
    Option.filter_some, decide_eq_true_eq]

/-- A number is read with the white space around it, up to where digits and white space stop. -/
theorem number_append {bound : Nat} {ws digits ws' rest : Text} {value : UInt32} (hws : Blank ws)
    (hdigits : DigitRun digits value.toNat) (hws' : Blank ws') (hbound : value.toNat < bound)
    (hrest : Text.Stops isWs rest) (hmaximal : Text.Stops Char.isDigit (ws' ++ rest)) :
    number bound (ws ++ (digits ++ (ws' ++ rest))) = some (value, rest) := by
  have hread : Text.parseUnsigned 32 digits = some value.toNat := by
    rw [parseUnsigned_digits hdigits.isDigit hdigits.nonempty, hdigits.value, if_pos value.toNat_lt]
  have hatoi : atoiPrefix (digits ++ (ws' ++ rest)) = (some value, ws' ++ rest) := by
    rw [atoiPrefix, Text.takeWhile_append_of_stops hdigits.isDigit hmaximal,
      Text.dropWhile_append_of_stops hdigits.isDigit hmaximal, hread, Option.map_some,
      UInt32.ofNat_toNat]
  rw [number, skipWs_append hws (hdigits.stops _), hatoi]
  simp only [if_pos hbound, skipWs_append hws' hrest]

/-- A number that is read is a maximal run of digits with white space around it. -/
theorem number_eq_some {bound : Nat} {text rest : Text} {value : UInt32}
    (h : number bound text = some (value, rest)) :
    ∃ ws digits ws', text = ws ++ (digits ++ (ws' ++ rest)) ∧ Blank ws ∧
      DigitRun digits value.toNat ∧
      Blank ws' ∧ value.toNat < bound ∧ Text.Stops isWs rest ∧
        Text.Stops Char.isDigit (ws' ++ rest) := by
  obtain ⟨ws, hws, htext, -⟩ := skipWs_split text
  unfold number at h
  generalize hskipped : skipWs text = skipped at h htext
  have hdigits : ∀ c ∈ skipped.takeWhile Char.isDigit, c.isDigit = true :=
    fun c hc => List.mem_takeWhile_imp hc
  have hnonempty : skipped.takeWhile Char.isDigit ≠ [] := by
    intro hnil
    rw [atoiPrefix, hnil] at h
    cases h
  have hread := parseUnsigned_digits hdigits hnonempty
  obtain ⟨ws', hws', hafter, hstops⟩ := skipWs_split (skipped.dropWhile Char.isDigit)
  have hmaximal := Text.stops_dropWhile Char.isDigit skipped
  by_cases hlt : Nat.ofDigitChars 10 (skipped.takeWhile Char.isDigit) 0 < 2 ^ 32
  · rw [if_pos hlt] at hread
    simp only [atoiPrefix, hread, Option.map_some] at h
    split_ifs at h with hbound
    obtain ⟨rfl, rfl⟩ := Prod.mk.inj (Option.some.inj h)
    refine ⟨ws, skipped.takeWhile Char.isDigit, ws', ?_, hws, ⟨hnonempty, hdigits, ?_⟩,
      hws', hbound, hstops, ?_⟩
    · rw [← hafter, List.takeWhile_append_dropWhile]
      exact htext
    · rw [UInt32.toNat_ofNat_of_lt' hlt]
    · rw [← hafter]
      exact hmaximal
  · rw [if_neg hlt] at hread
    simp only [atoiPrefix, hread, Option.map_none] at h
    cases h

/-- A name is read up to the `/` behind it. -/
theorem field_name {name : Text} (h : EncodingName name) (rest : Text) :
    field ['/'] (name ++ '/' :: rest) = (name, '/' :: rest) := by
  have hname : ∀ c ∈ name, (!(c = ' ' || c = '\t' || ['/'].contains c)) = true := by
    intro c hc
    obtain ⟨hspace, htab, hslash⟩ := h.plain c hc
    simp [hspace, htab, hslash]
  have hslash : Text.Stops (fun c => !(c = ' ' || c = '\t' || ['/'].contains c)) ('/' :: rest) :=
    Text.stops_cons (by decide) rest
  rw [field, skipWs_of_stops (h.stops _)]
  simp only [Text.takeWhile_append_of_stops hname hslash,
    Text.dropWhile_append_of_stops hname hslash]

/-- A name that is read has neither white space nor a `/`, and stands where white space stops. -/
theorem field_split {text : Text} (hstops : Text.Stops isWs text)
    (hne : (field ['/'] text).1 ≠ []) :
    EncodingName (field ['/'] text).1 ∧ text = (field ['/'] text).1 ++ (field ['/'] text).2 := by
  simp only [field, skipWs_of_stops hstops] at hne ⊢
  refine ⟨⟨hne, ?_⟩, List.takeWhile_append_dropWhile.symm⟩
  intro c hc
  have htakes := List.mem_takeWhile_imp hc
  simp only [Bool.not_eq_true', Bool.or_eq_false_iff, decide_eq_false_iff_not, List.contains_eq_mem,
    List.mem_singleton] at htakes
  exact ⟨htakes.1.1, htakes.1.2, htakes.2⟩

theorem eat_eq_some {c : Char} {text rest : Text} (h : eat c text = some rest) :
    text = c :: rest := by
  cases text with
  | nil => cases h
  | cons head text =>
      rw [eat] at h
      split_ifs at h with hhead
      rw [hhead, Option.some.inj h]

/-- The channels behind a clock rate are read to the end exactly when they are a tail of the
grammar. -/
theorem rtpmapChannels_iff {text : Text} {channels : Option UInt32}
    (hstops : Text.Stops isWs text) :
    rtpmapChannels text = some (channels, []) ↔ RtpmapTail text channels := by
  constructor
  · intro h
    unfold rtpmapChannels at h
    cases heat : eat '/' text with
    | none =>
        simp only [heat, Option.some.injEq, Prod.mk.injEq] at h
        obtain ⟨rfl, rfl⟩ := h
        exact .absent
    | some rest =>
        obtain rfl := eat_eq_some heat
        obtain ⟨ws, hws, hrest, -⟩ := skipWs_split rest
        simp only [heat] at h
        split_ifs at h with hempty
        · obtain ⟨rfl, -⟩ := Prod.mk.inj (Option.some.inj h)
          rw [hrest, hempty, List.append_nil]
          exact .empty hws
        · obtain ⟨⟨value, after⟩, hnumber, hparsed⟩ := Option.map_eq_some_iff.mp h
          obtain ⟨rfl, rfl⟩ := Prod.mk.inj hparsed
          obtain ⟨ws', digits, ws'', htext, hws', hdigits, hws'', -, -, -⟩ := number_eq_some hnumber
          have hblank : Blank (ws ++ ws') := by
            intro c hc
            rcases List.mem_append.mp hc with hc | hc
            · exact hws c hc
            · exact hws' c hc
          rw [hrest, htext, ← List.append_assoc, List.append_nil]
          exact .count hblank hdigits hws''
  · intro h
    cases h with
    | absent => rfl
    | @empty ws hws =>
        have hskip : skipWs ws = [] := by
          have happend := skipWs_append hws (Text.stops_nil isWs)
          rwa [List.append_nil] at happend
        simp [rtpmapChannels, eat, hskip]
    | @count ws digits ws' value hws hdigits hws' =>
        have hskip := skipWs_append hws (hdigits.stops ws')
        have hne : digits ++ ws' ≠ [] := by simp [hdigits.nonempty]
        have hblank : Text.Stops Char.isDigit (ws' ++ []) := hws'.stops_isDigit (Text.stops_nil _)
        have hnumber : number (2 ^ 32) (digits ++ ws') = some (value, []) := by
          have happend := number_append blank_nil hdigits hws' value.toNat_lt
            (Text.stops_nil isWs) hblank
          rwa [List.append_nil, List.nil_append] at happend
        simp only [rtpmapChannels, eat, hskip, if_neg hne, hnumber, if_true, Option.map_some]

/-! ### The whole value -/

/-- Every value of the grammar is read. -/
theorem rtpmapParts_of_rtpmap {value : Text} {pt : UInt8} {encoding : Encoding}
    (h : Rtpmap value pt encoding) : rtpmapParts value = some (pt, encoding) := by
  cases h with
  | @mk ws digits gap name ws' rate ws'' tail _ clockRate channels hws hpt hgap hname
      hmaximal hws' hrate
      hws'' htail =>
      have hvalue : pt.toUInt32.toNat = pt.toNat := UInt8.toNat_toUInt32 pt
      have hfirst : Text.Stops Char.isDigit
          (gap ++ (name ++ '/' :: (ws' ++ (rate ++ (ws'' ++ tail))))) := by
        rw [← List.append_assoc]
        cases hhead : gap ++ name with
        | nil => exact absurd (List.append_eq_nil_iff.mp hhead).2 hname.nonempty
        | cons c text => exact Text.stops_cons (hmaximal c (by rw [hhead]; rfl)) _
      have hbound : pt.toUInt32.toNat < 256 := by
        rw [hvalue]
        exact pt.toNat_lt
      have hnumber := number_append hws (hvalue ▸ hpt) hgap hbound (hname.stops _) hfirst
      have hclock := number_append hws' hrate hws'' clockRate.toNat_lt htail.stops.1
        (hws''.stops_isDigit htail.stops.2)
      have hchannels := (rtpmapChannels_iff htail.stops.1).mpr htail
      simp only [rtpmapParts, hnumber, field_name hname, if_neg hname.nonempty, eat,
        if_true, hclock, hchannels, Option.bind_eq_bind, Option.bind_some, UInt8.toUInt8_toUInt32]

/-- Every value that is read is one of the grammar. -/
theorem rtpmap_of_rtpmapParts {value : Text} {pt : UInt8} {encoding : Encoding}
    (h : rtpmapParts value = some (pt, encoding)) : Rtpmap value pt encoding := by
  unfold rtpmapParts at h
  obtain ⟨⟨number1, rest1⟩, hnumber, h⟩ := Option.bind_eq_some_iff.mp h
  simp only at h
  split_ifs at h with hname
  obtain ⟨rest3, heat, h⟩ := Option.bind_eq_some_iff.mp h
  obtain ⟨⟨clockRate, rest4⟩, hclock, h⟩ := Option.bind_eq_some_iff.mp h
  obtain ⟨⟨channels, rest5⟩, hchannels, h⟩ := Option.bind_eq_some_iff.mp h
  simp only at h
  split_ifs at h with hend
  obtain ⟨rfl, rfl⟩ := Prod.mk.inj (Option.some.inj h)
  subst hend
  obtain ⟨ws, digits, gap, hvalue, hws, hpt, hgap, hbound, hstops, hmaximal⟩ :=
    number_eq_some hnumber
  obtain ⟨hencoding, hrest1⟩ := field_split hstops hname
  rw [eat_eq_some heat] at hrest1
  generalize (field ['/'] rest1).1 = name at hencoding hrest1 ⊢
  obtain ⟨ws', rate, ws'', hrest3, hws', hrate, hws'', -, hstops', -⟩ := number_eq_some hclock
  have htail := (rtpmapChannels_iff hstops').mp hchannels
  have hbyte : number1.toUInt8.toNat = number1.toNat := by
    rw [UInt32.toNat_toUInt8, Nat.mod_eq_of_lt hbound]
  rw [hvalue, hrest1, hrest3]
  refine .mk hws (by rwa [hbyte]) hgap hencoding ?_ hws' hrate hws'' htail
  intro c hc
  apply hmaximal c
  rw [hrest1, ← List.append_assoc, List.head?_append]
  rw [Option.mem_def.mp hc]
  rfl

/-- The plain spelling is a value of the grammar. -/
theorem rtpmap_rtpmapText (pt : UInt8) {encoding : Encoding} (hname : EncodingName encoding.name) :
    Rtpmap (rtpmapText pt encoding) pt encoding := by
  have hspace : Blank [' '] := by
    intro c hc
    rw [List.mem_singleton.mp hc]
    rfl
  have htail : RtpmapTail (encoding.channels.elim [] fun channels =>
      '/' :: Text.ofNat channels.toNat)
      encoding.channels := by
    cases encoding.channels with
    | none => exact .absent
    | some channels =>
        have hcount := RtpmapTail.count blank_nil (digitRun_ofNat channels.toNat) blank_nil
        rwa [List.append_nil] at hcount
  exact .mk blank_nil (digitRun_ofNat pt.toNat) hspace hname
    (Text.stops_cons (by decide) _) blank_nil
    (digitRun_ofNat encoding.clockRate.toNat) blank_nil htail

theorem parseRtpmap_iff (value : Text) (pt : UInt8) (encoding : Encoding) :
    parseRtpmap value = .ok (pt, encoding) ↔ rtpmapParts value = some (pt, encoding) := by
  cases hparts : rtpmapParts value with
  | none => simp [parseRtpmap, hparts]
  | some parts => simp [parseRtpmap, hparts]

/-- **The rtpmap parser reads its grammar.** A value gives a payload type, a name, a clock rate and
a channel count exactly when the grammar derives it with these, and the plain spelling of any such
tuple is read back. -/
theorem parseRtpmap_exact :
    (∀ (value : Text) (pt : UInt8) (encoding : Encoding),
      parseRtpmap value = .ok (pt, encoding) ↔ Rtpmap value pt encoding) ∧
    ∀ (pt : UInt8) (encoding : Encoding), EncodingName encoding.name →
      parseRtpmap (rtpmapText pt encoding) = .ok (pt, encoding) := by
  refine ⟨?_, ?_⟩
  · intro value pt encoding
    rw [parseRtpmap_iff]
    exact ⟨rtpmap_of_rtpmapParts, rtpmapParts_of_rtpmap⟩
  · intro pt encoding hname
    rw [parseRtpmap_iff]
    exact rtpmapParts_of_rtpmap (rtpmap_rtpmapText pt hname)

/-- An opus value is read back from its plain spelling, and so is what has tabs and an empty tail.
-/
theorem parseRtpmap_exact_opus :
    parseRtpmap "96 opus/48000/2".toList = .ok (96, ⟨"opus".toList, 48000, some 2⟩) ∧
      ∃ pt encoding, Rtpmap "\t096\topus/ 48000 / ".toList pt encoding := by
  refine ⟨?_, 96, ⟨"opus".toList, 48000, none⟩, ?_⟩
  · exact parseRtpmap_exact.2 96 ⟨"opus".toList, 48000, some 2⟩ ⟨by decide, by decide⟩
  · exact (parseRtpmap_exact.1 _ _ _).mp (by decide +kernel)

end Sdp
end EslTokio
