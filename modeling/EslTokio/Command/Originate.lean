import EslTokio.Library.Results
import EslTokio.SwitchPasses.InlineHunt

/-!
# The originate command

`freeswitch-types/src/commands/originate/mod.rs`: the constructors of an originate that runs inline
applications, and the load of one from a configuration.  The endpoint is passed through by all of
them, so it stays a parameter, with the check a load makes of it.

* `Originate.inline`, `inlineWithDelimiter`, `tryFrom` — what accepts a list of applications.
* `Originate.targetText` — the target argument before the split's quoting or escaping.
* **`Originate.readsBack_iff`** — the list an accepted originate renders is read back exactly when
  it has at most 128 applications and imitates no delimiter's prefix.
-/

namespace EslTokio

open Library SwitchPasses

/-- A dialplan the command knows, or any other one by name. -/
inductive Dialplan where
  | typed (dialplan : DialplanType)
  | named (name : Text)
deriving DecidableEq, Repr

/-- The placeholder of an absent positional argument. -/
def undef : Text := "undef".toList

/-- The name a dialplan goes by on the wire. -/
def DialplanType.wireName : DialplanType → Text
  | .inline => "inline".toList
  | .xml => "XML".toList

/-- A dialplan by its name, in any case. -/
def Dialplan.fromName (name : Text) : Dialplan :=
  if Text.eqIgnoreCase name "inline".toList = true then .typed .inline
  else if Text.eqIgnoreCase name "xml".toList = true then .typed .xml
  else .named name

/-- The name of a dialplan. -/
def Dialplan.name : Dialplan → Text
  | .typed dialplan => dialplan.wireName
  | .named name => name

/-- An inline dialplan takes no extension, and no other one takes inline applications. -/
def checkDialplanFits (target : OriginateTarget) (dialplan : Option Dialplan) :
    Except OriginateError Unit :=
  let inline := dialplan = some (.typed .inline)
  match target with
  | .extension _ => if inline then .error .extensionWithInlineDialplan else .ok ()
  | .inlineApplications _ =>
      if dialplan.isSome ∧ ¬inline then .error .inlineApplicationsWithDialplan else .ok ()
  | .application _ => .ok ()

/-- An originate of an endpoint. -/
structure Originate (Endpoint : Type) where
  endpoint : Endpoint
  target : OriginateTarget
  dialplan : Option Dialplan
  context : Option Text
  cidName : Option Text
  cidNum : Option Text
  timeout : Option Nat
  inlineDelimiter : Option Char
  argvSeparator : Option Char

/-- An originate as a configuration spells it; a dialplan is a typed one or a name. -/
structure OriginateRaw (Endpoint : Type) where
  endpoint : Endpoint
  target : OriginateTarget
  dialplan : Option (DialplanType ⊕ Text)
  context : Option Text
  cidName : Option Text
  cidNum : Option Text
  timeoutSecs : Option Nat
  argvSeparator : Option Char

namespace Originate

variable {Endpoint : Type}

/-- An originate of an endpoint and a target alone. -/
def ofTarget (endpoint : Endpoint) (target : OriginateTarget) (inlineDelimiter : Option Char) :
    Originate Endpoint :=
  ⟨endpoint, target, none, none, none, none, none, inlineDelimiter, none⟩

/-- An inline action list has an action. -/
def checkNotEmpty (target : OriginateTarget) : Except OriginateError Unit :=
  if target = .inlineApplications [] then .error .emptyInlineApplications else .ok ()

/-- Execute inline applications on the answered channel. -/
def inline (endpoint : Endpoint) (apps : List Application) :
    Except OriginateError (Originate Endpoint) := do
  checkNotEmpty (.inlineApplications apps)
  return ofTarget endpoint (.inlineApplications apps) none

/-- Execute inline applications behind a separator of the caller's; the comma needs no prefix. -/
def inlineWithDelimiter (endpoint : Endpoint) (apps : List Application) (delimiter : Char) :
    Except OriginateError (Originate Endpoint) := do
  checkNotEmpty (.inlineApplications apps)
  checkInlineDelimiter delimiter
  return ofTarget endpoint (.inlineApplications apps)
    (if delimiter ≠ ',' then some delimiter else none)

/-- The target argument before the split's quoting or escaping. -/
def targetText (originate : Originate Endpoint) : Text :=
  match originate.target with
  | .extension extension => extension
  | .application app => app.toStringWithDialplan .xml
  | .inlineApplications apps =>
      match originate.inlineDelimiter with
      | some delimiter => 'm' :: ':' :: delimiter :: ':' :: renderInline apps delimiter
      | none => renderInline apps defaultInlineDelimiter

/-- Open the line with `^^<sep>`. -/
def withArgvSeparator (originate : Originate Endpoint) (sep : Char) :
    Except OriginateError (Originate Endpoint) :=
  match (DialStringTarget.new .eslApi .pairSplitCleans).withArgvSeparator sep with
  | .error e => .error (.invalidArgvSeparator e)
  | .ok _ => .ok { originate with argvSeparator := some sep }

/-- An argument that is absent on the wire is refused. -/
def checkNotUndef (field : String) (value : Option Text) : Except OriginateError Unit :=
  if ∃ text ∈ value, Text.eqIgnoreCase text undef = true then
    .error (.undefPositional field) else .ok ()

/-- Load an originate from a configuration, which names applications and no wire separator. -/
def tryFrom (checkExpanded : Endpoint → Except OriginateError Unit) (raw : OriginateRaw Endpoint) :
    Except OriginateError (Originate Endpoint) := do
  let dialplan := raw.dialplan.map (Sum.elim .typed .fromName)
  checkExpanded raw.endpoint
  checkDialplanFits raw.target dialplan
  checkNotUndef "dialplan" (dialplan.map Dialplan.name)
  checkNotEmpty raw.target
  checkNotUndef "context" raw.context
  checkNotUndef "cid_name" raw.cidName
  checkNotUndef "cid_num" raw.cidNum
  let originate : Originate Endpoint :=
    ⟨raw.endpoint, raw.target, dialplan, raw.context, raw.cidName, raw.cidNum,
      raw.timeoutSecs, none, none⟩
  checkNotUndef "target" (some originate.targetText)
  checkTargetReadable originate.target
  match raw.argvSeparator with
  | some sep => originate.withArgvSeparator sep
  | none => return originate

/-! ### What the constructors accept -/

/-- An originate made by an inline constructor or loaded from a configuration. -/
inductive Accepted (checkExpanded : Endpoint → Except OriginateError Unit) :
    Originate Endpoint → Prop
  | inline {endpoint : Endpoint} {apps : List Application} {originate : Originate Endpoint}
      (h : inline endpoint apps = .ok originate) : Accepted checkExpanded originate
  | inlineWithDelimiter {endpoint : Endpoint} {apps : List Application} {delimiter : Char}
      {originate : Originate Endpoint}
      (h : inlineWithDelimiter endpoint apps delimiter = .ok originate) :
      Accepted checkExpanded originate
  | load {raw : OriginateRaw Endpoint} {originate : Originate Endpoint}
      (h : tryFrom checkExpanded raw = .ok originate) : Accepted checkExpanded originate

theorem checkNotEmpty_ok {target : OriginateTarget} (h : checkNotEmpty target = .ok ()) :
    target ≠ .inlineApplications [] := by
  intro heq
  rw [checkNotEmpty, if_pos heq] at h
  cases h

/-- A loaded originate names no inline separator and no empty list. -/
theorem tryFrom_ok {checkExpanded : Endpoint → Except OriginateError Unit}
    {raw : OriginateRaw Endpoint}
    {originate : Originate Endpoint} (h : tryFrom checkExpanded raw = .ok originate) :
    originate.target ≠ .inlineApplications [] ∧ originate.inlineDelimiter = none := by
  unfold tryFrom at h
  obtain ⟨_, -, h⟩ := bind_ok_iff.mp h
  obtain ⟨_, -, h⟩ := bind_ok_iff.mp h
  obtain ⟨_, -, h⟩ := bind_ok_iff.mp h
  obtain ⟨_, hempty, h⟩ := bind_ok_iff.mp h
  obtain ⟨_, -, h⟩ := bind_ok_iff.mp h
  obtain ⟨_, -, h⟩ := bind_ok_iff.mp h
  obtain ⟨_, -, h⟩ := bind_ok_iff.mp h
  obtain ⟨_, -, h⟩ := bind_ok_iff.mp h
  obtain ⟨_, -, h⟩ := bind_ok_iff.mp h
  have htarget := checkNotEmpty_ok hempty
  split at h
  · unfold withArgvSeparator at h
    split at h
    · cases h
    · obtain rfl := Except.ok.inj h
      exact ⟨htarget, rfl⟩
  · obtain rfl := Except.ok.inj h
    exact ⟨htarget, rfl⟩

/-- An accepted list is not empty, and the separator it names can separate it. -/
theorem Accepted.usable {checkExpanded : Endpoint → Except OriginateError Unit}
    {originate : Originate Endpoint} (h : Accepted checkExpanded originate) :
    originate.target ≠ .inlineApplications [] ∧
      ∀ delimiter ∈ originate.inlineDelimiter, checkInlineDelimiter delimiter = .ok () := by
  cases h with
  | inline h =>
      unfold Originate.inline at h
      obtain ⟨_, hempty, h⟩ := bind_ok_iff.mp h
      obtain rfl := Except.ok.inj h
      exact ⟨checkNotEmpty_ok hempty, nofun⟩
  | inlineWithDelimiter h =>
      unfold Originate.inlineWithDelimiter at h
      obtain ⟨_, hempty, h⟩ := bind_ok_iff.mp h
      obtain ⟨_, hcheck, h⟩ := bind_ok_iff.mp h
      obtain rfl := Except.ok.inj h
      refine ⟨checkNotEmpty_ok hempty, ?_⟩
      intro named hnamed
      rw [ofTarget] at hnamed
      split at hnamed
      · obtain rfl := Option.some.inj hnamed
        exact hcheck
      · cases hnamed
  | load h =>
      obtain ⟨htarget, hdelimiter⟩ := tryFrom_ok h
      rw [hdelimiter]
      exact ⟨htarget, nofun⟩

/-- **An accepted action list is read back exactly when it fits the reader's array and, where it
names no separator, does not open as one that does.** -/
theorem readsBack_iff {checkExpanded : Endpoint → Except OriginateError Unit}
    {originate : Originate Endpoint} {apps : List Application}
    (haccepted : Accepted checkExpanded originate)
    (htarget : originate.target = .inlineApplications apps)
    (happs : ∀ app ∈ apps, PlainApplication app) :
    ReadsBack originate.targetText apps ↔
      apps.length ≤ inlineActions ∧ ¬(originate.inlineDelimiter = none ∧ ImitatesPrefix apps) := by
  obtain ⟨hnonempty, hdelimiter⟩ := haccepted.usable
  have hne : apps ≠ [] := by
    rintro rfl
    exact hnonempty htarget
  cases hnamed : originate.inlineDelimiter with
  | some delimiter =>
      have hcheck := hdelimiter delimiter hnamed
      have htext : originate.targetText = 'm' :: ':' :: delimiter :: ':' ::
          renderInline apps delimiter := by
        simp only [targetText, htarget, hnamed]
      have hascii : delimiter.toNat < 128 :=
        (Escaping.of_unbroken ((checkInlineDelimiter_ok delimiter).mp hcheck).2).2.2
      have hopens : splitInlinePrefix originate.targetText =
          (some delimiter, renderInline apps delimiter) := by
        rw [htext, splitInlinePrefix, if_pos hascii]
      have happlication : readsAsApplication originate.targetText = false := by
        rw [htext]
        rfl
      rw [readsBack_of_delimiter hne happs hcheck happlication (by rw [hopens]; rfl)
        (by rw [hopens])]
      simp
  | none =>
      have htext : originate.targetText = renderInline apps ',' := by
        simp only [targetText, htarget, hnamed]
        rfl
      rw [htext]
      by_cases himitates : ImitatesPrefix apps
      · have hnot := not_readsBack_of_imitates hne happs himitates
        simp [hnot, himitates]
      · have hopens := splitInlinePrefix_renderInline hne happs himitates
        have happlication : readsAsApplication (renderInline apps ',') = false := by
          obtain ⟨app, later, rfl⟩ := List.exists_cons_of_ne_nil hne
          exact (renderInline_opens (happs app List.mem_cons_self) later ',').2.2
        have hcheck : checkInlineDelimiter ',' = .ok () :=
          (checkInlineDelimiter_ok ',').mpr (by decide)
        rw [readsBack_of_delimiter hne happs hcheck happlication (by rw [hopens]; rfl)
          (by rw [hopens])]
        simp [himitates]

/-- Two applications, with the delimiter, a quote and an edge space in an argument, and a bare one.
-/
def playThenHangup : List Application :=
  [⟨"playback".toList, some "a|b' ".toList⟩, ⟨"hangup".toList, none⟩]

theorem readsBack_playThenHangup :
    ReadsBack (targetText (ofTarget () (.inlineApplications playThenHangup) (some '|')))
      playThenHangup := by
  have haccepted : Accepted (fun _ => .ok ())
      (ofTarget () (.inlineApplications playThenHangup) (some '|')) :=
    .inlineWithDelimiter (rfl : inlineWithDelimiter () playThenHangup '|' = _)
  have hplain : ∀ app ∈ playThenHangup, PlainApplication app := by
    refine List.forall_mem_cons.mpr ⟨⟨⟨by decide, by decide +kernel⟩, by decide +kernel⟩,
      List.forall_mem_singleton.mpr ⟨⟨by decide, by decide +kernel⟩, nofun⟩⟩
  exact (readsBack_iff haccepted rfl hplain).mpr ⟨by decide, fun h => Option.some_ne_none _ h.1⟩

/-- An application named `m` whose argument is `;:x`. -/
def imitation : List Application := [⟨['m'], some [';', ':', 'x']⟩]

/-- The list is accepted, and read as the one application `x` behind a prefix that names `;`. -/
theorem imitation_not_readsBack :
    (∀ app ∈ imitation, PlainApplication app) ∧
      inline () imitation = .ok (ofTarget () (.inlineApplications imitation) none) ∧
      parseOriginateTarget (targetText (ofTarget () (.inlineApplications imitation) none))
        (some .inline) =
        .ok (.inlineApplications [⟨['x'], none⟩]) ∧
      ¬ReadsBack (targetText (ofTarget () (.inlineApplications imitation) none)) imitation := by
  have hparse : parseOriginateTarget (targetText (ofTarget () (.inlineApplications imitation) none))
      (some .inline) = .ok (.inlineApplications [⟨['x'], none⟩]) := by decide +kernel
  refine ⟨?_, rfl, hparse, ?_⟩
  · exact List.forall_mem_singleton.mpr ⟨⟨by decide, by decide⟩, by decide⟩
  · rintro ⟨read, hread, hsame⟩
    rw [hparse] at hread
    obtain rfl := OriginateTarget.inlineApplications.inj (Except.ok.inj hread)
    exact absurd hsame (by decide)

end Originate
end EslTokio
