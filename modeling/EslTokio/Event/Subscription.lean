import EslTokio.Event.EventType

/-!
# Event subscriptions

`EventSubscription` of `freeswitch-types/src/event/subscription.rs`: event types, raw event names,
custom subclasses and filters, each checked for wire safety when it is added, so that every raw name
and every subclass is one token.

* `validateWireToken` — what a field accepts.
* `orderEventTokens` — the token order of the `event` and `nixevent` commands: `CUSTOM` is terminal.
* `EventSubscription` — the subscription, carrying the validity of its tokens.
* `EventSubscription.toEventString` — the event list of the `event` command.
-/

namespace EslTokio

open Library

/-- Why a text cannot be sent as a token. -/
inductive WireTokenFault where
  | empty
  | newline
  | space
deriving DecidableEq, Repr

/-- The fault of a text, if it has one. -/
def WireTokenFault.classify (text : Text) : Option WireTokenFault :=
  if text = [] then some .empty
  else if '\n' ∈ text ∨ '\r' ∈ text then some .newline
  else if ' ' ∈ text then some .space
  else none

/-- What a field accepts beyond the newline ban. -/
structure WireTokenRules where
  rejectEmpty : Bool
  rejectSpace : Bool

/-- One wire token: the switch splits on spaces and drops an empty one. -/
def WireTokenRules.token : WireTokenRules := ⟨true, true⟩

/-- Free text within a header line. -/
def WireTokenRules.text : WireTokenRules := ⟨false, false⟩

/-- Check a field; the error carries the value. -/
def validateWireToken (text : Text) (rules : WireTokenRules) : Except Text Unit :=
  let rejected :=
    match WireTokenFault.classify text with
    | some .empty => rules.rejectEmpty
    | some .newline => true
    | some .space => rules.rejectSpace
    | none => false
  if rejected then .error text else .ok ()

def validateRawEvent (text : Text) : Except Text Unit := validateWireToken text .token

def validateCustomSubclass (text : Text) : Except Text Unit := validateWireToken text .token

def validateFilterField (text : Text) : Except Text Unit := validateWireToken text .text

/-- An accepted token is not empty and has no space in it. -/
theorem validateWireToken_token {text : Text} (h : validateWireToken text .token = .ok ()) :
    text ≠ [] ∧ ' ' ∉ text := by
  simp only [validateWireToken, WireTokenFault.classify, WireTokenRules.token] at h
  by_cases hempty : text = []
  · simp [hempty] at h
  · by_cases hnewline : '\n' ∈ text ∨ '\r' ∈ text
    · simp [hempty, hnewline] at h
    · by_cases hspace : ' ' ∈ text
      · simp [hempty, hnewline, hspace] at h
      · exact ⟨hempty, hspace⟩

/-- The token that introduces custom subclasses. -/
def customToken : Text := "CUSTOM".toList

/-- `CUSTOM` in any case. -/
def isCustomToken (name : Text) : Bool :=
  Text.toAsciiLowercase name = Text.toAsciiLowercase customToken

/-- Order event names and custom subclasses for the `event` and `nixevent` commands: a `CUSTOM`
anywhere in `names` moves to the tail, where it introduces the subclasses. -/
def orderEventTokens (names subclasses : List Text) : List Text :=
  let tokens := names.filter fun name => !isCustomToken name
  if names.any isCustomToken || !subclasses.isEmpty then tokens ++ customToken :: subclasses
  else tokens

/-- Declarative description of an event subscription. -/
structure EventSubscription where
  format : EventFormat
  events : List EslEventType
  rawEvents : List Text
  customSubclasses : List Text
  filters : List (Text × Text)
  /-- Every raw name is one token. -/
  raw_valid : ∀ name ∈ rawEvents, validateRawEvent name = .ok ()
  /-- Every subclass is one token. -/
  subclass_valid : ∀ subclass ∈ customSubclasses, validateCustomSubclass subclass = .ok ()
  /-- Every filter stays on its line. -/
  filter_valid : ∀ entry ∈ filters,
    validateFilterField entry.1 = .ok () ∧ validateFilterField entry.2 = .ok ()

namespace EventSubscription

/-- An empty subscription. -/
def new (format : EventFormat) : EventSubscription :=
  ⟨format, [], [], [], [], nofun, nofun, nofun⟩

/-- A subscription for all events. -/
def all (format : EventFormat) : EventSubscription :=
  ⟨format, [.all], [], [], [], nofun, nofun, nofun⟩

/-- Add a single event type. -/
def event (sub : EventSubscription) (eventType : EslEventType) : EventSubscription :=
  { sub with events := sub.events ++ [eventType] }

/-- The names a subscription lists, typed ones first. -/
def names (sub : EventSubscription) : List Text :=
  sub.events.map (fun eventType => eventType.asStr.toList) ++ sub.rawEvents

/-- The tokens of the `event` command. -/
def eventTokens (sub : EventSubscription) : List Text :=
  if EslEventType.all ∈ sub.events then ["ALL".toList]
  else orderEventTokens sub.names sub.customSubclasses

/-- The event list of the `event` command, unless nothing is subscribed. -/
def toEventString (sub : EventSubscription) : Option Text :=
  if sub.eventTokens = [] then none else some ([' '].intercalate sub.eventTokens)

end EventSubscription

end EslTokio
