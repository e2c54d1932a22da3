import EslTokio.Channel
import EslTokio.DialString.Variables

/-!
# Endpoints

`freeswitch-types/src/commands/endpoint`: the ten kinds of endpoint a dial string dials, what a
configuration load refuses in their fields, the text each module receives and the parse of that
text.

* `checkField`, `checkExpressionField` — the separators a field may not carry.
* `SofiaEndpoint` … `AudioEndpoint`, `Endpoint` — the endpoints, their checks, texts and parsers.
* `Endpoint.parseBare` — the dispatch on the module name, first match wins.
* `Endpoint.writeFor`, `Endpoint.displayFor`, `Endpoint.parseFor` — a whole dial string and back.
-/

namespace EslTokio

open Library SwitchPasses

/-- `str::contains` of a separator. -/
def carries (text : Text) (sep : String) : Bool := (find text sep.toList).isSome

def undeliverable (endpoint field : String) (fault : EndpointFieldFault) : OriginateError :=
  .undeliverableEndpointField endpoint field fault

/-- Refuse a field that carries `:_:` or one of the module's separators. -/
def checkField (endpoint field : String) (text : Text) (separators : List String) :
    Except OriginateError Unit :=
  if splitsIntoThreads text = true then .error (undeliverable endpoint field .enterpriseSeparator)
  else
    match separators.find? (carries text) with
    | some sep => .error (undeliverable endpoint field (.moduleSeparator sep))
    | none => .ok ()

/-- A pass ahead of an expression's function reads the text. -/
def readBeforeTheFunction (text : Text) : Bool :=
  text.any (fun c => [' ', ',', '|', '\'', '\\'].contains c) ||
    (unbalanced text ('{', '}')).isSome ||
    (unbalanced text ('(', ')')).isSome

/-- Refuse a field of an expression that carries `:_:`, one of the function's separators, or what a
pass reads ahead of the function. -/
def checkExpressionField (endpoint field : String) (text : Text) (separators : List String) :
    Except OriginateError Unit :=
  if splitsIntoThreads text = true then .error (undeliverable endpoint field .enterpriseSeparator)
  else
    match separators.find? (carries text) with
    | some sep => .error (undeliverable endpoint field (.functionSeparator sep))
    | none =>
        if readBeforeTheFunction text = true then
          .error (undeliverable endpoint field .readBeforeTheFunction)
        else .ok ()

/-- The module text after a fixed endpoint name. A name that does not itself end a path segment must
be followed by `/` or by nothing. -/
def afterPrefix (text : Text) (opening kind : String) : Except OriginateError Text :=
  match opening.toList.isPrefixOf? text with
  | some rest =>
      if opening.toList.getLast? = some '/' ∨ rest = [] ∨ rest.head? = some '/' then .ok rest
      else .error (.parseError ("not a ".toList ++ kind.toList ++ " endpoint".toList))
  | none => .error (.parseError ("not a ".toList ++ kind.toList ++ " endpoint".toList))

/-- The text between an expression's opening and its `)}`. -/
def expressionBody (text : Text) (opening function : String) : Except OriginateError Text :=
  match (opening.toList.isPrefixOf? text).bind fun rest => [')', '}'].isSuffixOf? rest with
  | some inner => .ok inner
  | none => .error (.parseError ("not a ".toList ++ function.toList ++ " expression".toList))

/-! ### The kinds of endpoint -/

/-- SIP endpoint via a named profile: `sofia/{profile}/{destination}`. -/
structure SofiaEndpoint where
  profile : Text
  destination : Text
  vars : Option Variables
deriving DecidableEq

namespace SofiaEndpoint

def moduleText (ep : SofiaEndpoint) : Text :=
  "sofia/".toList ++ ep.profile ++ '/' :: ep.destination

/-- Refuse a profile the module cuts, reads as a URI or reads as the gateway path. -/
def checkDeliverable (ep : SofiaEndpoint) : Except OriginateError Unit := do
  checkField "sofia" "profile" ep.profile ["/", "^", "@"]
  if Text.eqIgnoreCase ep.profile "gateway".toList = true then
    .error (undeliverable "sofia" "profile" .readsAsGateway)
  else checkField "sofia" "destination" ep.destination []

def parseBare (text : Text) : Except OriginateError SofiaEndpoint := do
  let rest ← afterPrefix text "sofia/" "sofia"
  match Text.splitFirst '/' rest with
  | none => .error (.parseError "sofia endpoint needs profile/destination".toList)
  | some (profile, destination) =>
      let ep : SofiaEndpoint := ⟨profile, destination, none⟩
      ep.checkDeliverable
      return ep

end SofiaEndpoint

/-- SIP endpoint via a configured gateway: `sofia/gateway/[{profile}::]{gateway}/{destination}`. -/
structure SofiaGateway where
  gateway : Text
  destination : Text
  profile : Option Text
  vars : Option Variables
deriving DecidableEq

namespace SofiaGateway

/-- The lookup key of the gateway. -/
def key (ep : SofiaGateway) : Text :=
  match ep.profile with
  | some profile => profile ++ "::".toList ++ ep.gateway
  | none => ep.gateway

def moduleText (ep : SofiaGateway) : Text :=
  "sofia/gateway/".toList ++ ep.key ++ '/' :: ep.destination

/-- The separators of the profile ahead of a gateway, and of the key the two make. -/
def checkProfile (ep : SofiaGateway) (profile : Text) : Except OriginateError Unit := do
  checkField "sofia gateway" "profile" profile ["/", "^", "@", "::"]
  if profile.getLast? = some ':' then
    .error (undeliverable "sofia gateway" "profile" (.moduleSeparator "::"))
  else if splitsIntoThreads (profile ++ "::".toList ++ ep.gateway) = true then
    let field := if [':', '_'].isSuffixOf profile then "profile" else "gateway"
    .error (undeliverable "sofia gateway" field .enterpriseSeparator)
  else .ok ()

/-- Refuse a gateway or profile the module cuts, and a `::` its lookup key would read elsewhere. -/
def checkDeliverable (ep : SofiaGateway) : Except OriginateError Unit := do
  let gatewaySplits := match ep.profile with
    | some _ => ["/", "^", "@"]
    | none => ["/", "^", "@", "::"]
  checkField "sofia gateway" "gateway" ep.gateway gatewaySplits
  match ep.profile with
  | some profile => ep.checkProfile profile
  | none => .ok ()
  checkField "sofia gateway" "destination" ep.destination []

/-- The profile and gateway of a key, which its first `::` parts. -/
def ofKey (key destination : Text) : SofiaGateway :=
  match Search.splitOnce "::".toList key with
  | some (profile, gateway) => ⟨gateway, destination, some profile, none⟩
  | none => ⟨key, destination, none, none⟩

def parseBare (text : Text) : Except OriginateError SofiaGateway := do
  let rest ← afterPrefix text "sofia/gateway/" "sofia gateway"
  match Text.splitFirst '/' rest with
  | none => .error (.parseError "sofia gateway needs gateway/destination".toList)
  | some (gatewayPart, destination) =>
      let ep := ofKey gatewayPart destination
      ep.checkDeliverable
      return ep

end SofiaGateway

/-- `DEFAULT_CONTEXT`. -/
def defaultContext : Text := "default".toList

/-- Internal loopback endpoint: `loopback/{extension}[/{context}[/{dialplan}]]`. -/
structure LoopbackEndpoint where
  extension : Text
  context : Option Text
  dialplan : Option Text
  vars : Option Variables
deriving DecidableEq

/-- The module runs an extension that opens `app=`, in any case, as an application. -/
def isApplication (extension : Text) : Bool :=
  (Text.get? extension 0 4).any fun opening => Text.eqIgnoreCase opening "app=".toList

/-- Refuse a context or dialplan the module reads as its default. -/
def checkSegment (field : String) (separators : List String) :
    Option Text → Except OriginateError Unit
  | none => .ok ()
  | some value => do
      checkField "loopback" field value separators
      if value = [] then .error (undeliverable "loopback" field .emptyReadsAsDefault) else .ok ()

/-- Refuse a context or dialplan behind an application. -/
def checkAbsent (field : String) : Option Text → Except OriginateError Unit
  | none => .ok ()
  | some _ => .error (undeliverable "loopback" field .followsAnApplication)

namespace LoopbackEndpoint

def moduleText (ep : LoopbackEndpoint) : Text :=
  match ep.context, ep.dialplan with
  | none, none => "loopback/".toList ++ ep.extension
  | some context, none => "loopback/".toList ++ ep.extension ++ '/' :: context
  | context, some dialplan =>
      "loopback/".toList ++ ep.extension ++ '/' :: (context.getD defaultContext ++ '/' :: dialplan)

/-- Refuse what the module reads as something else: a `/` in the extension, the context or an
application's name, an empty context or dialplan, and either behind an application. -/
def checkDeliverable (ep : LoopbackEndpoint) : Except OriginateError Unit :=
  if isApplication ep.extension = true then do
    let name := ((Text.splitFirst ':' ep.extension).map Prod.fst).getD ep.extension
    checkField "loopback" "extension" name ["/"]
    checkField "loopback" "extension" ep.extension []
    checkAbsent "context" ep.context
    checkAbsent "dialplan" ep.dialplan
  else do
    checkField "loopback" "extension" ep.extension ["/"]
    checkSegment "context" ["/"] ep.context
    checkSegment "dialplan" [] ep.dialplan

/-- The segments of the text behind the module name, `str::splitn(3, '/')`. -/
def ofSegments (rest : Text) : LoopbackEndpoint :=
  match Text.splitFirst '/' rest with
  | none => ⟨rest, none, none, none⟩
  | some (extension, rest) =>
      match Text.splitFirst '/' rest with
      | none => ⟨extension, some rest, none, none⟩
      | some (context, dialplan) => ⟨extension, some context, some dialplan, none⟩

def parseBare (text : Text) : Except OriginateError LoopbackEndpoint := do
  let rest ← afterPrefix text "loopback/" "loopback"
  let ep := if isApplication rest = true then ⟨rest, none, none, none⟩ else ofSegments rest
  ep.checkDeliverable
  return ep

end LoopbackEndpoint

/-- Directory-based endpoint: `user/{name}[@{domain}]`. -/
structure UserEndpoint where
  name : Text
  domain : Option Text
  vars : Option Variables
deriving DecidableEq

namespace UserEndpoint

def moduleText (ep : UserEndpoint) : Text :=
  match ep.domain with
  | some domain => "user/".toList ++ ep.name ++ '@' :: domain
  | none => "user/".toList ++ ep.name

/-- Refuse an `@` in the name, where the module starts the domain, and an empty name alone. -/
def checkDeliverable (ep : UserEndpoint) : Except OriginateError Unit := do
  checkField "user" "name" ep.name ["@"]
  if ep.name = [] ∧ ep.domain = none then .error (undeliverable "user" "name" .emptyDialsNothing)
  else
    match ep.domain with
    | some domain => checkField "user" "domain" domain []
    | none => .ok ()

def parseBare (text : Text) : Except OriginateError UserEndpoint := do
  let rest ← afterPrefix text "user/" "user"
  let ep : UserEndpoint :=
    match Text.splitFirst '@' rest with
    | some (name, domain) => ⟨name, some domain, none⟩
    | none => ⟨rest, none, none⟩
  ep.checkDeliverable
  return ep

end UserEndpoint

/-- Runtime expression resolving registered contacts: `${sofia_contact([profile/]user@domain)}`. -/
structure SofiaContact where
  user : Text
  domain : Text
  profile : Option Text
  vars : Option Variables
deriving DecidableEq

namespace SofiaContact

/-- The argument of the function. -/
def argument (ep : SofiaContact) : Text :=
  match ep.profile with
  | some profile => profile ++ '/' :: (ep.user ++ '@' :: ep.domain)
  | none => ep.user ++ '@' :: ep.domain

def moduleText (ep : SofiaContact) : Text :=
  "$\x7bsofia_contact(".toList ++ ep.argument ++ [')', '}']

/-- Refuse a domain or profile that is empty or that the function splits. -/
def checkPart (field : String) (value : Text) : Except OriginateError Unit := do
  checkExpressionField "sofia_contact" field value ["~", "/"]
  if value = [] then .error (undeliverable "sofia_contact" field .emptyReadsAsDefault) else .ok ()

/-- Refuse what the function splits at its first `~`, `/` and `@` and a `/` behind the domain, what
it replaces, and what a pass ahead of it reads. -/
def checkDeliverable (ep : SofiaContact) : Except OriginateError Unit := do
  let userSplits := match ep.profile with
    | some _ => ["~", "@"]
    | none => ["~", "@", "/"]
  checkExpressionField "sofia_contact" "user" ep.user userSplits
  checkPart "domain" ep.domain
  match ep.profile with
  | some profile => checkPart "profile" profile
  | none => .ok ()

def parseBare (text : Text) : Except OriginateError SofiaContact := do
  let inner ← expressionBody text "$\x7bsofia_contact(" "sofia_contact"
  let parts : Option Text × Text :=
    match Text.splitFirst '/' inner with
    | some (profile, rest) => (some profile, rest)
    | none => (none, inner)
  match Text.splitFirst '@' parts.2 with
  | none => .error (.parseError "sofia_contact needs user@domain".toList)
  | some (user, domain) =>
      let ep : SofiaContact := ⟨user, domain, parts.1, none⟩
      ep.checkDeliverable
      return ep

end SofiaContact

/-- Distribution order of a group call. -/
inductive GroupCallOrder where
  | all
  | enterprise
  | first
deriving DecidableEq, Repr

namespace GroupCallOrder

def asStr : GroupCallOrder → Text
  | .all => ['A']
  | .enterprise => ['E']
  | .first => ['F']

def fromStr : Text → Option GroupCallOrder
  | ['A'] => some .all
  | ['E'] => some .enterprise
  | ['F'] => some .first
  | _ => none

end GroupCallOrder

/-- Runtime expression resolving the members of a group: `${group_call(group@domain[+order])}`. -/
structure GroupCall where
  group : Text
  domain : Text
  order : Option GroupCallOrder
  vars : Option Variables
deriving DecidableEq

namespace GroupCall

/-- The argument of the function. -/
def argument (ep : GroupCall) : Text :=
  match ep.order with
  | some order => ep.group ++ '@' :: (ep.domain ++ '+' :: order.asStr)
  | none => ep.group ++ '@' :: ep.domain

def moduleText (ep : GroupCall) : Text :=
  "$\x7bgroup_call(".toList ++ ep.argument ++ [')', '}']

/-- Refuse what the function splits, the order at its first `+` and then the domain at `@`, and what
a pass ahead of it reads. -/
def checkDeliverable (ep : GroupCall) : Except OriginateError Unit := do
  checkExpressionField "group_call" "group" ep.group ["+", "@"]
  checkExpressionField "group_call" "domain" ep.domain ["+"]

/-- The order behind the first `+`, and the group and domain ahead of it. -/
def readOrder (inner : Text) : Except OriginateError (Text × Option GroupCallOrder) :=
  match Text.splitFirst '+' inner with
  | none => .ok (inner, none)
  | some (groupAtDomain, order) =>
      match GroupCallOrder.fromStr order with
      | some order => .ok (groupAtDomain, some order)
      | none => .error (.unknownGroupCallOrder order)

def parseBare (text : Text) : Except OriginateError GroupCall := do
  let inner ← expressionBody text "$\x7bgroup_call(" "group_call"
  let (groupAtDomain, order) ← readOrder inner
  match Text.splitFirst '@' groupAtDomain with
  | none => .error (.parseError "group_call needs group@domain".toList)
  | some (group, domain) =>
      let ep : GroupCall := ⟨group, domain, order, none⟩
      ep.checkDeliverable
      return ep

end GroupCall

/-- Bridge to a hangup cause: `error/{cause}`. -/
structure ErrorEndpoint where
  cause : HangupCause
deriving DecidableEq, Repr

namespace ErrorEndpoint

def toText (ep : ErrorEndpoint) : Text := "error/".toList ++ ep.cause.asStr.toList

def fromStr (text : Text) : Except OriginateError ErrorEndpoint :=
  match "error/".toList.isPrefixOf? text with
  | none => .error (.parseError "not an error endpoint".toList)
  | some cause =>
      match HangupCause.fromStr cause with
      | some cause => .ok ⟨cause⟩
      | none => .error (.unknownHangupCause cause)

end ErrorEndpoint

/-- Audio device endpoint: `{module}[/{destination}]`. -/
structure AudioEndpoint where
  destination : Option Text
  vars : Option Variables
deriving DecidableEq

namespace AudioEndpoint

def moduleText (ep : AudioEndpoint) (kind : String) : Text :=
  match ep.destination with
  | some destination => kind.toList ++ '/' :: destination
  | none => kind.toList

/-- Refuse `:_:` and an empty destination, which the module reads as none. -/
def checkDeliverable (ep : AudioEndpoint) : Except OriginateError Unit :=
  match ep.destination with
  | some [] => .error (undeliverable "audio" "destination" .emptyReadsAsDefault)
  | some destination => checkField "audio" "destination" destination []
  | none => .ok ()

def parseBare (text : Text) (kind : String) : Except OriginateError AudioEndpoint := do
  let rest ← afterPrefix text kind kind
  let destination := (['/'].isPrefixOf? rest).filter (· ≠ [])
  let ep : AudioEndpoint := ⟨destination, none⟩
  ep.checkDeliverable
  return ep

end AudioEndpoint

/-- Any endpoint. -/
inductive Endpoint where
  | sofia (ep : SofiaEndpoint)
  | sofiaGateway (ep : SofiaGateway)
  | loopback (ep : LoopbackEndpoint)
  | user (ep : UserEndpoint)
  | sofiaContact (ep : SofiaContact)
  | groupCall (ep : GroupCall)
  | error (ep : ErrorEndpoint)
  | portAudio (ep : AudioEndpoint)
  | pulseAudio (ep : AudioEndpoint)
  | alsa (ep : AudioEndpoint)
deriving DecidableEq

namespace Endpoint

/-- The text after the variable block, as the endpoint module receives it. -/
def moduleText : Endpoint → Text
  | .sofia ep => ep.moduleText
  | .sofiaGateway ep => ep.moduleText
  | .loopback ep => ep.moduleText
  | .user ep => ep.moduleText
  | .sofiaContact ep => ep.moduleText
  | .groupCall ep => ep.moduleText
  | .error ep => ep.toText
  | .portAudio ep => ep.moduleText "portaudio"
  | .pulseAudio ep => ep.moduleText "pulseaudio"
  | .alsa ep => ep.moduleText "alsa"

/-- What the load of a configuration checks. -/
def checkDeliverable : Endpoint → Except OriginateError Unit
  | .sofia ep => ep.checkDeliverable
  | .sofiaGateway ep => ep.checkDeliverable
  | .loopback ep => ep.checkDeliverable
  | .user ep => ep.checkDeliverable
  | .sofiaContact ep => ep.checkDeliverable
  | .groupCall ep => ep.checkDeliverable
  | .error _ => .ok ()
  | .portAudio ep | .pulseAudio ep | .alsa ep => ep.checkDeliverable

/-- The module name a variant renders. -/
def kind : Endpoint → String
  | .sofia _ => "sofia"
  | .sofiaGateway _ => "sofia gateway"
  | .loopback _ => "loopback"
  | .user _ => "user"
  | .sofiaContact _ => "sofia_contact"
  | .groupCall _ => "group_call"
  | .error _ => "error"
  | .portAudio _ => "portaudio"
  | .pulseAudio _ => "pulseaudio"
  | .alsa _ => "alsa"

/-- The variables of an endpoint, which a hangup cause has none of. -/
def vars : Endpoint → Option Variables
  | .sofia ep => ep.vars
  | .sofiaGateway ep => ep.vars
  | .loopback ep => ep.vars
  | .user ep => ep.vars
  | .sofiaContact ep => ep.vars
  | .groupCall ep => ep.vars
  | .error _ => none
  | .portAudio ep | .pulseAudio ep | .alsa ep => ep.vars

/-- Replace the variables, where there can be any. -/
def setVariables (vars : Option Variables) : Endpoint → Endpoint
  | .sofia ep => .sofia { ep with vars }
  | .sofiaGateway ep => .sofiaGateway { ep with vars }
  | .loopback ep => .loopback { ep with vars }
  | .user ep => .user { ep with vars }
  | .sofiaContact ep => .sofiaContact { ep with vars }
  | .groupCall ep => .groupCall { ep with vars }
  | .error ep => .error ep
  | .portAudio ep => .portAudio { ep with vars }
  | .pulseAudio ep => .pulseAudio { ep with vars }
  | .alsa ep => .alsa { ep with vars }

/-- An expression is expanded at the dialplan carrier only. -/
def isExpression : Endpoint → Bool
  | .sofiaContact _ | .groupCall _ => true
  | _ => false

/-- Refuse an expression at a carrier that never expands it. -/
def checkExpanded (ep : Endpoint) : DialStringCarrier → Except OriginateError Unit
  | .eslApi => if ep.isExpression = true then .error (.unexpandedExpression ep.kind) else .ok ()
  | .dialplan => .ok ()

/-- Module name to parser, first match wins. -/
def prefixParsers : List (String × (Text → Except OriginateError Endpoint)) :=
  [("$\x7bsofia_contact(", fun uri => .sofiaContact <$> SofiaContact.parseBare uri),
   ("$\x7bgroup_call(", fun uri => .groupCall <$> GroupCall.parseBare uri),
   ("error/", fun uri => .error <$> ErrorEndpoint.fromStr uri),
   ("loopback/", fun uri => .loopback <$> LoopbackEndpoint.parseBare uri),
   -- Ahead of `sofia/`, which a gateway's text opens too.
   ("sofia/gateway/", fun uri => .sofiaGateway <$> SofiaGateway.parseBare uri),
   ("sofia/", fun uri => .sofia <$> SofiaEndpoint.parseBare uri),
   ("user/", fun uri => .user <$> UserEndpoint.parseBare uri),
   ("portaudio", fun uri => .portAudio <$> AudioEndpoint.parseBare uri "portaudio"),
   ("pulseaudio", fun uri => .pulseAudio <$> AudioEndpoint.parseBare uri "pulseaudio"),
   ("alsa", fun uri => .alsa <$> AudioEndpoint.parseBare uri "alsa")]

/-- Dispatch on the module name of a module text. -/
def parseBare (uri : Text) : Except OriginateError Endpoint :=
  match prefixParsers.find? fun entry => entry.1.toList.isPrefixOf uri with
  | some entry => entry.2 uri
  | none => .error (.unknownEndpointType uri)

/-- A block is written ahead of the endpoint unless it is empty. -/
def writeVariables (vars : Option Variables) (target : DialStringTarget) : Text :=
  match vars with
  | some vars => if vars.isEmpty = true then [] else vars.displayFor target
  | none => []

/-- The dial string as it stands inside its argument: an expression is written for the switch to
expand, every other module text escaped. -/
def writeFor (ep : Endpoint) (target : DialStringTarget) : Text :=
  match ep with
  | .error ep => ep.toText
  | .sofiaContact _ | .groupCall _ => writeVariables ep.vars target ++ ep.moduleText
  | _ => writeVariables ep.vars target ++ escapeText ep.moduleText target .endpoint

/-- The dial string rendered for a target. -/
def displayFor (ep : Endpoint) (target : DialStringTarget) :
    Text := target.writeArgument ep.writeFor

/-- The one leg the switch reads of a dial string: its variables and its module text. -/
def parseLeg {α : Type} (text : Text) (target : DialStringTarget)
    (bare : Text → Except OriginateError α) : Except OriginateError (Option Variables × α) := do
  let (argument, target) ← target.readArgument text
  let (block, endpoint) ← readLeg argument target
  let vars ← installedVariables block
  return (vars, ← bare endpoint)

/-- Parse a dial string written for a target. -/
def parseFor (text : Text) (target : DialStringTarget) : Except OriginateError Endpoint := do
  let (vars, ep) ← parseLeg text target parseBare
  ep.checkExpanded target.carrier
  if vars.isSome = true then
    let ep := ep.setVariables vars
    if ep.vars.isNone = true then .error (.variablesNotSupported ep.kind) else return ep
  else return ep

end Endpoint
end EslTokio
