import EslTokio.DialString.Target

/-!
# What refuses a dial string

`freeswitch-types/src/commands/originate/error.rs` and the field faults of
`commands/endpoint/mod.rs`.
-/

namespace EslTokio

open Library SwitchPasses

/-- Why an endpoint field cannot reach the switch as written. -/
inductive EndpointFieldFault where
  | enterpriseSeparator
  | moduleSeparator (sep : String)
  | readsAsGateway
  | followsAnApplication
  | emptyReadsAsDefault
  | functionSeparator (sep : String)
  | readBeforeTheFunction
  | emptyDialsNothing
deriving DecidableEq, Repr

/-- Errors from dial-string parsing or construction. -/
inductive OriginateError where
  | unclosedQuote (token : Text)
  | parseError (message : Text)
  | extensionWithInlineDialplan
  | emptyInlineApplications
  | inlineApplicationsWithDialplan
  | variablesNotSupported (kind : String)
  | invalidTimeout (value : Text)
  | unknownHangupCause (value : Text)
  | unknownGroupCallOrder (value : Text)
  | unknownEndpointType (uri : Text)
  | invalidInlineDelimiter (delimiter : Char)
  | invalidArgvSeparator (source : InvalidArgvSeparator)
  | undefPositional (field : String)
  | extensionReadsAsApplication
  | parenthesisInApplication (application : Text)
  | undeliverableEndpointField (endpoint field : String) (fault : EndpointFieldFault)
  | bracketSpansLegs (group : Nat)
  | unexpandedExpression (endpoint : String)
deriving DecidableEq, Repr

end EslTokio
