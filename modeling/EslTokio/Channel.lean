import EslTokio.Library.Text
import Mathlib.Data.List.Nodup

/-!
# Hangup causes

`HangupCause` of `freeswitch-types/src/channel.rs`: the causes of the switch by wire name.

* `HangupCause.asStr` — the wire name of a cause.
* `HangupCause.fromStr` — the exact inverse: names are matched in canonical case only.
-/

namespace EslTokio

open Library

/-- Hangup causes of the switch. -/
inductive HangupCause where
  | none | unallocatedNumber | noRouteTransitNet | noRouteDestination | channelUnacceptable
  | callAwardedDelivered | normalClearing | userBusy | noUserResponse | noAnswer
  | subscriberAbsent | callRejected | numberChanged | redirectionToNewDestination
  | exchangeRoutingError | destinationOutOfOrder | invalidNumberFormat | facilityRejected
  | responseToStatusEnquiry | normalUnspecified | normalCircuitCongestion | networkOutOfOrder
  | normalTemporaryFailure | switchCongestion | accessInfoDiscarded | requestedChanUnavail
  | preEmpted | facilityNotSubscribed | outgoingCallBarred | incomingCallBarred
  | bearercapabilityNotauth | bearercapabilityNotavail | serviceUnavailable
  | bearercapabilityNotimpl | chanNotImplemented | facilityNotImplemented | serviceNotImplemented
  | invalidCallReference | incompatibleDestination | invalidMsgUnspecified | mandatoryIeMissing
  | messageTypeNonexist | wrongMessage | ieNonexist | invalidIeContents | wrongCallState
  | recoveryOnTimerExpire | mandatoryIeLengthError | protocolError | interworking | success
  | originatorCancel | crash | systemShutdown | loseRace | managerRequest | blindTransfer
  | attendedTransfer | allottedTimeout | userChallenge | mediaTimeout | pickedOff
  | userNotRegistered | progressTimeout | invalidGateway | gatewayDown | invalidUrl
  | invalidProfile | noPickup | srtpReadError | bowout | busyEverywhere | decline
  | doesNotExistAnywhere | notAcceptable | unwanted | noIdentity | badIdentityInfo
  | unsupportedCertificate | invalidIdentity | staleDate | rejectAll
deriving DecidableEq, Repr

namespace HangupCause

/-- Every cause, in the order of the declaration. -/
def variants : List HangupCause :=
  [.none, .unallocatedNumber, .noRouteTransitNet, .noRouteDestination, .channelUnacceptable,
   .callAwardedDelivered, .normalClearing, .userBusy, .noUserResponse, .noAnswer,
   .subscriberAbsent, .callRejected, .numberChanged, .redirectionToNewDestination,
   .exchangeRoutingError, .destinationOutOfOrder, .invalidNumberFormat, .facilityRejected,
   .responseToStatusEnquiry, .normalUnspecified, .normalCircuitCongestion, .networkOutOfOrder,
   .normalTemporaryFailure, .switchCongestion, .accessInfoDiscarded, .requestedChanUnavail,
   .preEmpted, .facilityNotSubscribed, .outgoingCallBarred, .incomingCallBarred,
   .bearercapabilityNotauth, .bearercapabilityNotavail, .serviceUnavailable,
   .bearercapabilityNotimpl, .chanNotImplemented, .facilityNotImplemented, .serviceNotImplemented,
   .invalidCallReference, .incompatibleDestination, .invalidMsgUnspecified, .mandatoryIeMissing,
   .messageTypeNonexist, .wrongMessage, .ieNonexist, .invalidIeContents, .wrongCallState,
   .recoveryOnTimerExpire, .mandatoryIeLengthError, .protocolError, .interworking, .success,
   .originatorCancel, .crash, .systemShutdown, .loseRace, .managerRequest, .blindTransfer,
   .attendedTransfer, .allottedTimeout, .userChallenge, .mediaTimeout, .pickedOff,
   .userNotRegistered, .progressTimeout, .invalidGateway, .gatewayDown, .invalidUrl,
   .invalidProfile, .noPickup, .srtpReadError, .bowout, .busyEverywhere, .decline,
   .doesNotExistAnywhere, .notAcceptable, .unwanted, .noIdentity, .badIdentityInfo,
   .unsupportedCertificate, .invalidIdentity, .staleDate, .rejectAll]

/-- The wire name of a cause. -/
def asStr : HangupCause → String
  | .none => "NONE"
  | .unallocatedNumber => "UNALLOCATED_NUMBER"
  | .noRouteTransitNet => "NO_ROUTE_TRANSIT_NET"
  | .noRouteDestination => "NO_ROUTE_DESTINATION"
  | .channelUnacceptable => "CHANNEL_UNACCEPTABLE"
  | .callAwardedDelivered => "CALL_AWARDED_DELIVERED"
  | .normalClearing => "NORMAL_CLEARING"
  | .userBusy => "USER_BUSY"
  | .noUserResponse => "NO_USER_RESPONSE"
  | .noAnswer => "NO_ANSWER"
  | .subscriberAbsent => "SUBSCRIBER_ABSENT"
  | .callRejected => "CALL_REJECTED"
  | .numberChanged => "NUMBER_CHANGED"
  | .redirectionToNewDestination => "REDIRECTION_TO_NEW_DESTINATION"
  | .exchangeRoutingError => "EXCHANGE_ROUTING_ERROR"
  | .destinationOutOfOrder => "DESTINATION_OUT_OF_ORDER"
  | .invalidNumberFormat => "INVALID_NUMBER_FORMAT"
  | .facilityRejected => "FACILITY_REJECTED"
  | .responseToStatusEnquiry => "RESPONSE_TO_STATUS_ENQUIRY"
  | .normalUnspecified => "NORMAL_UNSPECIFIED"
  | .normalCircuitCongestion => "NORMAL_CIRCUIT_CONGESTION"
  | .networkOutOfOrder => "NETWORK_OUT_OF_ORDER"
  | .normalTemporaryFailure => "NORMAL_TEMPORARY_FAILURE"
  | .switchCongestion => "SWITCH_CONGESTION"
  | .accessInfoDiscarded => "ACCESS_INFO_DISCARDED"
  | .requestedChanUnavail => "REQUESTED_CHAN_UNAVAIL"
  | .preEmpted => "PRE_EMPTED"
  | .facilityNotSubscribed => "FACILITY_NOT_SUBSCRIBED"
  | .outgoingCallBarred => "OUTGOING_CALL_BARRED"
  | .incomingCallBarred => "INCOMING_CALL_BARRED"
  | .bearercapabilityNotauth => "BEARERCAPABILITY_NOTAUTH"
  | .bearercapabilityNotavail => "BEARERCAPABILITY_NOTAVAIL"
  | .serviceUnavailable => "SERVICE_UNAVAILABLE"
  | .bearercapabilityNotimpl => "BEARERCAPABILITY_NOTIMPL"
  | .chanNotImplemented => "CHAN_NOT_IMPLEMENTED"
  | .facilityNotImplemented => "FACILITY_NOT_IMPLEMENTED"
  | .serviceNotImplemented => "SERVICE_NOT_IMPLEMENTED"
  | .invalidCallReference => "INVALID_CALL_REFERENCE"
  | .incompatibleDestination => "INCOMPATIBLE_DESTINATION"
  | .invalidMsgUnspecified => "INVALID_MSG_UNSPECIFIED"
  | .mandatoryIeMissing => "MANDATORY_IE_MISSING"
  | .messageTypeNonexist => "MESSAGE_TYPE_NONEXIST"
  | .wrongMessage => "WRONG_MESSAGE"
  | .ieNonexist => "IE_NONEXIST"
  | .invalidIeContents => "INVALID_IE_CONTENTS"
  | .wrongCallState => "WRONG_CALL_STATE"
  | .recoveryOnTimerExpire => "RECOVERY_ON_TIMER_EXPIRE"
  | .mandatoryIeLengthError => "MANDATORY_IE_LENGTH_ERROR"
  | .protocolError => "PROTOCOL_ERROR"
  | .interworking => "INTERWORKING"
  | .success => "SUCCESS"
  | .originatorCancel => "ORIGINATOR_CANCEL"
  | .crash => "CRASH"
  | .systemShutdown => "SYSTEM_SHUTDOWN"
  | .loseRace => "LOSE_RACE"
  | .managerRequest => "MANAGER_REQUEST"
  | .blindTransfer => "BLIND_TRANSFER"
  | .attendedTransfer => "ATTENDED_TRANSFER"
  | .allottedTimeout => "ALLOTTED_TIMEOUT"
  | .userChallenge => "USER_CHALLENGE"
  | .mediaTimeout => "MEDIA_TIMEOUT"
  | .pickedOff => "PICKED_OFF"
  | .userNotRegistered => "USER_NOT_REGISTERED"
  | .progressTimeout => "PROGRESS_TIMEOUT"
  | .invalidGateway => "INVALID_GATEWAY"
  | .gatewayDown => "GATEWAY_DOWN"
  | .invalidUrl => "INVALID_URL"
  | .invalidProfile => "INVALID_PROFILE"
  | .noPickup => "NO_PICKUP"
  | .srtpReadError => "SRTP_READ_ERROR"
  | .bowout => "BOWOUT"
  | .busyEverywhere => "BUSY_EVERYWHERE"
  | .decline => "DECLINE"
  | .doesNotExistAnywhere => "DOES_NOT_EXIST_ANYWHERE"
  | .notAcceptable => "NOT_ACCEPTABLE"
  | .unwanted => "UNWANTED"
  | .noIdentity => "NO_IDENTITY"
  | .badIdentityInfo => "BAD_IDENTITY_INFO"
  | .unsupportedCertificate => "UNSUPPORTED_CERTIFICATE"
  | .invalidIdentity => "INVALID_IDENTITY"
  | .staleDate => "STALE_DATE"
  | .rejectAll => "REJECT_ALL"

/-- The cause of a wire name. -/
def fromStr (name : Text) : Option HangupCause := variants.find? fun cause =>
    cause.asStr.toList = name

theorem mem_variants (cause : HangupCause) : cause ∈ variants := by
  cases cause <;> decide

/-- A cause is spelled as it was read. -/
theorem asStr_of_fromStr {name : Text} {cause : HangupCause} (h : fromStr name = some cause) :
    cause.asStr.toList = name := by
  simpa using List.find?_some h

/-- No two causes share a name. -/
theorem asStr_injective {cause other : HangupCause} (h : cause.asStr = other.asStr) :
    cause = other := by
  have hbytes : (variants.map fun cause => cause.asStr.toUTF8.data.toList).Nodup := by
    decide +kernel
  refine List.inj_on_of_nodup_map hbytes (mem_variants cause) (mem_variants other) ?_
  rw [h]

theorem fromStr_asStr (cause : HangupCause) : fromStr cause.asStr.toList = some cause := by
  unfold fromStr
  cases hfound : variants.find? fun other => other.asStr.toList = cause.asStr.toList with
  | none =>
      have hmissing := List.find?_eq_none.mp hfound cause (mem_variants cause)
      simp at hmissing
  | some other =>
      have hsame : other.asStr.toList = cause.asStr.toList := by simpa using List.find?_some hfound
      rw [asStr_injective (String.toList_inj.mp hsame)]

end HangupCause
end EslTokio
