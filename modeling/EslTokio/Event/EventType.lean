import EslTokio.Constants

/-!
# Event types and formats

`EslEventType` of `freeswitch-types/src/event/event_type.rs`: one variant for each event name of the
switch, in the order of its own table, and `ALL`, which names every type in a subscription.

* `EventFormat` — the formats an event is sent in, by content type and by wire name.
* `EslEventType.asStr` — the canonical wire name.
* `EslEventType.parseEventType` — the exact inverse: names are matched in canonical case only.
-/

namespace EslTokio

open Library

/-- Event formats of the protocol. -/
inductive EventFormat where
  | plain
  | json
  | xml
deriving DecidableEq, Repr

/-- The event format a `Content-Type` names, or the value that names none. -/
def EventFormat.fromContentType (ct : Text) : Except Text EventFormat :=
  if ct = contentTypeTextEventJson then .ok .json
  else if ct = contentTypeTextEventXml then .ok .xml
  else if ct = contentTypeTextEventPlain then .ok .plain
  else .error ct

/-- The wire name of a format. -/
def EventFormat.asStr : EventFormat → String
  | .plain => "plain"
  | .json => "json"
  | .xml => "xml"

/-- Event types of the switch. -/
inductive EslEventType where
  | custom | clone | channelCreate | channelDestroy | channelState | channelCallstate
  | channelAnswer | channelHangup | channelHangupComplete | channelExecute
  | channelExecuteComplete | channelHold | channelUnhold | channelBridge | channelUnbridge
  | channelProgress | channelProgressMedia | channelOutgoing | channelPark | channelUnpark
  | channelApplication | channelOriginate | channelUuid | api | log | inboundChan | outboundChan
  | startup | shutdown | publish | unpublish | talk | notalk | sessionCrash | moduleLoad
  | moduleUnload | dtmf | message | presenceIn | notifyIn | presenceOut | presenceProbe
  | messageWaiting | messageQuery | roster | codec | backgroundJob | detectedSpeech | detectedTone
  | privateCommand | heartbeat | trap | addSchedule | delSchedule | exeSchedule | reSchedule
  | reloadXml | notify | phoneFeature | phoneFeatureSubscribe | sendMessage | recvMessage
  | requestParams | channelData | general | command | sessionHeartbeat | clientDisconnected
  | serverDisconnected | sendInfo | recvInfo | recvRtcpMessage | sendRtcpMessage | callSecure
  | nat | recordStart | recordStop | playbackStart | playbackStop | callUpdate | failure
  | socketData | mediaBugStart | mediaBugStop | conferenceDataQuery | conferenceData
  | callSetupReq | callSetupResult | callDetail | deviceState | text | shutdownRequested | all
  | startRecording
deriving DecidableEq, Repr

namespace EslEventType

/-- Every variant, in declaration order. -/
def variants : List EslEventType :=
  [.custom, .clone, .channelCreate, .channelDestroy, .channelState, .channelCallstate,
   .channelAnswer, .channelHangup, .channelHangupComplete, .channelExecute,
   .channelExecuteComplete, .channelHold, .channelUnhold, .channelBridge, .channelUnbridge,
   .channelProgress, .channelProgressMedia, .channelOutgoing, .channelPark, .channelUnpark,
   .channelApplication, .channelOriginate, .channelUuid, .api, .log, .inboundChan, .outboundChan,
   .startup, .shutdown, .publish, .unpublish, .talk, .notalk, .sessionCrash, .moduleLoad,
   .moduleUnload, .dtmf, .message, .presenceIn, .notifyIn, .presenceOut, .presenceProbe,
   .messageWaiting, .messageQuery, .roster, .codec, .backgroundJob, .detectedSpeech, .detectedTone,
   .privateCommand, .heartbeat, .trap, .addSchedule, .delSchedule, .exeSchedule, .reSchedule,
   .reloadXml, .notify, .phoneFeature, .phoneFeatureSubscribe, .sendMessage, .recvMessage,
   .requestParams, .channelData, .general, .command, .sessionHeartbeat, .clientDisconnected,
   .serverDisconnected, .sendInfo, .recvInfo, .recvRtcpMessage, .sendRtcpMessage, .callSecure,
   .nat, .recordStart, .recordStop, .playbackStart, .playbackStop, .callUpdate, .failure,
   .socketData, .mediaBugStart, .mediaBugStop, .conferenceDataQuery, .conferenceData,
   .callSetupReq, .callSetupResult, .callDetail, .deviceState, .text, .shutdownRequested, .all,
   .startRecording]

/-- The canonical wire name. -/
def asStr : EslEventType → String
  | .custom => "CUSTOM"
  | .clone => "CLONE"
  | .channelCreate => "CHANNEL_CREATE"
  | .channelDestroy => "CHANNEL_DESTROY"
  | .channelState => "CHANNEL_STATE"
  | .channelCallstate => "CHANNEL_CALLSTATE"
  | .channelAnswer => "CHANNEL_ANSWER"
  | .channelHangup => "CHANNEL_HANGUP"
  | .channelHangupComplete => "CHANNEL_HANGUP_COMPLETE"
  | .channelExecute => "CHANNEL_EXECUTE"
  | .channelExecuteComplete => "CHANNEL_EXECUTE_COMPLETE"
  | .channelHold => "CHANNEL_HOLD"
  | .channelUnhold => "CHANNEL_UNHOLD"
  | .channelBridge => "CHANNEL_BRIDGE"
  | .channelUnbridge => "CHANNEL_UNBRIDGE"
  | .channelProgress => "CHANNEL_PROGRESS"
  | .channelProgressMedia => "CHANNEL_PROGRESS_MEDIA"
  | .channelOutgoing => "CHANNEL_OUTGOING"
  | .channelPark => "CHANNEL_PARK"
  | .channelUnpark => "CHANNEL_UNPARK"
  | .channelApplication => "CHANNEL_APPLICATION"
  | .channelOriginate => "CHANNEL_ORIGINATE"
  | .channelUuid => "CHANNEL_UUID"
  | .api => "API"
  | .log => "LOG"
  | .inboundChan => "INBOUND_CHAN"
  | .outboundChan => "OUTBOUND_CHAN"
  | .startup => "STARTUP"
  | .shutdown => "SHUTDOWN"
  | .publish => "PUBLISH"
  | .unpublish => "UNPUBLISH"
  | .talk => "TALK"
  | .notalk => "NOTALK"
  | .sessionCrash => "SESSION_CRASH"
  | .moduleLoad => "MODULE_LOAD"
  | .moduleUnload => "MODULE_UNLOAD"
  | .dtmf => "DTMF"
  | .message => "MESSAGE"
  | .presenceIn => "PRESENCE_IN"
  | .notifyIn => "NOTIFY_IN"
  | .presenceOut => "PRESENCE_OUT"
  | .presenceProbe => "PRESENCE_PROBE"
  | .messageWaiting => "MESSAGE_WAITING"
  | .messageQuery => "MESSAGE_QUERY"
  | .roster => "ROSTER"
  | .codec => "CODEC"
  | .backgroundJob => "BACKGROUND_JOB"
  | .detectedSpeech => "DETECTED_SPEECH"
  | .detectedTone => "DETECTED_TONE"
  | .privateCommand => "PRIVATE_COMMAND"
  | .heartbeat => "HEARTBEAT"
  | .trap => "TRAP"
  | .addSchedule => "ADD_SCHEDULE"
  | .delSchedule => "DEL_SCHEDULE"
  | .exeSchedule => "EXE_SCHEDULE"
  | .reSchedule => "RE_SCHEDULE"
  | .reloadXml => "RELOADXML"
  | .notify => "NOTIFY"
  | .phoneFeature => "PHONE_FEATURE"
  | .phoneFeatureSubscribe => "PHONE_FEATURE_SUBSCRIBE"
  | .sendMessage => "SEND_MESSAGE"
  | .recvMessage => "RECV_MESSAGE"
  | .requestParams => "REQUEST_PARAMS"
  | .channelData => "CHANNEL_DATA"
  | .general => "GENERAL"
  | .command => "COMMAND"
  | .sessionHeartbeat => "SESSION_HEARTBEAT"
  | .clientDisconnected => "CLIENT_DISCONNECTED"
  | .serverDisconnected => "SERVER_DISCONNECTED"
  | .sendInfo => "SEND_INFO"
  | .recvInfo => "RECV_INFO"
  | .recvRtcpMessage => "RECV_RTCP_MESSAGE"
  | .sendRtcpMessage => "SEND_RTCP_MESSAGE"
  | .callSecure => "CALL_SECURE"
  | .nat => "NAT"
  | .recordStart => "RECORD_START"
  | .recordStop => "RECORD_STOP"
  | .playbackStart => "PLAYBACK_START"
  | .playbackStop => "PLAYBACK_STOP"
  | .callUpdate => "CALL_UPDATE"
  | .failure => "FAILURE"
  | .socketData => "SOCKET_DATA"
  | .mediaBugStart => "MEDIA_BUG_START"
  | .mediaBugStop => "MEDIA_BUG_STOP"
  | .conferenceDataQuery => "CONFERENCE_DATA_QUERY"
  | .conferenceData => "CONFERENCE_DATA"
  | .callSetupReq => "CALL_SETUP_REQ"
  | .callSetupResult => "CALL_SETUP_RESULT"
  | .callDetail => "CALL_DETAIL"
  | .deviceState => "DEVICE_STATE"
  | .text => "TEXT"
  | .shutdownRequested => "SHUTDOWN_REQUESTED"
  | .all => "ALL"
  | .startRecording => "START_RECORDING"

/-- Parse a wire name, in canonical case. -/
def parseEventType (name : Text) : Option EslEventType :=
  variants.find? fun eventType => eventType.asStr.toList = name

/-- A parsed type is spelled as it was read. -/
theorem asStr_of_parseEventType {name : Text} {eventType : EslEventType}
    (h : parseEventType name = some eventType) : eventType.asStr.toList = name := by
  have hfound := List.find?_some h
  simpa using hfound

end EslEventType
end EslTokio
