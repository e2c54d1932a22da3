import EslTokio.Protocol.Parser

/-!
# Command replies

`EslResponse` of `src/command/response.rs`: a reply as `send_command` and the handshake hand it on,
classified by its `Reply-Text` header.
-/

namespace EslTokio

open Library

/-- Classification of a reply by its `Reply-Text` header. -/
inductive ReplyStatus where
  | ok
  | err
  | other
deriving DecidableEq, Repr

/-- Response from the execution of a command. -/
structure EslResponse where
  headers : EslHeaders
  body : Option Text
  rawBody : Option Bytes
  status : ReplyStatus
  lossyValues : List LossyValue
deriving DecidableEq

/-- The status of a `Reply-Text` value; one that is absent or empty counts as `Ok`. -/
def ReplyStatus.ofReplyText : Option Text → ReplyStatus
  | none => .ok
  | some text =>
      if text = [] then .ok
      else if replyPrefixOk.isPrefixOf text then .ok
      else if replyPrefixErr.isPrefixOf text then .err
      else .other

namespace EslResponse

/-- A reply with these headers and body. -/
def new (headers : IndexMap Text Text) (body : Option Text) : EslResponse :=
  let headers := EslHeaders.fromMap headers
  { headers
    body
    rawBody := none
    status := .ofReplyText (headers.headerStr headerReplyText)
    lossyValues := [] }

/-- Build the reply from a parsed message, with its lossy-decode signal and raw body bytes. -/
def fromMessage (message : EslMessage) : EslResponse :=
  { new message.headers message.body with
    rawBody := message.rawBody
    lossyValues := message.lossyValues }

/-- `Reply-Text` is `+OK` or absent. -/
def isSuccess (response : EslResponse) : Bool := response.status = .ok

/-- Raw `Reply-Text` value. -/
def replyText (response : EslResponse) : Option Text :=
  response.headers.headerStr headerReplyText

/-- A reply counts as a success exactly when its `Reply-Text` is absent, empty or starts with
`+OK`. -/
theorem fromMessage_isSuccess (message : EslMessage) :
    (fromMessage message).isSuccess = true ↔
      (fromMessage message).replyText = none ∨ (fromMessage message).replyText = some [] ∨
        ∃ text, (fromMessage message).replyText = some text ∧ replyPrefixOk <+: text := by
  have hstatus : (fromMessage message).status =
      .ofReplyText (fromMessage message).replyText := rfl
  rw [isSuccess, hstatus]
  cases (fromMessage message).replyText with
  | none => simp [ReplyStatus.ofReplyText]
  | some text =>
      simp only [ReplyStatus.ofReplyText, List.isPrefixOf_iff_prefix]
      by_cases hempty : text = []
      · simp [hempty]
      · by_cases hok : replyPrefixOk <+: text
        · simp [hok]
        · simp only [if_neg hempty, if_neg hok]
          split <;> simp [hempty, hok]

end EslResponse
end EslTokio
