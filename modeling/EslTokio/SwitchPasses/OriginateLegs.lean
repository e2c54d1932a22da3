import EslTokio.SwitchPasses.Brackets
import EslTokio.SwitchPasses.Expansion

/-!
# Threads, groups and legs

`freeswitch-types/src/switch_passes/originate_legs.rs` and `pipeline.rs`: the passes
`switch_ivr_originate` and `switch_ivr_enterprise_originate` run over a dial string up to each leg's
endpoint, and the carrier's pass ahead of them.

* `escapeBlockCommas` — the comma scan over a group, which hides the commas of `[]` blocks from the
  leg split.
* `Reader.leg`, `Reader.group`, `Reader.thread` — the splits in place and the blocks ahead of each.
* `dialList` — the `:_:` thread split and what it leaves.
* `read` — every pass a target applies, from the text as given to what each leg's channel receives.
-/

namespace EslTokio
namespace SwitchPasses

open Library

/-- `MAX_PEERS`: the most threads, groups or legs a split keeps. -/
def maxPeers : Nat := 128

/-- `SWITCH_ENT_ORIGINATE_DELIM`. -/
def enterpriseDelim : Text := [':', '_', ':']

/-- What a `[]` block's comma is turned into before the leg split, inside quotes or a `^^` block. -/
def quotedEscComma : Char := '\x01'

/-- What a `[]` block's comma is turned into before the leg split. -/
def unquotedEscComma : Char := '\x02'

/-- One leg: where it sits in the input, its blocks, and the endpoint text behind them. -/
structure Leg where
  raw : Span
  blocks : List Block
  endpoint : Text
deriving DecidableEq, Repr

/-- One `:_:` thread, or the whole dial string when there is none. -/
structure Thread where
  raw : Span
  blocks : List Block
  groups : List (List Leg)
  /-- The thread opts into values that name a variable. -/
  nestedVars : Bool
deriving DecidableEq, Repr

/-- A dial string behind every pass up to the channel. -/
structure DialList where
  blocks : List Block
  threads : List Thread
  /-- A quote kept a leg separator from splitting. -/
  quoteSpansLegs : Bool
  /-- The carrier substitutes a reference. -/
  carrierExpands : Bool
deriving DecidableEq, Repr

/-- Whether a text is taken down the enterprise path, whatever quoting surrounds the delimiter. -/
def splitsIntoThreads (text : Text) : Bool := (find text enterpriseDelim).isSome

/-- `switch_stristr` for the opt-in `switch_ivr_originate` looks for in the text it dials. -/
def optsIntoNestedVars (text : List Traced) : Bool :=
  (find (Text.toAsciiLowercase (untrace text)) "origination_nested_vars=true".toList).isSome

/-- A value without its sign. -/
def unsigned : Text → Text
  | '-' :: rest | '+' :: rest => rest
  | text => text

/-- `switch_true`. -/
def switchTrue (value : Text) : Bool :=
  let word := ["yes", "on", "true", "t", "enabled", "active", "allow"].any fun word =>
    sameHeader value word.toList
  let number := (unsigned value).all fun c => c = '.' || c.isDigit
  let nonzero := ((unsigned value).takeWhile Char.isDigit).any fun c => c ≠ '0'
  word || (number && nonzero)

/-- The `<>` event handed to every thread opts into nested variables. -/
def enterpriseNests (blocks : List Block) : Bool :=
  ((install blocks).find? fun header => sameHeader header.1 "origination_nested_vars".toList).any
    fun header => switchTrue header.2

/-- The state of the comma scan: the char before, where the block being scanned ends, whether a
quote is open, and whether the block names its separator. -/
structure CommaScan where
  before : Option Char
  stop : Option Nat
  quoted : Bool
  alt : Bool

/-- The state in which the entry at an index is scanned: a `[` outside a block opens one. -/
def CommaScan.enter (scan : CommaScan) (index : Nat) (text : Text) : CommaScan :=
  match text with
  | '[' :: rest =>
      if scan.stop = none then
        { scan with
          stop := (findEndParen text '[' ']').map (index + ·)
          quoted := false
          alt := ['^', '^'].isPrefixOf rest }
      else scan
  | _ => scan

/-- The comma scan run over a group from an index on, in place. -/
def escapeBlockCommasFrom (scan : CommaScan) (index : Nat) : List Traced → List Traced
  | [] => []
  | cell :: rest =>
      let scan := scan.enter index (chars (cell :: rest))
      let quoted := if cell.char = '\'' then !scan.quoted else scan.quoted
      let hides := cell.char = ',' && scan.before ≠ some '\\' && scan.stop.any (index < ·)
      let c := if hides then if quoted || scan.alt then quotedEscComma else unquotedEscComma
        else cell.char
      let stop := if scan.stop = some index then none else scan.stop
      { cell with char := c } ::
        escapeBlockCommasFrom ⟨some c, stop, quoted, scan.alt⟩ (index + 1) rest

/-- The comma pre-scan `switch_ivr_originate` runs over a group before its leg split. -/
def escapeBlockCommas (group : List Traced) : List Traced :=
  escapeBlockCommasFrom ⟨none, none, false, false⟩ 0 group

/-- The blocks ahead of a list or thread, and where in its text they end. -/
structure HeadBlocks where
  blocks : List Block
  /-- The text read, as the blocks' parse left it. -/
  text : List Traced
  /-- The index behind the last block, or 0 with none. -/
  stop : Nat
  /-- The index the data starts at, past the spaces around the blocks. -/
  data : Nat
  /-- The index of the data's terminator. -/
  dataStop : Nat

/-- Token `k` of a split of the data, as indices into the whole text; the first reaches back to the
blocks. -/
def HeadBlocks.span (head : HeadBlocks) (k : Nat) (span : Span) : Span :=
  ⟨if k = 0 ∧ span.start = 0 then head.stop else span.start + head.data, span.stop + head.data⟩

/-- The data the blocks stand ahead of. -/
def HeadBlocks.scanned (head : HeadBlocks) : List Traced := head.text.take head.dataStop

/-- The blocks of one kind from an index on: the buffer, the blocks and the index behind them. Every
block is longer than nothing, so `fuel` is the length of the buffer. -/
def blocksOf (opener closer comma : Char) (leg : Nat) (blockParse : BlockParse)
    (unhide : CBuffer → Nat → CBuffer) :
    (fuel : Nat) → CBuffer → Nat → Except PipelineError (CBuffer × List Block × Nat)
  | 0, buffer, index => .ok (buffer, [], index)
  | fuel + 1, buffer, index =>
      if buffer.charAt index = opener then
        match parseBlock (unhide buffer index) index opener closer comma blockParse with
        | none => .error (.unclosedBlock leg)
        | some (buffer, parsed) => do
            let (block, next) ← parsed.read
            let (buffer, blocks, stop) ←
              blocksOf opener closer comma leg blockParse unhide fuel buffer next
            return (buffer, block :: blocks, stop)
      else .ok (buffer, [], index)

/-- Each kind of block in turn, as many as follow one another, behind the spaces ahead of a text. -/
def headBlocks (text : List Traced) (kinds : List (Char × Char)) (leg : Nat)
    (blockParse : BlockParse) : Except PipelineError HeadBlocks := do
  let buffer := CBuffer.new text
  let (buffer, blocks, pos) ← kinds.foldlM (fun (state : CBuffer × List Block × Nat) kind => do
      let (buffer, blocks, pos) := state
      let (buffer, more, pos) ← blocksOf kind.1 kind.2 ',' leg blockParse (fun buffer _ => buffer)
        buffer.cells.length buffer pos
      return (buffer, blocks ++ more, pos)) (buffer, [], leadingSpaces (chars text))
  let data := pos + leadingSpaces (chars (buffer.cStr pos))
  return ⟨blocks, buffer.cells, if blocks = [] then 0 else pos, data,
    data + (buffer.cStr data).length⟩

/-- What the passes of one dial string carry along. -/
structure Reader where
  blockParse : BlockParse
  legs : Nat
  quoteSpansLegs : Bool

/-- Turn the hidden commas of the `[]` block at an index back. -/
def unhideCommas (buffer : CBuffer) (index : Nat) : CBuffer :=
  match findEndParen (chars (buffer.cStr index)) '[' ']' with
  | none => buffer
  | some stop =>
      buffer.overwrite (index + 1) (((buffer.cStr index).take stop |>.drop 1).map fun cell =>
        if cell.char = quotedEscComma then { cell with char := ',' } else cell)

namespace Reader

/-- The leg at an index, which covers the input bytes `raw`. -/
def leg (reader : Reader) (buffer : CBuffer) (start : Nat) (raw : Span) :
    Except PipelineError (Reader × CBuffer × Leg) := do
  let pos := start + leadingSpaces (chars (buffer.cStr start))
  let (buffer, blocks, pos) ← blocksOf '[' ']' unquotedEscComma reader.legs reader.blockParse
    unhideCommas buffer.cells.length buffer pos
  return ({ reader with legs := reader.legs + 1 }, buffer,
    ⟨raw, blocks, untrace (skipSpaces (buffer.cStr pos))⟩)

/-- The legs of the tokens of a group, in turn. -/
def readLegs (scanned : List Traced) (start : Nat) (raw : Span) (reader : Reader)
    (buffer : CBuffer) :
    List SplitToken → Except PipelineError (Reader × CBuffer × List Leg)
  | [] => .ok (reader, buffer, [])
  | token :: tokens => do
      let within := fun index => min (index - start) scanned.length
      let span : Span := ⟨within token.raw.start, within token.raw.stop⟩
      let (reader, buffer, leg) ← reader.leg buffer token.start (byteRange scanned raw span)
      let (reader, buffer, legs) ← readLegs scanned start raw reader buffer tokens
      return (reader, buffer, leg :: legs)

/-- The group at an index, which covers the input bytes `raw`. -/
def group (reader : Reader) (buffer : CBuffer) (start : Nat) (raw : Span) :
    Except PipelineError (Reader × CBuffer × List Leg) :=
  let buffer := buffer.overwrite start (escapeBlockCommas (buffer.cStr start))
  let scanned := buffer.cStr start
  let result := buffer.separate start ',' (some maxPeers)
  if result.2.unreadableHead = true then .error .splitSeparatorUnreadable
  else
    readLegs scanned start raw
      { reader with quoteSpansLegs := reader.quoteSpansLegs || result.2.heldDelimiter }
      result.1 result.2.tokens

/-- The groups of the tokens of a thread, numbered from `k`, in turn. -/
def readGroups (head : HeadBlocks) (raw : Span) (k : Nat) (reader : Reader) (buffer : CBuffer) :
    List SplitToken → Except PipelineError (Reader × List (List Leg))
  | [] => .ok (reader, [])
  | token :: tokens => do
      let (reader, buffer, legs) ← reader.group buffer token.start
        (byteRange head.scanned raw (head.span k token.raw))
      let (reader, groups) ← readGroups head raw (k + 1) reader buffer tokens
      return (reader, legs :: groups)

/-- The thread of a text, which covers the input bytes `raw`. -/
def thread (reader : Reader) (text : List Traced) (raw : Span) :
    Except PipelineError (Reader × Thread) := do
  let head ← headBlocks text [('<', '>'), ('{', '}')] reader.legs reader.blockParse
  let data := head.scanned.drop head.data
  if data = [] then .error .empty
  else
    let result := (CBuffer.new data).separate 0 '|' (some maxPeers)
    if result.2.unreadableHead = true then .error .splitSeparatorUnreadable
    else
      let (reader, groups) ← readGroups head raw 0
        { reader with quoteSpansLegs := reader.quoteSpansLegs || result.2.heldDelimiter }
        result.1 result.2.tokens
      return (reader, ⟨raw, head.blocks, groups, optsIntoNestedVars text⟩)

/-- The threads of the spans of an enterprise split, numbered from `k`, in turn. -/
def readThreads (head : HeadBlocks) (raw : Span) (k : Nat) (reader : Reader) :
    List Span → Except PipelineError (Reader × List Thread)
  | [] => .ok (reader, [])
  | span :: spans => do
      let span := head.span k span
      let text := (head.scanned.take span.stop).drop span.start
      let (reader, thread) ← reader.thread text (byteRange head.scanned raw span)
      let (reader, threads) ← readThreads head raw (k + 1) reader spans
      return (reader, thread :: threads)

end Reader

/-- `switch_ivr_originate`'s passes over a text, what the carrier's pass left of the input bytes
`raw`. -/
def dialList (text : List Traced) (raw : Span) (carrierExpands : Bool) (blockParse : BlockParse) :
    Except PipelineError DialList :=
  let reader : Reader := ⟨blockParse, 0, false⟩
  if (find (chars text) enterpriseDelim).isSome = true then do
    let head ← headBlocks text [('<', '>')] 0 blockParse
    let spans := separateStringString (chars (head.scanned.drop head.data)) enterpriseDelim maxPeers
    let (reader, threads) ← reader.readThreads head raw 0 spans
    let inherited := enterpriseNests head.blocks
    return ⟨head.blocks,
      threads.map fun thread => { thread with nestedVars := thread.nestedVars || inherited },
      reader.quoteSpansLegs, carrierExpands⟩
  else do
    let (reader, thread) ← reader.thread text raw
    return ⟨[], [thread], reader.quoteSpansLegs, carrierExpands⟩

/-- `originate`'s own argument split, which the dial string must survive as one argument: that
argument and the input bytes it covers. -/
def apiArgument (text : List Traced) (target : DialStringTarget) :
    Except PipelineError (List Traced × Span) :=
  match target.splitArgument text with
  | none => .ok (text, extent text)
  | some (.error _) => .error .argvSplit
  | some (.ok none) => .error .empty
  | some (.ok (some token)) => .ok (token.text, byteRange text (extent text) token.raw)

/-- Run every pass a target applies, from the text as given to what each leg's channel receives. -/
def read (input : Text) (target : DialStringTarget) : Except PipelineError DialList :=
  let input := trace input
  match target.carrier with
  | .eslApi => do
      let (text, raw) ← apiArgument input target
      dialList text raw false target.blockParse
  | .dialplan =>
      let expanded := expandEscapes input
      dialList expanded.1 (extent input) (!expanded.2.isEmpty) target.blockParse

end SwitchPasses
end EslTokio
