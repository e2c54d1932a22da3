import EslTokio.SwitchPasses.BlockRead
import EslTokio.SwitchPasses.OriginateLegs

/-!
# Legs, groups and threads read in place

What the passes over a thread read of a text whose pieces are known.

* `LegReads` — what a leg's text is read as, wherever it stands.
* `GroupReads` — what a group's text is read as: the comma scan, the `,` split and each leg.
* **`thread_reads`** — what a thread is read as: the block ahead, the `|` split and each group.
-/

namespace EslTokio
namespace SwitchPasses

open Library

/-! ### The blocks at a place -/

section Blocks

variable {opener closer comma : Char} {leg : Nat} {blockParse : BlockParse}
  {unhide : CBuffer → Nat → CBuffer}

theorem blocksOf_absent {buffer : CBuffer} {index : Nat} (h : buffer.charAt index ≠ opener)
    (fuel : Nat) :
    blocksOf opener closer comma leg blockParse unhide fuel buffer index = .ok
      (buffer, [], index) := by
  cases fuel with
  | zero => rfl
  | succ fuel =>
      unfold blocksOf
      rw [if_neg h]

theorem blocksOf_one {buffer buffer' : CBuffer} {index next : Nat} {block : Block}
    (hopen : buffer.charAt index = opener)
    (hparse : parseBlock (unhide buffer index) index opener closer comma blockParse =
      some (buffer', ⟨block, next, false⟩))
    (hnext : buffer'.charAt next ≠ opener) {fuel : Nat} (hfuel : 0 < fuel) :
    blocksOf opener closer comma leg blockParse unhide fuel buffer index =
      .ok (buffer', [block], next) := by
  obtain ⟨fuel, rfl⟩ := Nat.exists_eq_add_of_lt hfuel
  rw [Nat.zero_add]
  unfold blocksOf
  rw [if_pos hopen, hparse]
  simp only [Parsed.read, Bool.false_eq_true, if_false, bind, Except.bind, blocksOf_absent hnext]
  rfl

end Blocks

/-! ### Legs -/

/-- What a leg's text is read as, wherever it stands. -/
def LegReads (blockParse : BlockParse) (text : List Traced) (blocks : List Block)
    (endpoint : Text) :
    Prop :=
  ∀ (reader : Reader) (raw : Span) (pre post : List Traced) (nul : Traced),
    reader.blockParse = blockParse → nul.char = '\x00' →
    ∃ body, body.length = text.length + 1 ∧
      reader.leg ⟨pre ++ text ++ nul :: post⟩ pre.length raw =
        .ok ({ reader with legs := reader.legs + 1 }, ⟨pre ++ body ++ post⟩,
        ⟨raw, blocks, endpoint⟩)

theorem skipSpaces_trimmed {s : List Traced} (h : ∀ c ∈ (chars s).head?, c ≠ ' ') :
    skipSpaces s = s := by
  cases s with
  | nil => rfl
  | cons cell s =>
      rw [skipSpaces, List.dropWhile_cons_of_neg]
      simpa using h cell.char rfl

theorem leadingSpaces_trimmed {x : Text} (h : ∀ c ∈ x.head?, c ≠ ' ') : leadingSpaces x = 0 := by
  cases x with
  | nil => rfl
  | cons c x => exact leadingSpaces_cons (h c rfl) x

/-- The char where a string starts, or its terminator. -/
theorem charAt_head {s : List Traced} {nul : Traced} (hnul : nul.char = '\x00')
    (pre post : List Traced) :
    (CBuffer.mk (pre ++ s ++ nul :: post)).charAt pre.length = (chars s).head?.getD '\x00' := by
  rw [List.append_assoc, show (CBuffer.mk (pre ++ (s ++ nul :: post))).charAt pre.length =
    (CBuffer.mk (s ++ nul :: post)).charAt 0 from charAt_pre pre _ 0]
  cases s with
  | nil => exact hnul
  | cons cell s => rfl

theorem head_ne {x : Text} {c : Char} (hc : c ≠ '\x00') (h : ∀ d ∈ x.head?, d ≠ c) :
    x.head?.getD '\x00' ≠ c := by
  cases x with
  | nil => exact Ne.symm hc
  | cons d x => exact h d rfl

/-- A leg with no block is its endpoint. -/
theorem legReads_bare {blockParse : BlockParse} {lo : Nat} {s : List Traced} {endpoint : Text}
    (hspelled : Spelled 0 lo s) (hfree : NulFree s) (hchars : chars s = spell endpoint)
    (hhead : ∀ c ∈ (chars s).head?, c ≠ ' ' ∧ c ≠ '[') : LegReads blockParse s [] endpoint := by
  intro reader raw pre post nul hreader hnul
  refine ⟨s ++ [nul], by simp, ?_⟩
  have hspaces : leadingSpaces (chars s) = 0 := leadingSpaces_trimmed fun c hc => (hhead c hc).1
  have hstart : (CBuffer.mk (pre ++ s ++ nul :: post)).charAt pre.length ≠ '[' := by
    rw [charAt_head hnul]
    exact head_ne (by decide) fun c hc => (hhead c hc).2
  have hendpoint : untrace (skipSpaces s) = endpoint := by
    rw [skipSpaces_trimmed fun c hc => (hhead c hc).1]
    exact untrace_eq hspelled hchars
  have hbody : pre ++ (s ++ [nul]) ++ post = pre ++ s ++ nul :: post := by simp
  rw [hbody, Reader.leg, cStr_append hfree hnul, hspaces, Nat.add_zero, blocksOf_absent hstart]
  simp only [bind, Except.bind, cStr_append hfree hnul, hendpoint]
  rfl

/-- The entry of a `[]` block with its hidden comma turned back. -/
def unhideCell (cell : Traced) : Traced :=
  if cell.char = quotedEscComma then { cell with char := ',' } else cell

/-- The hidden commas of a `[]` block are turned back. -/
theorem unhideCommas_inPlace {cell close nul : Traced} {data rest : List Traced}
    (hcell : cell.char = '[') (hclose : close.char = ']') (hnul : nul.char = '\x00')
    (hfree : NulFree (cell :: (data ++ close :: rest))) (hbalanced : Balanced '[' ']' (chars data))
    (pre post : List Traced) :
    unhideCommas ⟨pre ++ (cell :: (data ++ close :: rest)) ++ nul :: post⟩ pre.length =
      ⟨pre ++ (cell :: (data.map unhideCell ++ close :: rest)) ++ nul :: post⟩ := by
  have htext : chars (cell :: (data ++ close :: rest)) = '[' ::
      (chars data ++ ']' :: chars rest) := by
    simp [hcell, hclose]
  have hinside : ((cell :: (data ++ close :: rest)).take (data.length + 1)).drop 1 = data := by
    simp
  rw [unhideCommas, cStr_append hfree hnul, htext,
    findEndParen_balanced (by decide) (by decide) hbalanced, length_chars]
  dsimp only
  rw [hinside]
  have hbuffer : pre ++ (cell :: (data ++ close :: rest)) ++ nul :: post =
      (pre ++ [cell]) ++ data ++ (close :: rest ++ nul :: post) := by simp
  have hindex : pre.length + 1 = (pre ++ [cell]).length := by simp
  rw [hbuffer, hindex, overwrite_append _ _ _ _ (by simp)]
  simp [unhideCell]

/-- A leg behind one block. -/
theorem legReads_block {blockParse : BlockParse} {lo : Nat} {cell close : Traced}
    {data rest : List Traced} {pairs : List Pair} {endpoint : Text} (hcell : cell.char = '[')
    (hclose : close.char = ']') (hspelled : Spelled 0 lo rest)
    (hfree : NulFree (cell :: (data ++ close :: rest)))
    (hfree' : NulFree (data.map unhideCell))
    (hbalanced : Balanced '[' ']' (chars data))
    (hbalanced' : Balanced '[' ']' (chars (data.map unhideCell)))
    (hsep : (blockSeparator unquotedEscComma (chars (data.map unhideCell))).toNat < 128)
    (hchars : chars rest = spell endpoint)
    (hhead : ∀ c ∈ (chars rest).head?, c ≠ ' ' ∧ c ≠ '[')
    (hdata : DataReads blockParse unquotedEscComma (data.map unhideCell) pairs) :
    LegReads blockParse (cell :: (data ++ close :: rest))
      [⟨'[', blockSeparator unquotedEscComma (chars (data.map unhideCell)), pairs, false⟩]
      endpoint := by
  intro reader raw pre post nul hreader hnul
  have hrestFree : NulFree rest := fun c hc => hfree c (by simp [hc])
  have hfree'' : NulFree (cell :: (data.map unhideCell ++ close :: rest)) := by
    intro c hc
    rcases List.mem_cons.mp hc with rfl | hc
    · exact hfree c List.mem_cons_self
    rcases List.mem_append.mp hc with hc | hc
    · exact hfree' c hc
    · exact hfree c (List.mem_cons_of_mem _ (List.mem_append_right _ hc))
  have hunhide := unhideCommas_inPlace hcell hclose hnul hfree hbalanced pre post
  obtain ⟨body, hbody, hparse⟩ :=
    parseBlock_inPlace (by decide) (by decide) hcell hclose hnul hfree''
    hbalanced' hsep hhead hdata pre post
  rw [List.length_map] at hbody hparse
  have hnextIndex : pre.length + (data.length + 2) = (pre ++ body).length := by
    rw [List.length_append, hbody]
  refine ⟨body ++ rest ++ [nul], ?_, ?_⟩
  · simp only [List.length_append, List.length_cons, List.length_nil, hbody]
    omega
  have hspaces : leadingSpaces (chars (cell :: (data ++ close :: rest))) = 0 :=
    leadingSpaces_trimmed (by simp [hcell])
  have hopen : (CBuffer.mk (pre ++ (cell :: (data ++ close :: rest)) ++ nul :: post)).charAt
      pre.length
      = '[' := by
    rw [charAt_head hnul]
    exact hcell
  have hnext : (CBuffer.mk (pre ++ body ++ rest ++ nul :: post)).charAt
      (pre.length + (data.length + 2)) ≠ '[' := by
    rw [hnextIndex, charAt_head hnul]
    exact head_ne (by decide) fun c hc => (hhead c hc).2
  have hendpoint : untrace (skipSpaces rest) = endpoint := by
    rw [skipSpaces_trimmed fun c hc => (hhead c hc).1]
    exact untrace_eq hspelled hchars
  have hbuffer : pre ++ (body ++ rest ++ [nul]) ++ post = (pre ++ body) ++ rest ++ nul :: post := by
    simp
  have hfuel : 0 < (pre ++ (cell :: (data ++ close :: rest)) ++ nul :: post).length := by
    rw [List.length_append, List.length_cons]
    omega
  rw [hbuffer, Reader.leg, cStr_append hfree hnul, hspaces, Nat.add_zero, hreader,
    blocksOf_one hopen (by rw [hunhide]; exact hparse) hnext hfuel]
  simp only [bind, Except.bind, hnextIndex, cStr_append hrestFree hnul, hendpoint]
  rfl

/-! ### Groups -/

/-- What a leg is read as. -/
structure LegReading where
  blocks : List Block
  endpoint : Text
deriving DecidableEq

/-- What is read of a leg, wherever it sits in the input. -/
def Leg.reading (leg : Leg) : LegReading := ⟨leg.blocks, leg.endpoint⟩

/-- A reader that only counted legs. -/
def Reader.Counted (reader later : Reader) : Prop :=
  later.blockParse = reader.blockParse ∧ later.quoteSpansLegs = reader.quoteSpansLegs

theorem readLegs_inPlace {blockParse : BlockParse} {base : Nat} {body : List Traced}
    {starts : List Nat} {texts : List (List Traced)} (hslots : Slots base body starts texts)
    {tokens : List SplitToken} (htokens : tokens.map (·.start) = starts)
    {readings : List LegReading} (hlegs : List.Forall₂ (fun text (reading : LegReading) =>
      LegReads blockParse text reading.blocks reading.endpoint) texts readings)
    (scanned : List Traced) (start : Nat) (raw : Span) (reader : Reader)
    (hreader : reader.blockParse = blockParse) (pre post : List Traced)
    (hbase : pre.length = base) :
    ∃ later body' legs, reader.Counted later ∧ body'.length = body.length ∧
      legs.map Leg.reading = readings ∧
      Reader.readLegs scanned start raw reader ⟨pre ++ body ++ post⟩ tokens =
        .ok (later, ⟨pre ++ body' ++ post⟩, legs) := by
  induction hslots generalizing tokens readings pre reader with
  | nil base =>
      cases hlegs
      obtain rfl := List.map_eq_nil_iff.mp htokens
      exact ⟨reader, [], [], ⟨rfl, rfl⟩, rfl, rfl, rfl⟩
  | @cons base lead text junk rest nul starts texts htext hnul hrest ih =>
      cases hlegs with
      | @cons _ reading _ readings hleg hlegs =>
      obtain ⟨token, tokens, rfl, htoken, htokens⟩ := List.map_eq_cons_iff.mp htokens
      let covered : Span := byteRange scanned raw
        ⟨min (token.raw.start - start) scanned.length, min (token.raw.stop - start) scanned.length⟩
      obtain ⟨slot, hslot, hread⟩ :=
        hleg reader covered (pre ++ lead) (junk ++ rest ++ post) nul hreader hnul
      have hlength : (pre ++ (lead ++ slot ++ junk)).length =
          base + (lead ++ text ++ nul :: junk).length := by
        simp only [List.length_append, List.length_cons] at hslot ⊢
        omega
      obtain ⟨later, rest', legs, hlater, hrest', hreadings, hrun⟩ :=
        ih htokens hlegs { reader with legs := reader.legs + 1 } hreader _ hlength
      refine ⟨later, lead ++ slot ++ junk ++ rest',
        ⟨covered, reading.blocks, reading.endpoint⟩ :: legs, hlater, ?_, ?_, ?_⟩
      · simp only [List.length_append, List.length_cons] at hslot ⊢
        omega
      · rw [List.map_cons, hreadings]
        rfl
      · have hbuffer : pre ++ (lead ++ text ++ nul :: junk ++ rest) ++ post =
            (pre ++ lead) ++ text ++ nul :: (junk ++ rest ++ post) := by simp
        have hstart : token.start = (pre ++ lead).length := by
          rw [htoken, List.length_append, hbase]
        have hbuffer' : pre ++ lead ++ slot ++ (junk ++ rest ++ post) =
            pre ++ (lead ++ slot ++ junk) ++ rest ++ post := by simp
        rw [Reader.readLegs, hbuffer, hstart, hread]
        simp only [bind, Except.bind]
        rw [hbuffer', hrun]
        simp only [pure, Except.pure]
        rw [List.append_assoc pre _ rest']

/-- What a group's text is read as, wherever it stands. -/
def GroupReads (blockParse : BlockParse) (text : List Traced) (readings : List LegReading) : Prop :=
  ∀ (reader : Reader) (raw : Span) (pre post : List Traced) (nul : Traced),
    reader.blockParse = blockParse → nul.char = '\x00' →
    ∃ later body legs, reader.Counted later ∧ body.length = text.length + 1 ∧
      legs.map Leg.reading = readings ∧
      reader.group ⟨pre ++ text ++ nul :: post⟩ pre.length raw =
        .ok (later, ⟨pre ++ body ++ post⟩, legs)

theorem escapeBlockCommasFrom_length (scan : CommaScan) (index : Nat) (cells : List Traced) :
    (escapeBlockCommasFrom scan index cells).length = cells.length := by
  induction cells generalizing scan index with
  | nil => rfl
  | cons cell cells ih =>
      unfold escapeBlockCommasFrom
      rw [List.length_cons, ih, List.length_cons]

theorem cutting_comma : Cutting ',' := by
  constructor <;> decide

/-- A group is read as the legs its pieces behind the comma scan are read as. -/
theorem groupReads_of_pieces {blockParse : BlockParse} {s : List Traced} {ps : List (List Traced)}
    {readings : List LegReading} (hfree : NulFree s) (hscanned : NulFree (escapeBlockCommas s))
    (hhead : Headless (chars (escapeBlockCommas s)))
    (hpieces : Pieces ',' (some maxPeers) (escapeBlockCommas s) ps)
    (hlegs : List.Forall₂ (fun p (reading : LegReading) =>
      LegReads blockParse (cleanup p (some ',')) reading.blocks reading.endpoint) ps readings) :
    GroupReads blockParse s readings := by
  intro reader raw pre post nul hreader hnul
  obtain ⟨split, tokens, hinto⟩ :=
    separate_inPlace cutting_comma (by decide) hpieces hscanned hhead pre post hnul
  have hoverwrite : (CBuffer.mk (pre ++ s ++ nul :: post)).overwrite pre.length
      (escapeBlockCommas s) =
      ⟨pre ++ escapeBlockCommas s ++ nul :: post⟩ :=
    overwrite_append _ _ _ _ (escapeBlockCommasFrom_length _ 0 s)
  obtain ⟨later, body, legs, hlater, hbody, hreadings, hrun⟩ := readLegs_inPlace hinto.slots rfl
    (List.forall₂_map_left_iff.mpr hlegs) (escapeBlockCommas s) pre.length raw
    { reader with quoteSpansLegs := reader.quoteSpansLegs || false } hreader pre post rfl
  refine ⟨later, body, legs, ⟨hlater.1, by simpa using hlater.2⟩, ?_, hreadings, ?_⟩
  · rw [hbody, hinto.length]
    exact congrArg (· + 1) (escapeBlockCommasFrom_length _ 0 s)
  · rw [Reader.group, cStr_append hfree hnul, hoverwrite]
    simp only [cStr_append hscanned hnul, hinto.result_eq, Bool.false_eq_true, if_false]
    exact hrun

/-! ### Threads -/

theorem readGroups_inPlace {blockParse : BlockParse} {base : Nat} {body : List Traced}
    {starts : List Nat} {texts : List (List Traced)} (hslots : Slots base body starts texts)
    {tokens : List SplitToken} (htokens : tokens.map (·.start) = starts)
    {groups : List (List LegReading)} (hgroups : List.Forall₂ (GroupReads blockParse) texts groups)
    (head : HeadBlocks) (raw : Span) (k : Nat) (reader : Reader)
    (hreader : reader.blockParse = blockParse) (pre post : List Traced)
    (hbase : pre.length = base) :
    ∃ later legs, reader.Counted later ∧ legs.map (List.map Leg.reading) = groups ∧
      Reader.readGroups head raw k reader ⟨pre ++ body ++ post⟩ tokens = .ok (later, legs) := by
  induction hslots generalizing tokens groups pre reader k with
  | nil base =>
      cases hgroups
      obtain rfl := List.map_eq_nil_iff.mp htokens
      exact ⟨reader, [], ⟨rfl, rfl⟩, rfl, rfl⟩
  | @cons base lead text junk rest nul starts texts htext hnul hrest ih =>
      cases hgroups with
      | @cons _ readings _ groups hgroup hgroups =>
      obtain ⟨token, tokens, rfl, htoken, htokens⟩ := List.map_eq_cons_iff.mp htokens
      obtain ⟨middle, slot, legs, hmiddle, hslot, hreadings, hread⟩ :=
        hgroup reader (byteRange head.scanned raw (head.span k token.raw)) (pre ++ lead)
          (junk ++ rest ++ post) nul hreader hnul
      have hlength : (pre ++ (lead ++ slot ++ junk)).length =
          base + (lead ++ text ++ nul :: junk).length := by
        simp only [List.length_append, List.length_cons] at hslot ⊢
        omega
      obtain ⟨later, laterLegs, hlater, hlaterReadings, hrun⟩ :=
        ih htokens hgroups (k + 1) middle (hmiddle.1.trans hreader) _ hlength
      refine ⟨later, legs :: laterLegs,
        ⟨hlater.1.trans hmiddle.1, hlater.2.trans hmiddle.2⟩, ?_, ?_⟩
      · rw [List.map_cons, hreadings, hlaterReadings]
      · have hbuffer : pre ++ (lead ++ text ++ nul :: junk ++ rest) ++ post =
            (pre ++ lead) ++ text ++ nul :: (junk ++ rest ++ post) := by simp
        have hstart : token.start = (pre ++ lead).length := by
          rw [htoken, List.length_append, hbase]
        have hbuffer' : pre ++ lead ++ slot ++ (junk ++ rest ++ post) =
            pre ++ (lead ++ slot ++ junk) ++ rest ++ post := by simp
        rw [Reader.readGroups, hbuffer, hstart, hread]
        simp only [bind, Except.bind]
        rw [hbuffer', hrun]
        rfl

/-- What stands ahead of a thread's data: the blocks read there, and the data behind them. -/
def HeadReads (blockParse : BlockParse) (text : List Traced) (blocks : List Block)
    (data : List Traced) : Prop :=
  ∀ leg, ∃ head, headBlocks text [('<', '>'), ('{', '}')] leg blockParse = .ok head ∧
    head.blocks = blocks ∧ head.scanned.drop head.data = data

/-- A text that opens no block is data from its start. -/
theorem headReads_bare {blockParse : BlockParse} {text s : List Traced} {nul : Traced}
    (hnew : CBuffer.new text = ⟨s ++ [nul, nul]⟩) (hnul : nul.char = '\x00') (hfree : NulFree s)
    (hchars : (chars text).head? = (chars s).head?)
    (hhead : ∀ c ∈ (chars s).head?, c ≠ ' ' ∧ c ≠ '<' ∧ c ≠ '{') :
    HeadReads blockParse text [] s := by
  intro leg
  have hspaces : leadingSpaces (chars text) = 0 :=
    leadingSpaces_trimmed fun c hc => (hhead c (hchars ▸ hc)).1
  have hspaces' : leadingSpaces (chars s) = 0 := leadingSpaces_trimmed fun c hc => (hhead c hc).1
  have hcharAt : (CBuffer.mk (s ++ [nul, nul])).charAt 0 = (chars s).head?.getD '\x00' :=
    charAt_head (s := s) hnul [] [nul]
  have hstr : (CBuffer.mk (s ++ [nul, nul])).cStr 0 = s := cStr_start hfree hnul [nul]
  have habsent : (CBuffer.mk (s ++ [nul, nul])).charAt 0 ≠ '<' := by
    rw [hcharAt]
    exact head_ne (by decide) fun c hc => (hhead c hc).2.1
  have habsent' : (CBuffer.mk (s ++ [nul, nul])).charAt 0 ≠ '{' := by
    rw [hcharAt]
    exact head_ne (by decide) fun c hc => (hhead c hc).2.2
  refine ⟨⟨[], s ++ [nul, nul], 0, 0, s.length⟩, ?_, rfl, by simp [HeadBlocks.scanned]⟩
  rw [headBlocks, hnew, hspaces]
  simp only [List.foldlM_cons, List.foldlM_nil, bind, Except.bind, pure, Except.pure,
    blocksOf_absent habsent, blocksOf_absent habsent', List.append_nil, hstr,
    hspaces', Nat.zero_add, if_true]

/-- A text that opens with one block, in the buffer its parse rewrites. -/
structure OpensBlock (blockParse : BlockParse) (opener closer : Char) (text : List Traced)
    (cell close nul : Traced) (data rest : List Traced) (pairs : List Pair) : Prop where
  new : CBuffer.new text = ⟨(cell :: (data ++ close :: rest)) ++ [nul, nul]⟩
  ahead : ∀ c ∈ (chars text).head?, c ≠ ' '
  opened : cell.char = opener
  closed : close.char = closer
  terminated : nul.char = '\x00'
  free : NulFree (cell :: (data ++ close :: rest))
  balanced : Balanced opener closer (chars data)
  ascii : (blockSeparator ',' (chars data)).toNat < 128
  behind : ∀ c ∈ (chars rest).head?, c ≠ ' ' ∧ c ≠ '<' ∧ c ≠ '{'
  reads : DataReads blockParse ',' data pairs

/-- The blocks of one kind where a text opens with one. -/
theorem OpensBlock.blocks {blockParse : BlockParse} {opener closer : Char} {text : List Traced}
    {cell close nul : Traced} {data rest : List Traced} {pairs : List Pair}
    (hkind : (opener, closer) = ('<', '>') ∨ (opener, closer) = ('{', '}'))
    (h : OpensBlock blockParse opener closer text cell close nul data rest pairs) :
    ∃ body, body.length = data.length + 2 ∧ ∀ leg,
      blocksOf opener closer ',' leg blockParse (fun buffer _ => buffer)
        ((cell :: (data ++ close :: rest)) ++ [nul, nul]).length
        ⟨(cell :: (data ++ close :: rest)) ++ [nul, nul]⟩ 0 =
          .ok (⟨body ++ rest ++ [nul, nul]⟩,
            [⟨opener, blockSeparator ',' (chars data), pairs, false⟩], data.length + 2) := by
  have hopener : opener ≠ closer ∧ opener ≠ ' ' ∧ opener ≠ '\x00' ∧
      (opener = '<' ∨ opener = '{') := by
    rcases hkind with hkind | hkind <;> obtain ⟨rfl, rfl⟩ := Prod.mk.inj hkind <;> decide
  have hrest : ∀ c ∈ (chars rest).head?, c ≠ ' ' ∧ c ≠ opener := by
    intro c hc
    obtain ⟨hspace, hangle, hbrace⟩ := h.behind c hc
    rcases hopener.2.2.2 with rfl | rfl
    · exact ⟨hspace, hangle⟩
    · exact ⟨hspace, hbrace⟩
  obtain ⟨body, hbody, hparse⟩ := parseBlock_inPlace hopener.1 hopener.2.1 h.opened h.closed
    h.terminated h.free h.balanced h.ascii hrest h.reads [] [nul]
  rw [List.nil_append, List.length_nil, Nat.zero_add, List.nil_append] at hparse
  have hopen : (CBuffer.mk ((cell :: (data ++ close :: rest)) ++ [nul, nul])).charAt 0 =
      opener := h.opened
  refine ⟨body, hbody, fun leg => blocksOf_one hopen hparse ?_ (by simp)⟩
  have hnext : (CBuffer.mk (body ++ rest ++ [nul, nul])).charAt (data.length + 2) =
      (chars rest).head?.getD '\x00' := by
    rw [← hbody]
    exact charAt_head h.terminated body [nul]
  rw [hnext]
  exact head_ne hopener.2.2.1 fun c hc => (hrest c hc).2

/-- What the parse of a block leaves behind it. -/
theorem OpensBlock.behind_body {blockParse : BlockParse} {opener closer : Char}
    {text : List Traced} {cell close nul : Traced} {data rest : List Traced} {pairs : List Pair}
    (h : OpensBlock blockParse opener closer text cell close nul data rest pairs)
    {body : List Traced} (hbody : body.length = data.length + 2) :
    (CBuffer.mk (body ++ rest ++ [nul, nul])).cStr (data.length + 2) = rest ∧
      ((body ++ rest ++ [nul, nul]).take (data.length + 2 + rest.length)).drop (data.length + 2) =
        rest ∧ leadingSpaces (chars rest) = 0 := by
  have hrestFree : NulFree rest := fun c hc => h.free c (by simp [hc])
  refine ⟨?_, ?_, leadingSpaces_trimmed fun c hc => (h.behind c hc).1⟩
  · rw [← hbody]
    exact cStr_append hrestFree h.terminated
  · rw [← hbody, ← List.length_append, List.take_left, List.drop_left]

/-- One block ahead of a thread's data. -/
theorem headReads_block {blockParse : BlockParse} {text : List Traced} {opener closer : Char}
    (hkind : (opener, closer) = ('<', '>') ∨ (opener, closer) = ('{', '}'))
    {cell close nul : Traced} {data rest : List Traced} {pairs : List Pair}
    (h : OpensBlock blockParse opener closer text cell close nul data rest pairs) :
    HeadReads blockParse text [⟨opener, blockSeparator ',' (chars data), pairs, false⟩] rest := by
  intro leg
  obtain ⟨body, hbody, hblocks⟩ := h.blocks hkind
  obtain ⟨hstr, hscanned, hspaces⟩ := h.behind_body hbody
  have hone := hblocks leg
  have hspace : leadingSpaces (chars text) = 0 := leadingSpaces_trimmed h.ahead
  have hopen : (CBuffer.mk ((cell :: (data ++ close :: rest)) ++ [nul, nul])).charAt 0 =
      opener := h.opened
  have hbrace : (CBuffer.mk (body ++ rest ++ [nul, nul])).charAt (data.length + 2) ≠ '{' := by
    rw [← hbody, charAt_head h.terminated body [nul]]
    exact head_ne (by decide) fun c hc => (h.behind c hc).2.2
  refine ⟨⟨[⟨opener, blockSeparator ',' (chars data), pairs, false⟩], body ++ rest ++ [nul, nul],
    data.length + 2, data.length + 2, data.length + 2 + rest.length⟩, ?_, rfl, hscanned⟩
  rw [headBlocks, h.new, hspace]
  rcases hkind with hkind | hkind <;> obtain ⟨rfl, rfl⟩ := Prod.mk.inj hkind
  · simp only [List.foldlM_cons, List.foldlM_nil, bind, Except.bind, pure, Except.pure,
      hone, blocksOf_absent hbrace, List.append_nil, List.nil_append, hstr, hspaces, Nat.add_zero]
    rfl
  · have habsent : (CBuffer.mk ((cell :: (data ++ close :: rest)) ++ [nul, nul])).charAt
        0 ≠ '<' := by
      rw [hopen]
      decide
    simp only [List.foldlM_cons, List.foldlM_nil, bind, Except.bind, pure, Except.pure,
      blocksOf_absent habsent, hone, List.append_nil, List.nil_append, hstr, hspaces, Nat.add_zero]
    rfl

theorem cutting_pipe : Cutting '|' := by
  constructor <;> decide

/-- **What a thread is read as: the block ahead, and its groups' pieces.** -/
theorem thread_reads {blockParse : BlockParse} {text data : List Traced} {blocks : List Block}
    {ps : List (List Traced)} {groups : List (List LegReading)} {lo : Nat}
    (hhead : HeadReads blockParse text blocks data) (hspelled : Spelled 0 lo data)
    (hfree : NulFree data) (hheadless : Headless (chars data)) (hne : data ≠ [])
    (hpieces : Pieces '|' (some maxPeers) data ps)
    (hgroups : List.Forall₂ (fun p readings =>
      GroupReads blockParse (cleanup p (some '|')) readings)
      ps groups) (reader : Reader) (hreader : reader.blockParse = blockParse) (raw : Span) :
    ∃ later legs nested, reader.Counted later ∧ legs.map (List.map Leg.reading) = groups ∧
      reader.thread text raw = .ok (later, ⟨raw, blocks, legs, nested⟩) := by
  obtain ⟨head, hheadBlocks, hblocks, hscanned⟩ := hhead reader.legs
  obtain ⟨nul, hnul, hnew⟩ := CBuffer.new_spelled hspelled
  obtain ⟨split, tokens, hinto⟩ :=
    separate_inPlace cutting_pipe (by decide) hpieces hfree hheadless [] [nul] hnul
  obtain ⟨later, legs, hlater, hreadings, hrun⟩ := readGroups_inPlace hinto.slots rfl
    (List.forall₂_map_left_iff.mpr hgroups) head raw 0
    { reader with quoteSpansLegs := reader.quoteSpansLegs || false } hreader [] [nul] rfl
  refine ⟨later, legs, optsIntoNestedVars text, ⟨hlater.1, by simpa using hlater.2⟩, hreadings, ?_⟩
  have hresult := hinto.result_eq
  rw [List.nil_append, List.length_nil] at hresult
  rw [Reader.thread, hreader, hheadBlocks]
  simp only [bind, Except.bind, hscanned, if_neg hne, hnew, hresult, Bool.false_eq_true, if_false,
    hrun, pure, Except.pure, hblocks]

end SwitchPasses
end EslTokio
