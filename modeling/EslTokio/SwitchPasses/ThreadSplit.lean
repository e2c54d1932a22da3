import EslTokio.Library.Results
import EslTokio.SwitchPasses.SeparatedText

/-!
# Threads

A dial string that holds the delimiter of threads anywhere, quotes and brackets or not, is split at
it. Only an enterprise block is taken off first, so that a delimiter inside one splits nothing.

* `CarriesLeg`, `Dials` — a list of one thread, one group and one leg, and what it gives its
  channel.
* **`dialList_enterprise`** — a delimiter inside an enterprise block is read as part of it.
* `dialList_empty` — a block with nothing behind it is refused.
-/

namespace EslTokio
namespace SwitchPasses

open Library

variable {blockParse : BlockParse}

/-! ### The split -/

/-- A text that holds the delimiter is split at its first occurrence. -/
theorem separateStringString_first {text delim : Text} {found limit : Nat}
    (h : find text delim = some found) (hlimit : 2 ≤ limit) :
    ∃ later, separateStringString text delim limit = ⟨0, found⟩ :: later := by
  obtain ⟨fuel, rfl⟩ := Nat.exists_eq_add_of_le hlimit
  have hfuel : 2 + fuel - 1 = fuel + 1 := by omega
  rw [separateStringString, hfuel]
  unfold separateStringFrom
  simp only [h, Nat.zero_add]
  exact ⟨_, rfl⟩

/-- A text without the delimiter is one span. -/
theorem separateStringString_whole {text delim : Text} (h : ¬ delim <:+: text) (limit : Nat) :
    separateStringString text delim limit = [⟨0, text.length⟩] := by
  have hnone : find text delim = none := by
    rw [find, ← Option.not_isSome_iff_eq_none, Search.isSome_find_iff]
    exact h
  rw [separateStringString]
  cases limit - 1 with
  | zero => rw [separateStringFrom, Nat.zero_add]
  | succ fuel =>
      unfold separateStringFrom
      rw [hnone, Nat.zero_add]

/-! ### Chars and bytes -/

theorem infix_spell {needle x : Text} (hneedle : spell needle = needle) (h : needle <:+: x) :
    needle <:+: spell x := by
  obtain ⟨before, after, rfl⟩ := h
  rw [spell_append, spell_append, hneedle]
  exact ⟨_, _, rfl⟩

theorem prefix_of_spell {needle x : Text} (hascii : ∀ c ∈ needle, c.toNat < 128)
    (h : needle <+: spell x) : needle <+: x := by
  induction needle generalizing x with
  | nil => exact List.nil_prefix
  | cons c needle ih =>
      obtain ⟨hc, hneedle⟩ := List.forall_mem_cons.mp hascii
      cases x with
      | nil => exact absurd (List.prefix_nil.mp h) (List.cons_ne_nil _ _)
      | cons d x =>
          rw [spell_cons] at h
          obtain ⟨rfl, hnext⟩ := List.cons_prefix_cons.mp h
          rw [utf8Size_ascii hc] at hnext
          exact List.cons_prefix_cons.mpr ⟨rfl, ih hneedle hnext⟩

theorem infix_of_spell {needle x : Text} (hne : needle ≠ []) (hascii : ∀ c ∈ needle, c.toNat < 128)
    (h : needle <:+: spell x) : needle <:+: x := by
  induction x with
  | nil => exact absurd (List.infix_nil.mp h) hne
  | cons c x ih =>
      rw [spell_cons, List.infix_cons_iff] at h
      rcases h with hprefix | hlater
      · have hwhole : needle <+: spell (c :: x) := hprefix
        exact (prefix_of_spell hascii hwhole).isInfix
      · refine List.infix_cons (ih (Search.infix_of_append_notMem hne (fun d hd hmem => ?_) hlater))
        obtain rfl := List.eq_of_mem_replicate hd
        exact absurd (hascii _ hmem) (by decide)

theorem ascii_enterpriseDelim : ∀ c ∈ enterpriseDelim, c.toNat < 128 := by decide

/-! ### What is dialled -/

/-- A list of one thread, one group and one leg, with these blocks from the outermost in. -/
structure CarriesLeg (reading : Except PipelineError DialList) (blocks : List Block)
    (endpoint : Text) : Prop where
  single : ∃ list thread leg, reading = .ok list ∧ list.threads = [thread] ∧
    thread.groups = [[leg]] ∧ list.blocks ++ thread.blocks ++ leg.blocks = blocks ∧
      leg.endpoint = endpoint

/-- What is dialled of a list of one thread, one group and one leg: the pairs its blocks install, in
order, and its endpoint. -/
structure Dials (reading : Except PipelineError DialList) (pairs : List (Text × Text))
    (endpoint : Text) : Prop where
  single : ∃ list thread leg, reading = .ok list ∧ list.threads = [thread] ∧
    thread.groups = [[leg]] ∧ install (list.blocks ++ thread.blocks ++ leg.blocks) = pairs ∧
      leg.endpoint = endpoint

theorem ReadsLeg.carries {reading : Except PipelineError DialList} {blocks : List Block}
    {endpoint : Text} (h : ReadsLeg reading blocks endpoint) :
    CarriesLeg reading blocks endpoint := by
  obtain ⟨list, thread, hread, hblocks, hthreads, hsingle⟩ := h.list
  obtain ⟨leg, hgroups, rfl, hendpoint⟩ := hsingle.leg
  exact ⟨list, thread, leg, hread, hthreads, hgroups, by rw [hblocks, List.nil_append], hendpoint⟩

theorem CarriesLeg.dials {reading : Except PipelineError DialList} {blocks : List Block}
    {endpoint : Text} (h : CarriesLeg reading blocks endpoint) :
    Dials reading (install blocks) endpoint := by
  obtain ⟨list, thread, leg, hread, hthreads, hgroups, rfl, hendpoint⟩ := h.single
  exact ⟨list, thread, leg, hread, hthreads, hgroups, rfl, hendpoint⟩

/-! ### An enterprise block -/

variable {scope : VariablesType} {pairs : List (Text × Text)} {separator : Option Char}
  {endpoint : Text}

/-- What is read of an enterprise block alone. -/
theorem OpensBlock.headBlocks_enterprise {text : List Traced} {cell close nul : Traced}
    {data rest : List Traced} {read : List Pair}
    (h : OpensBlock blockParse '<' '>' text cell close nul data rest read) (leg : Nat) :
    ∃ head, headBlocks text [('<', '>')] leg blockParse = .ok head ∧
      head.blocks = [⟨'<', blockSeparator ',' (chars data), read, false⟩] ∧
      head.scanned.drop head.data = rest ∧ head.stop = head.data := by
  obtain ⟨body, hbody, hblocks⟩ := h.blocks (.inl rfl)
  obtain ⟨hstr, hscanned, hspaces⟩ := h.behind_body hbody
  have hspace : leadingSpaces (chars text) = 0 := leadingSpaces_trimmed h.ahead
  refine ⟨⟨[⟨'<', blockSeparator ',' (chars data), read, false⟩], body ++ rest ++ [nul, nul],
    data.length + 2, data.length + 2, data.length + 2 + rest.length⟩, ?_, rfl, hscanned, rfl⟩
  rw [headBlocks, h.new, hspace]
  simp only [List.foldlM_cons, List.foldlM_nil, bind, Except.bind, pure, Except.pure, hblocks leg,
    List.nil_append, hstr, hspaces, Nat.add_zero]
  rfl

/-- **A delimiter of threads inside an enterprise block splits nothing**: the block is taken off
ahead of the split, and the endpoint behind it is one thread. -/
theorem dialList_enterprise (h : Fills .enterprise pairs)
    (hsep : Chosen .enterprise separator pairs) (hp : Dialled endpoint) {cells : List Traced}
    (hordered : Ordered 0 cells) {wraps : Bool}
    (hchars : chars cells = '<' :: (blockText .enterprise separator wraps 2 pairs ++
      '>' :: fieldText wraps 2 (EscapedField.endpoint.atoms endpoint)))
    (hthreads : enterpriseDelim <:+: blockText .enterprise separator wraps 2 pairs)
    (raw : Span) (carried : Bool) :
    CarriesLeg (dialList cells raw carried blockParse)
      [separatedBlock .enterprise separator (kept (separator.getD ',') pairs)] endpoint := by
  obtain ⟨cell, close, nul, data, rest, lo, hopens, hseparator, hspelled, hrest⟩ :=
    opensBlock_blockText blockParse h (by decide) hsep hp.toTrailing hordered hchars
  obtain ⟨head, hhead, hblocks, hscanned, hstop⟩ := hopens.headBlocks_enterprise 0
  have hfind : (find (chars cells) enterpriseDelim).isSome = true := by
    refine Search.isSome_find_iff.mpr ?_
    rw [hchars]
    exact List.infix_cons (hthreads.trans (List.prefix_append _ _).isInfix)
  have hspell : spell (fieldText wraps 2 (EscapedField.endpoint.atoms endpoint)) = chars rest := by
    rw [hrest, EscapedField.spell_field hp.free]
  have hwhole : ¬ enterpriseDelim <:+: chars rest := by
    intro hwithin
    rw [← hspell] at hwithin
    exact EscapedField.threads_fieldText hp.free hp.threads wraps 2
      (infix_of_spell (by decide) ascii_enterpriseDelim hwithin)
  have hbare : HeadReads blockParse rest [] rest := by
    obtain ⟨nul, hnul, hnew⟩ := CBuffer.new_spelled hspelled
    have hfree : NulFree rest := by
      rw [nulFree_iff, ← hspell]
      exact nul_notMem_spell (nulFree_fieldText hp.free wraps 2)
    exact headReads_bare hnew hnul hfree rfl hopens.behind
  have hspan : (head.scanned.take (head.span 0 ⟨0, (chars rest).length⟩).stop).drop
      (head.span 0 ⟨0, (chars rest).length⟩).start = rest := by
    have hlength : head.scanned.length ≤ rest.length + head.data := by
      rw [← hscanned, List.length_drop]
      omega
    rw [HeadBlocks.span, if_pos ⟨rfl, rfl⟩, hstop, length_chars, List.take_of_length_le hlength,
      hscanned]
  let covered : Span := byteRange head.scanned raw (head.span 0 ⟨0, (chars rest).length⟩)
  obtain ⟨later, thread, hthread, hsingle⟩ :=
    thread_endpoint hp hbare hspelled hrest ⟨blockParse, 0, false⟩ rfl covered
  obtain ⟨leg, hgroups, hnone, hendpoint⟩ := hsingle.leg
  let inherited := enterpriseNests head.blocks
  refine ⟨⟨head.blocks, [{ thread with nestedVars := thread.nestedVars || inherited }],
    later.quoteSpansLegs, carried⟩, _, leg, ?_, rfl, hgroups, ?_, hendpoint⟩
  · rw [dialList, if_pos hfind, hhead]
    simp only [bind, Except.bind, hscanned, separateStringString_whole hwhole, Reader.readThreads,
      hspan]
    rw [show Reader.thread ⟨blockParse, 0, false⟩ rest
      (byteRange head.scanned raw (head.span 0 ⟨0, (chars rest).length⟩)) = _ from hthread]
    rfl
  · show head.blocks ++ thread.blocks ++ leg.blocks = _
    rw [List.append_assoc, hnone, List.append_nil, hblocks, hseparator]
    rfl

/-! ### Nothing behind a block -/

theorem thread_empty {reader : Reader} {text : List Traced} {blocks : List Block}
    (hhead : HeadReads reader.blockParse text blocks []) (raw : Span) :
    reader.thread text raw = .error .empty := by
  obtain ⟨head, hhead, -, hdata⟩ := hhead reader.legs
  rw [Reader.thread, hhead]
  simp only [bind, Except.bind, hdata, if_true]

/-- A `<>` or `{}` block with nothing behind it is refused. -/
theorem dialList_empty (h : Fills scope pairs) (hscope : scope ≠ .channel)
    (hsep : Chosen scope separator pairs) {cells : List Traced} (hordered : Ordered 0 cells)
    {wraps : Bool}
    (hchars : chars cells =
      scope.delimiters.1 :: (blockText scope separator wraps 2 pairs ++ [scope.delimiters.2]))
    (hthreads : enterpriseDelim <:+: blockText scope separator wraps 2 pairs →
      scope = .enterprise) (raw : Span) (carried : Bool) :
    dialList cells raw carried blockParse = .error .empty := by
  have hnone : Trailing [] := ⟨List.not_mem_nil, (fun c hc => by cases hc), rfl⟩
  have hfield : fieldText wraps 2 (EscapedField.endpoint.atoms []) = [] := by cases wraps <;> rfl
  have hbytes : fieldText wraps 2 (atomBytes (EscapedField.endpoint.atoms [])) = [] := by
    cases wraps <;> rfl
  rw [← hfield] at hchars
  by_cases hwithin : enterpriseDelim <:+: blockText scope separator wraps 2 pairs
  · obtain rfl := hthreads hwithin
    obtain ⟨cell, close, nul, data, rest, lo, hopens, -, -, hrest⟩ :=
      opensBlock_blockText blockParse h (by decide) hsep hnone hordered hchars
    obtain ⟨head, hhead, -, hscanned, hstop⟩ := hopens.headBlocks_enterprise 0
    obtain rfl : rest = [] := List.map_eq_nil_iff.mp (hrest.trans hbytes)
    have hfind : (find (chars cells) enterpriseDelim).isSome = true := by
      refine Search.isSome_find_iff.mpr ?_
      rw [hchars]
      exact List.infix_cons (hwithin.trans (List.prefix_append _ _).isInfix)
    have hbare : HeadReads blockParse [] [] [] := fun leg => ⟨⟨[], _, 0, 0, 0⟩, rfl, rfl, rfl⟩
    have hspan : (head.scanned.take (head.span 0 ⟨0, 0⟩).stop).drop (head.span 0 ⟨0, 0⟩).start =
        [] := by
      rw [HeadBlocks.span, if_pos ⟨rfl, rfl⟩, hstop, Nat.zero_add]
      exact List.drop_eq_nil_of_le (List.length_take_le _ _)
    rw [dialList, if_pos hfind, hhead]
    simp only [bind, Except.bind]
    rw [hscanned, separateStringString_whole (by decide), Reader.readThreads]
    simp only [bind, Except.bind]
    rw [show (chars ([] : List Traced)).length = 0 from rfl, hspan]
    rw [thread_empty hbare]
  · obtain ⟨rest, lo, hhead, -, hrest⟩ :=
      headReads_blockText blockParse h hscope hsep hnone hordered hchars
    obtain rfl : rest = [] := List.map_eq_nil_iff.mp (hrest.trans hbytes)
    have hfind : (find (chars cells) enterpriseDelim).isSome ≠ true := by
      rw [hchars]
      exact Search.isSome_find_iff.not.mpr (threads_block hwithin hnone scope wraps 2)
    rw [dialList, if_neg hfind, thread_empty hhead]
    rfl
end SwitchPasses
end EslTokio
