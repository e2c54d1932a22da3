import EslTokio.DialString.Variables
import EslTokio.SwitchPasses.BlankPass
import EslTokio.SwitchPasses.Carrier
import EslTokio.SwitchPasses.SlotLine

/-!
# The pass ahead of a dial string

Whatever carries a dial string, one pass reads it first: the argument split on blanks or on a
separator, dialplan expansion, or none where the argument is cut already. Here that pass leaves a
text whose chars are known, both where the switch reads the dial string and where a parse does.

* `soleArgument_joint`, `soleArgument_trailing`, `soleArgument_two` — the argument split leaves one
  token of a text it does not cut, a delimiter behind it or not, and refuses more.
* `CutsTo`, `Arrives` — what the pass of a target leaves of a text.
* `arrives_split`, `arrives_consumed`, `arrives_dialplan` — for every target.
-/

namespace EslTokio

open Library SwitchPasses

/-- The argument split of a text that it cuts one token off. -/
theorem soleArgument_cut {delim : Char} (hascii : delim.toNat < 128) (hnul : delim ≠ '\x00')
    {text x : Text} (hfree : '\x00' ∉ text) (hhead : delim = ' ' → Headless text) {span : Span}
    (hcut : (pureCut text delim none).spans = [span])
    (hopen : delim = ' ' → (pureCut text delim none).openQuote = false)
    (hheld : delim ≠ ' ' → (pureCut text delim none).heldDelimiter = false)
    (hslice : sliceText text span = x) (htrimmed : Trimmed x) :
    ∃ token, soleArgument (trace text) delim = .ok (some token) ∧ Ordered 0 token.text ∧
      chars token.text = written (cleanupDelim delim) false x := by
  have hchars : chars (trace text) = text := chars_traceFrom 0 text
  have hordered : Ordered 0 (trace text) := ordered_traceFrom 0 text
  have hfree' : NulFree (trace text) := by
    rwa [nulFree_iff, hchars]
  have hseparated : (if delim = ' ' then separate (trace text) ' ' none
      else separateOn (trace text) delim none) =
      separateOn (trace text) delim none := by
    split_ifs with hspace
    · subst hspace
      exact separate_eq_separateOn hordered hfree' (by rw [hchars]; exact hhead rfl) ' ' none
    · rfl
  have hpure := separateOn_pure hordered hfree' hascii hnul (by simp : (none : Option Nat) ≠ some 0)
  rw [hchars, hcut, List.map_singleton] at hpure
  have hraw : chars (slice (trace text) span) = x := by rw [chars_slice, hchars, hslice]
  have hcleaned : chars (cleanup (slice (trace text) span) (cleanupDelim delim)) =
      written (cleanupDelim delim) false x := by
    rw [chars_cleanup _ (by rwa [hraw]), hraw]
  refine ⟨⟨span, cleanup (slice (trace text) span) (cleanupDelim delim)⟩, ?_,
    (hordered.slice span).cleanup (cleanupDelim delim), hcleaned⟩
  rw [soleArgument, hseparated, hpure]
  by_cases hspace : delim = ' '
  · subst hspace
    simp [hopen rfl]
  · simp [hspace, hheld hspace]

/-- **The argument split leaves one token of a text it does not cut.** -/
theorem soleArgument_joint {delim : Char} (hdelim : delim = ' ' ∨ Cutting delim)
    (hascii : delim.toNat < 128)
    {x : Text} (hx : Joint delim x) (hhead : delim = ' ' → Headless x) :
    ∃ token, soleArgument (trace x) delim = .ok (some token) ∧ Ordered 0 token.text ∧
      chars token.text = written (cleanupDelim delim) false x := by
  have hnul : delim ≠ '\x00' := by
    rcases hdelim with rfl | hdelim
    · decide
    · exact hdelim.ne_nul
  have hall : ∀ y ∈ [x], Joint delim y := by simpa using hx
  have hallows : Allows none [x].length := fun _ h => by cases h
  obtain ⟨hopen, hspans⟩ := pureCut_joined hdelim (List.cons_ne_nil x []) hall hallows
  rw [List.intercalate_singleton] at hopen hspans
  obtain ⟨span, hcut, hslice⟩ := List.map_eq_singleton_iff.mp hspans
  have hheld : delim ≠ ' ' → (pureCut x delim none).heldDelimiter = false := by
    intro hspace
    obtain ⟨spans, hscan, -⟩ :=
      charDelim_joined (hdelim.resolve_left hspace) (List.cons_ne_nil x []) hall hallows []
    rw [List.intercalate_singleton, List.length_nil] at hscan
    rw [pureCut, if_neg hspace, charDelim, hscan]
  exact soleArgument_cut hascii hnul hx.free hhead hcut (fun _ => hopen) hheld hslice hx.trimmed

/-- A delimiter behind the last token leaves it the only one. -/
theorem soleArgument_trailing {delim : Char} (hdelim : Cutting delim) (hascii : delim.toNat < 128)
    {x : Text} (hx : Joint delim x) :
    ∃ token, soleArgument (trace (x ++ [delim])) delim = .ok (some token) ∧ Ordered 0 token.text ∧
      chars token.text = written (cleanupDelim delim) false x := by
  have hcut : pureCut (x ++ [delim]) delim none = ⟨[⟨0, x.length⟩], false, false⟩ := by
    rw [pureCut, if_neg hdelim.ne_space, charDelim, charDelimFrom_slot hdelim (.inr hx),
      Nat.zero_add]
    rfl
  have hfree : '\x00' ∉ x ++ [delim] := by
    rw [List.mem_append, List.mem_singleton, not_or]
    exact ⟨hx.free, hdelim.ne_nul.symm⟩
  have hslice : sliceText (x ++ [delim]) ⟨0, x.length⟩ = x := sliceText_append [] x [delim]
  exact soleArgument_cut hascii hdelim.ne_nul hfree (fun h => absurd h hdelim.ne_space)
    (by rw [hcut]) (fun _ => by rw [hcut]) (fun _ => by rw [hcut]) hslice hx.trimmed

/-- Anything behind that is another token. -/
theorem soleArgument_two {delim : Char} (hdelim : Cutting delim) (hascii : delim.toNat < 128)
    {x rest : Text} (hx : Joint delim x) (hne : rest ≠ []) (hfree : '\x00' ∉ rest) :
    soleArgument (trace (x ++ delim :: rest)) delim = .error .cut := by
  have hchars : chars (trace (x ++ delim :: rest)) = x ++ delim :: rest := chars_traceFrom 0 _
  have hwhole : NulFree (trace (x ++ delim :: rest)) := by
    rw [nulFree_iff, hchars, List.mem_append, List.mem_cons, not_or, not_or]
    exact ⟨hx.free, hdelim.ne_nul.symm, hfree⟩
  have hordered : Ordered 0 (trace (x ++ delim :: rest)) := ordered_traceFrom 0 _
  have hpure := separateOn_pure hordered hwhole hascii hdelim.ne_nul
    (by simp : (none : Option Nat) ≠ some 0)
  obtain ⟨c, rest, rfl⟩ := List.exists_cons_of_ne_nil hne
  have hc : c ≠ '\x00' := fun h => hfree (h ▸ List.mem_cons_self)
  have hlater :
      (charDelimFrom delim none (0 + x.length + 1) none false (c :: rest)).spans ≠ [] := by
    rw [charDelimFrom_begin hc delim rfl]
    intro hnil
    have htiles := charDelimFrom_tiles hdelim.ne_space (c :: rest) hfree (0 + x.length + 1) [] false
    rw [List.length_nil, Nat.add_zero, hnil] at htiles
    cases htiles.eq_nil
  obtain ⟨span, spans, hspans⟩ := List.exists_cons_of_ne_nil hlater
  have hcut : (pureCut (x ++ delim :: c :: rest) delim none).spans =
      ⟨0, 0 + x.length⟩ :: span :: spans := by
    rw [pureCut, if_neg hdelim.ne_space, charDelim, charDelimFrom_slot hdelim (.inr hx)]
    exact congrArg (_ :: ·) hspans
  have hmany : 1 < (separateOn (trace (x ++ delim :: c :: rest)) delim none).tokens.length := by
    rw [hpure, hchars, hcut]
    simp
  rw [soleArgument]
  simp only [if_neg hdelim.ne_space]
  rw [if_pos (.inr hmany)]

/-- What a parse cuts off a text, and the target it reads that for: `inner`, but where the dialplan
is still to expand the text. -/
structure CutsTo (target : DialStringTarget) (text inner argument : Text)
    (later : DialStringTarget) : Prop where
  cut : target.readArgument text = .ok (argument, later)
  carrier : later.carrier = target.carrier
  blockParse : later.blockParse = target.blockParse
  left : later.argument = .consumed ∧ argument = inner ∨
    target.carrier = .dialplan ∧ later = target ∧ argument = text

/-- What the pass ahead of a dial string leaves of a text: `inner`, both where the switch reads it
and where a parse cuts the argument first. -/
structure Arrives (target : DialStringTarget) (text inner : Text) : Prop where
  read : ∃ cells raw carried, Ordered 0 cells ∧ chars cells = inner ∧
    read text target = dialList cells raw carried target.blockParse
  parsed : ∃ argument later, CutsTo target text inner argument later

theorem read_consumed {target : DialStringTarget} (hargument : target.argument = .consumed)
    (text : Text) :
    ∃ raw, SwitchPasses.read text target = dialList (trace text) raw false target.blockParse := by
  have hcarrier := target.valid.2 hargument
  obtain ⟨carrier, blockParse, argument, valid⟩ := target
  obtain rfl : argument = .consumed := hargument
  obtain rfl : carrier = .eslApi := hcarrier
  exact ⟨_, rfl⟩

/-- An argument that is cut already is read as it is. -/
theorem arrives_consumed {target : DialStringTarget} (hargument : target.argument = .consumed)
    (text : Text) :
    Arrives target text text := by
  obtain ⟨raw, hread⟩ := read_consumed hargument text
  have hcells : Ordered 0 (trace text) ∧ chars (trace text) = text :=
    ⟨ordered_traceFrom 0 text, chars_traceFrom 0 text⟩
  have hcut : target.readArgument text = .ok (text, target) := by
    have hcarrier := target.valid.2 hargument
    obtain ⟨carrier, blockParse, argument, valid⟩ := target
    obtain rfl : argument = .consumed := hargument
    obtain rfl : carrier = .eslApi := hcarrier
    rfl
  exact ⟨⟨_, raw, false, hcells.1, hcells.2, hread⟩, text, target, hcut, rfl, rfl,
    .inl ⟨hargument, rfl⟩⟩

/-- The argument a parse cuts off is read as the text that arrives. -/
theorem Arrives.read_argument {target later : DialStringTarget} {text inner argument : Text}
    (h : Arrives target text inner) (hcuts : CutsTo target text inner argument later) :
    ∃ cells raw carried, Ordered 0 cells ∧ chars cells = inner ∧
      SwitchPasses.read argument later = dialList cells raw carried target.blockParse := by
  rcases hcuts.left with ⟨hargument, rfl⟩ | ⟨-, rfl, rfl⟩
  · obtain ⟨raw, hread⟩ := read_consumed hargument argument
    exact ⟨trace argument, raw, false, ordered_traceFrom 0 argument, chars_traceFrom 0 argument,
      hread.trans (by rw [hcuts.blockParse])⟩
  · exact h.read

theorem inner_eslApi {target : DialStringTarget} (hcarrier : target.carrier = .eslApi) :
    target.inner.argument = .consumed ∧ target.inner.carrier = .eslApi ∧
      target.inner.blockParse = target.blockParse := by
  obtain ⟨carrier, blockParse, argument, valid⟩ := target
  obtain rfl : carrier = .eslApi := hcarrier
  exact ⟨rfl, rfl, rfl⟩

/-- An argument the API's split leaves one token of. -/
theorem arrives_split {target : DialStringTarget} (hcarrier : target.carrier = .eslApi)
    {delim : Char} (hsplit : target.splitDelimiter = some delim) {text inner : Text}
    (hsole : ∃ token, soleArgument (trace text) delim = .ok (some token) ∧ Ordered 0 token.text ∧
      chars token.text = inner) :
    Arrives target text inner := by
  obtain ⟨token, hsole, hordered, hinner⟩ := hsole
  have hcut : target.splitArgument (trace text) = some (.ok (some token)) := by
    rw [DialStringTarget.splitArgument, hsplit, Option.map_some, hsole]
  obtain ⟨hargument, hcarrier', hblockParse⟩ := inner_eslApi hcarrier
  have huntrace : untrace token.text = inner := by
    rw [untrace_whole hordered.whole, hinner]
  constructor
  · refine ⟨token.text, byteRange (trace text) (extent (trace text)) token.raw, false, hordered,
      hinner, ?_⟩
    rw [SwitchPasses.read, hcarrier]
    simp only [apiArgument, hcut]
    rfl
  · refine ⟨inner, target.inner, ?_, hcarrier'.trans hcarrier.symm, hblockParse,
      .inl ⟨hargument, rfl⟩⟩
    rw [DialStringTarget.readArgument, hcut]
    simp only [Option.elim_some, huntrace]

/-- One it cuts is read no further. -/
theorem read_cut {target : DialStringTarget} (hcarrier : target.carrier = .eslApi)
    {delim : Char} (hsplit : target.splitDelimiter = some delim) {text : Text}
    (hcut : soleArgument (trace text) delim = .error .cut) :
    SwitchPasses.read text target = .error .argvSplit := by
  have hargument : target.splitArgument (trace text) = some (.error .cut) := by
    rw [DialStringTarget.splitArgument, hsplit, Option.map_some, hcut]
  rw [SwitchPasses.read, hcarrier]
  simp only [apiArgument, hargument]
  rfl

/-- What dialplan expansion leaves of a text. -/
theorem arrives_dialplan {target : DialStringTarget} (hcarrier : target.carrier = .dialplan)
    {dollars : Bool} {text inner : Text} (hexpands : Expands dollars text inner)
    (hguarded : dollars = true → hasEscapedData text = true) : Arrives target text inner := by
  have hchars : chars (trace text) = text := chars_traceFrom 0 text
  have hordered : Ordered 0 (trace text) := ordered_traceFrom 0 text
  obtain ⟨hinner, hordered⟩ :=
    expandEscapes_expands (hchars.symm ▸ hexpands) (hchars.symm ▸ hguarded) hordered
  have hread : ∃ raw carried,
      SwitchPasses.read text target = dialList (expandEscapes (trace text)).1 raw carried
      target.blockParse := by
    rw [SwitchPasses.read, hcarrier]
    exact ⟨_, _, rfl⟩
  have hcut : target.readArgument text = .ok (text, target) := by
    have hnone : target.splitDelimiter = none := by
      have hvalid := target.valid
      rw [DialStringTarget.splitDelimiter, hcarrier]
      cases hargument : target.argument with
      | blank => rfl
      | char sep => 
          have := (hvalid.1 sep hargument).1
          rw [hcarrier] at this
          cases this
      | consumed => rfl
    rw [DialStringTarget.readArgument, DialStringTarget.splitArgument, hnone]
    rfl
  obtain ⟨raw, carried, hread⟩ := hread
  exact ⟨⟨_, raw, carried, hordered, hinner, hread⟩, text, target, hcut, rfl, rfl,
    .inr ⟨hcarrier, rfl, rfl⟩⟩

end EslTokio
