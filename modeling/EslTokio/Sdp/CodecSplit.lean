import EslTokio.Sdp.CodecString
import EslTokio.SwitchPasses.InlineHunt
import EslTokio.SwitchPasses.Tiling
import Mathlib.Data.List.TakeWhile

/-!
# The two ports of `switch_separate_string`

`codec_string/parse.rs` splits a codec string with the pure scan of `separate.rs` and says it does
what `switch_separate_string` does, whose port beside it reads a `^^` head first.

* `count_cleanup`, `Tiles.count` — the pure scan and its cleanup keep every caret of a text.
* **`splitCodecString_eq_separate_iff`** — the two agree exactly on texts that open with no head.
-/

namespace EslTokio
namespace SwitchPasses

open Library

/-! ### What a cleanup keeps -/

/-- A char no cleanup drops, and no escape stands for or with. -/
def Kept (x : Char) : Prop := x ∉ ['\\', '\'', '\n', '\r', '\t', ' ', 'n', 'r', 't', 's']

theorem Cleaned.count_eq {x : Char} (hx : Kept x) {delim : Option Char} {text written : Text}
    (h : Cleaned delim text written) : written.count x = text.count x := by
  have hne : ∀ c ∈ ['\\', '\'', '\n', '\r', '\t', ' ', 'n', 'r', 't', 's'], (c == x) = false := by
    intro c hc
    rw [beq_eq_false_iff_ne]
    rintro rfl
    exact hx hc
  induction h with
  | nil => rfl
  | @escape next e text written he hrest ih =>
      rw [List.count_cons, List.count_cons, List.count_cons, hne '\\' (by decide), ih]
      rcases unescape_cases he with rfl | ⟨hnext, he⟩
      · rfl
      · rw [hne next (List.mem_append_right ['\\', '\'', '\n', '\r', '\t', ' '] hnext),
          hne e (List.mem_append_left ['n', 'r', 't', 's']
            (List.mem_append_right ['\\', '\''] he))]
        rfl
  | quote hrest ih =>
      rw [List.count_cons, hne '\'' (by decide), ih]
      rfl
  | keep c hrest ih => rw [List.count_cons, List.count_cons, ih]

/-- A cleanup moves a terminator on or leaves it, and behind it has written nothing but spaces. -/
theorem spaces_behind_stop (delim : Option Char) (inside : Bool) (count : Nat) (stop : Option Nat)
    (cells : List Traced) (hstop : ∀ n ∈ stop, n ≤ count) :
    (∀ n ∈ stop, n ≤ (cleanupFrom delim inside count stop cells).2.getD 0) ∧
      ∀ cell ∈ (cleanupFrom delim inside count stop cells).1.drop
        ((cleanupFrom delim inside count stop cells).2.getD 0 - count), cell.char = ' ' := by
  -- An entry the terminator stands behind is passed over with the rest.
  have hkept : ∀ {m : Nat} {cell : Traced} {later : List Traced} {count : Nat}, count + 1 ≤ m →
      (cell :: later).drop (m - count) = later.drop (m - (count + 1)) := by
    intro m cell later count hle
    have hsub : m - count = m - (count + 1) + 1 := by omega
    rw [hsub, List.drop_succ_cons]
  fun_induction cleanupFrom delim inside count stop cells with
  | case1 inside count stop =>
      refine ⟨fun n hn => ?_, by simp⟩
      rw [Option.mem_def.mp hn]
      rfl
  | case2 inside count stop cell =>
      refine ⟨fun n hn => (hstop n hn).trans (Nat.le_succ count), ?_⟩
      simp
  | case3 inside count stop cell hcell next rest e he later ih =>
      obtain ⟨hle, hspaces⟩ := ih (by simp)
      have hm : count + 1 ≤ later.2.getD 0 := hle (count + 1) rfl
      refine ⟨fun n hn => (hstop n hn).trans (Nat.le_of_succ_le hm), ?_⟩
      rw [hkept hm]
      exact hspaces
  | case4 inside count stop cell hcell next rest hnone later ih =>
      obtain ⟨hle, hspaces⟩ := ih (by simp)
      have hm : count + 1 ≤ later.2.getD 0 := hle (count + 1) rfl
      refine ⟨fun n hn => (hstop n hn).trans (Nat.le_of_succ_le hm), ?_⟩
      rw [hkept hm]
      exact hspaces
  | case5 inside count stop cell rest hcell hopen ih =>
      cases inside with
      | true => exact ih hstop
      | false =>
          obtain ⟨hle, hspaces⟩ := ih (by simp)
          exact ⟨fun n hn => (hstop n hn).trans (hle count rfl), hspaces⟩
  | case6 inside count stop cell rest hcell hopen kept later ih =>
      by_cases hkeeps : cell.char ≠ ' ' ∨ inside = true
      · have hsome : kept = some (count + 1) := if_pos hkeeps
        obtain ⟨hle, hspaces⟩ := ih (by simp [hsome])
        have hm : count + 1 ≤ later.2.getD 0 := hle (count + 1) hsome
        refine ⟨fun n hn => (hstop n hn).trans (Nat.le_of_succ_le hm), ?_⟩
        rw [hkept hm]
        exact hspaces
      · have hsame : kept = stop := if_neg hkeeps
        have hspace : cell.char = ' ' := by
          by_contra h
          exact hkeeps (.inl h)
        obtain ⟨hle, hspaces⟩ := ih
          (by rw [hsame]; exact fun n hn => (hstop n hn).trans (Nat.le_succ count))
        refine ⟨fun n hn => hle n (hsame ▸ hn), ?_⟩
        by_cases hm : count + 1 ≤ later.2.getD 0
        · rw [hkept hm]
          exact hspaces
        · have hzero : later.2.getD 0 - count = 0 := by omega
          have hzero' : later.2.getD 0 - (count + 1) = 0 := by omega
          rw [hzero'] at hspaces
          rw [hzero]
          exact List.forall_mem_cons.mpr ⟨hspace, hspaces⟩

/-- **A cleanup keeps every char that is neither blank nor part of an escape.** -/
theorem count_cleanup {x : Char} (hx : Kept x) (delim : Option Char) (raw : List Traced) :
    (chars (cleanup raw delim)).count x = (chars raw).count x := by
  have hspace : x ≠ ' ' := by
    rintro rfl
    exact hx (by decide)
  have hblank : ∀ {cells : List Traced}, (∀ cell ∈ cells, cell.char = ' ') →
      (chars cells).count x = 0 := by
    intro cells hcells
    refine List.count_eq_zero.mpr fun hmem => ?_
    obtain ⟨cell, hcell, rfl⟩ := List.mem_map.mp hmem
    exact hspace (hcells cell hcell)
  obtain ⟨-, hbehind⟩ := spaces_behind_stop delim false 0 none (skipSpaces raw) (by simp)
  rw [Nat.sub_zero] at hbehind
  have hcut : (chars (cleanup raw delim)).count x =
      (chars (cleanupWritten raw delim).1).count x := by
    conv_rhs => rw [← List.take_append_drop ((cleanupWritten raw delim).2.getD 0)
      (cleanupWritten raw delim).1, chars_append, List.count_append]
    rw [cleanupWritten, hblank hbehind]
    rfl
  have hskip : (chars (skipSpaces raw)).count x = (chars raw).count x := by
    conv_rhs => rw [← List.takeWhile_append_dropWhile (p := fun cell : Traced => cell.char = ' ')
      (l := raw), chars_append, List.count_append]
    have hlead : (chars (raw.takeWhile fun cell => cell.char = ' ')).count x = 0 :=
      hblank fun cell hcell => by simpa using List.mem_takeWhile_imp hcell
    rw [hlead, Nat.zero_add]
    rfl
  rw [hcut, ← hskip]
  exact (cleaned_cleanupFrom delim false 0 none (skipSpaces raw)).count_eq hx

/-! ### The two splits -/

/-- The tokens of a tiled text hold every char but the delimiters. -/
theorem Tiles.count {delim x : Char} {i : Nat} {text : Text} {spans : List Span}
    (h : Tiles delim List.length i text spans) (hspace : delim ≠ ' ') (hx : x ≠ delim)
    (before : Text) (hi : i = before.length) :
    (spans.map fun span => (sliceText (before ++ text) span).count x).sum = text.count x := by
  have hgapless : ∀ {gap : Text}, IsDelimiter delim gap → gap.count x = 0 := by
    intro gap hgap
    rw [IsDelimiter, if_neg hspace] at hgap
    rw [hgap, List.count_singleton, if_neg (by simpa using hx.symm)]
  induction h generalizing before with
  | nil i => rfl
  | last i token =>
      subst hi
      have hslice := sliceText_append before token []
      rw [List.append_nil, List.length_append] at hslice
      simp [hslice]
  | @trailing i token gap hgap =>
      subst hi
      have hslice := sliceText_append before token gap
      rw [List.append_assoc, List.length_append] at hslice
      simp [hslice, hgapless hgap]
  | @cut i token gap rest spans hgap hne hrest ih =>
      subst hi
      have hslice := sliceText_append before token (gap ++ rest)
      rw [List.append_assoc, List.length_append, ← List.append_assoc token] at hslice
      have hlater := ih (before ++ (token ++ gap)) (by simp)
      rw [List.append_assoc before] at hlater
      rw [List.map_cons, List.sum_cons, hslice, hlater, List.count_append, List.count_append,
        hgapless hgap, Nat.add_zero]

end SwitchPasses

namespace Sdp

open Library SwitchPasses

/-- What the codec-string splitter cuts is what the split on a comma cuts with no head read. -/
theorem splitCodecString_eq {text : Text} (hfree : '\x00' ∉ text) :
    splitCodecString text = (separateOn (trace text) ',' none).tokens.map fun token =>
      untrace token.text := by
  have hchars : chars (trace text) = text := chars_traceFrom 0 text
  have hcells : NulFree (trace text) := by rwa [nulFree_iff, hchars]
  have hordered : Ordered 0 (trace text) := ordered_traceFrom 0 text
  rw [separateOn_pure hordered hcells (by decide) (by decide) (by simp), hchars, List.map_map]
  rfl

/-- Every caret of a text is in one of its tokens. -/
theorem count_splitCodecString {text : Text} (hfree : '\x00' ∉ text) :
    ((splitCodecString text).map (List.count '^')).sum = text.count '^' := by
  have hchars : chars (trace text) = text := chars_traceFrom 0 text
  have hordered : Ordered 0 (trace text) := ordered_traceFrom 0 text
  have hkept : Kept '^' := by simp [Kept]
  have htiles : Tiles ',' List.length 0 text (charDelim text ',' none).spans :=
    charDelim_tiles (by decide) hfree
  have hcount := htiles.count (x := '^') (by decide) (by decide) [] rfl
  rw [← hcount, splitCodecString, separateStringCharDelim, List.map_map]
  refine congrArg List.sum (List.map_congr_left fun span _ => ?_)
  have hwhole := ((hordered.slice span).cleanup (some ',')).whole
  rw [Function.comp_apply, untrace_whole hwhole, count_cleanup hkept, chars_slice, hchars]
  rfl

/-- **The codec-string splitter is `switch_separate_string` on every text that opens with no head,
and on no other.** A head is `^^`, an ASCII separator and at least one char behind it. -/
theorem splitCodecString_eq_separate_iff (text : Text) (hfree : '\x00' ∉ text)
    (hreadable : argumentHead text ≠ .unreadable) :
    splitCodecString text =
        (separate (trace text) ',' none).tokens.map (fun token => untrace token.text) ↔
      argumentHead text = .absent := by
  have hchars : chars (trace text) = text := chars_traceFrom 0 text
  have hordered : Ordered 0 (trace text) := ordered_traceFrom 0 text
  have hcells : NulFree (trace text) := by rwa [nulFree_iff, hchars]
  constructor
  · intro heq
    cases hhead : argumentHead text with
    | absent => rfl
    | unreadable => exact absurd hhead hreadable
    | picked sep =>
        -- The head's carets are in a token of the one split and in none of the other.
        obtain ⟨c, rest, rfl, hnul, hascii⟩ := argumentHead_eq_picked hhead
        have hsuffix : (c :: rest).Sublist ('^' :: '^' :: sep :: c :: rest) :=
          List.sublist_append_right ['^', '^', sep] (c :: rest)
        have hrest : chars (traceFrom (0 + 1 + 1 + sep.utf8Size) (c :: rest)) = c :: rest :=
          chars_traceFrom _ _
        have hrestFree : NulFree (traceFrom (0 + 1 + 1 + sep.utf8Size) (c :: rest)) := by
          rw [nulFree_iff, hrest]
          exact fun h => hfree (hsuffix.subset h)
        have hrestOrdered : Ordered 0 (traceFrom (0 + 1 + 1 + sep.utf8Size) (c :: rest)) :=
          (ordered_traceFrom _ _).mono (Nat.zero_le _)
        have hlimit : (none : Option Nat) ≠ some 0 := by simp
        have htokens := (separate_picked hascii hnul hlimit hordered rfl rfl rfl
          (by simp [traceFrom])
          hrestFree ',').1
        have hle := (count_pureCut_le (x := '^') (by simp [Lasting]) hascii hrestOrdered hrestFree
          none).trans_eq (congrArg (List.count '^') hrest)
        have hall := count_splitCodecString hfree
        rw [heq.trans htokens, List.map_map] at hall
        have hmore : (c :: rest).count '^' < ('^' :: '^' :: sep :: c :: rest).count '^' := by
          have hsep := (List.sublist_cons_self sep (c :: rest)).count_le '^'
          rw [List.count_cons_self, List.count_cons_self]
          omega
        exact absurd hall (Nat.ne_of_lt (hle.trans_lt hmore))
  · intro hhead
    rw [splitCodecString_eq hfree, separate_of_not_picked hordered hcells]
    rw [hchars, hhead]
    intro sep hpicked
    cases hpicked

/-- Two codecs behind a separator of their own. -/
theorem headed_not_separate :
    '\x00' ∉ "^^:PCMU:PCMA".toList ∧ argumentHead "^^:PCMU:PCMA".toList ≠ .unreadable ∧
      splitCodecString "^^:PCMU:PCMA".toList ≠
        (separate (trace "^^:PCMU:PCMA".toList) ',' none).tokens.map
        (fun token => untrace token.text) := by
  decide +kernel

theorem splitCodecString_eq_separate_iff_quoted :
    argumentHead "'PCMU', opus@48000h\\,".toList = .absent ∧
      splitCodecString "'PCMU', opus@48000h\\,".toList =
        (separate (trace "'PCMU', opus@48000h\\,".toList) ',' none).tokens.map
          (fun token => untrace token.text) := by
  have hhead : argumentHead "'PCMU', opus@48000h\\,".toList = .absent := by decide +kernel
  exact ⟨hhead, (splitCodecString_eq_separate_iff _ (by decide +kernel)
    (by rw [hhead]; simp)).mpr hhead⟩

end Sdp
end EslTokio
