import EslTokio.SwitchPasses.ArgumentLine
import EslTokio.SwitchPasses.Tiling

/-!
# Lines whose slots may be empty

A line that names its separator keeps an empty argument between two separators. Here such a line is
split back into its slots, and the first argument of a line, of either kind, is cut out as it was
written.

* `charDelim_slots` — the spans of a line of slots.
* `byteSlice_span` — the bytes of a span are those of the text it covers.
* **`splitLine_slots`**, **`splitLine_blanks`** — what `splitLine` makes of either line.
-/

namespace EslTokio
namespace SwitchPasses

open Library

/-- An argument between two separators, which may be empty. -/
def Slot (delim : Char) (x : Text) : Prop := x = [] ∨ Joint delim x

/-- A slot and the separator behind it are one token. -/
theorem charDelimFrom_slot {delim : Char} (hdelim : Cutting delim) {x : Text}
    (hx : Slot delim x) (i : Nat) (rest : Text) :
    charDelimFrom delim none i none false (x ++ delim :: rest) =
      let later := charDelimFrom delim none (i + x.length + 1) none false rest
      { later with spans := ⟨i, i + x.length⟩ :: later.spans } := by
  rcases hx with rfl | hx
  · rw [List.nil_append, charDelimFrom_begin hdelim.ne_nul delim rfl, charDelimFrom_cut hdelim]
    rfl
  · obtain ⟨c, tail, rfl⟩ := List.exists_cons_of_ne_nil hx.ne
    have hc : c ≠ '\x00' := fun h => hx.free (h ▸ List.mem_cons_self)
    have hthrough : Through delim false (c :: tail) := by
      have hunbroken := hx.unbroken
      rwa [Unbroken, if_neg hdelim.ne_space] at hunbroken
    rw [List.cons_append, charDelimFrom_begin hc delim rfl, ← List.cons_append, hthrough,
      charDelimFrom_cut hdelim]
    rfl

theorem intercalate_cons_concat (delim : Char) (x last : Text) (xs : List Text) :
    [delim].intercalate (x :: (xs ++ [last])) = x ++ delim :: [delim].intercalate
    (xs ++ [last]) := by
  obtain ⟨y, ys, hys⟩ := List.exists_cons_of_ne_nil
    (List.append_ne_nil_of_right_ne_nil xs (List.cons_ne_nil last []))
  rw [hys, List.intercalate_cons_cons, List.append_assoc]
  rfl

/-- **The slots of a line are its spans**, where the last one is not empty. -/
theorem charDelim_slots {delim : Char} (hdelim : Cutting delim) {xs : List Text} {last : Text}
    (hxs : ∀ x ∈ xs, Slot delim x) (hlast : Joint delim last) (left : Text) :
    ∃ spans, charDelimFrom delim none left.length none false ([delim].intercalate (xs ++ [last])) =
        ⟨spans, false, false⟩ ∧
      spans.map (sliceText (left ++ [delim].intercalate (xs ++ [last]))) = xs ++ [last] := by
  induction xs generalizing left with
  | nil =>
      have hall : ∀ x ∈ [last], Joint delim x := by simpa using hlast
      have hroom : Allows none [last].length := fun _ h => by cases h
      exact charDelim_joined hdelim (List.cons_ne_nil last []) hall hroom left
  | cons x xs ih =>
      obtain ⟨hx, hrest⟩ := List.forall_mem_cons.mp hxs
      obtain ⟨spans, hscan, hslices⟩ := ih hrest (left ++ x ++ [delim])
      have hjoin := intercalate_cons_concat delim x last xs
      have hlength : (left ++ x ++ [delim]).length = left.length + x.length + 1 := by
        simp [Nat.add_assoc]
      have hline : left ++ x ++ [delim] ++ [delim].intercalate (xs ++ [last]) =
          left ++ x ++ delim :: [delim].intercalate (xs ++ [last]) := by simp
      rw [hlength] at hscan
      rw [hline] at hslices
      refine ⟨⟨left.length, left.length + x.length⟩ :: spans, ?_, ?_⟩
      · rw [List.cons_append, hjoin, charDelimFrom_slot hdelim hx, hscan]
      · rw [List.cons_append, hjoin, List.map_cons, ← List.append_assoc, hslices,
          ← List.length_append, sliceText_append]

/-! ### The bytes of a span -/

theorem filter_traceFrom_behind {offset bound : Nat} {text : Text} (h : bound ≤ offset)
    (start : Nat) :
    (traceFrom offset text).filter (fun cell => start ≤ cell.start && cell.stop ≤ bound) = [] := by
  induction text generalizing offset with
  | nil => rfl
  | cons c text ih =>
      have hsize := c.utf8Size_pos
      rw [traceFrom, List.filter_cons_of_neg, ih (by omega)]
      simp only [Bool.and_eq_true, decide_eq_true_eq, not_and, not_le]
      omega

theorem filter_traceFrom_ahead {offset bound : Nat} {text : Text}
    (h : offset + Text.byteLength text ≤ bound)
    (stop : Nat) : (traceFrom offset text).filter
    (fun cell => bound ≤ cell.start && cell.stop ≤ stop) = [] := by
  induction text generalizing offset with
  | nil => rfl
  | cons c text ih =>
      have hsize := c.utf8Size_pos
      rw [Text.byteLength_cons] at h
      rw [traceFrom, List.filter_cons_of_neg, ih (by omega)]
      simp only [Bool.and_eq_true, decide_eq_true_eq, not_and, not_le]
      omega

theorem filter_traceFrom_within {offset : Nat} {text : Text} {start stop : Nat}
    (hstart : start ≤ offset) (hstop : offset + Text.byteLength text ≤ stop) :
    (traceFrom offset text).filter (fun cell => start ≤ cell.start && cell.stop ≤ stop) =
    traceFrom offset text := by
  induction text generalizing offset with
  | nil => rfl
  | cons c text ih =>
      rw [Text.byteLength_cons] at hstop
      rw [traceFrom, List.filter_cons_of_pos, ih (by omega) (by omega)]
      simp only [Bool.and_eq_true, decide_eq_true_eq]
      omega

theorem traceFrom_append (offset : Nat) (left right : Text) :
    traceFrom offset (left ++ right) = traceFrom offset left ++ traceFrom
      (offset + Text.byteLength left) right := by
  induction left generalizing offset with
  | nil => rfl
  | cons c left ih =>
      rw [List.cons_append, traceFrom, ih, traceFrom, Text.byteLength_cons, List.cons_append,
        Nat.add_assoc]

theorem byteSlice_append (before x after : Text) :
    byteSlice (before ++ x ++ after)
      ⟨Text.byteLength before, Text.byteLength (before ++ x)⟩ = x := by
  rw [byteSlice, trace, traceFrom_append, traceFrom_append, List.filter_append, List.filter_append,
    Text.byteLength_append]
  simp only [Nat.zero_add]
  rw [filter_traceFrom_ahead (Nat.zero_add _).le, filter_traceFrom_within (Nat.le_refl _)
    (Nat.le_refl _),
    filter_traceFrom_behind (Nat.le_refl _), List.nil_append, List.append_nil, chars_traceFrom]

/-- **The bytes of a span are those of the text it covers.** -/
theorem byteSlice_span {line x : Text} {span : Span} (hslice : sliceText line span = x)
    (hne : x ≠ []) :
    byteSlice line (byteRange (trace line) (extent (trace line)) span) = x := by
  obtain ⟨start, stop⟩ := span
  have hcovers : start < (line.take stop).length := by
    by_contra hbehind
    exact hne (hslice.symm.trans (List.drop_eq_nil_of_le (Nat.le_of_not_lt hbehind)))
  rw [List.length_take] at hcovers
  have hstart : start ≤ line.length := by omega
  have htake : line.take start ++ x = line.take stop := by
    have htaken : line.take start = (line.take stop).take start := by
      rw [List.take_take, Nat.min_eq_left (by omega)]
    rw [htaken, ← hslice]
    exact List.take_append_drop start (line.take stop)
  have hwhole : line.take start ++ x ++ line.drop stop = line := by
    rw [htake, List.take_append_drop]
  have hbytes := byteSlice_append (line.take start) x (line.drop stop)
  rwa [hwhole, htake, ← byteRange_trace line hstart] at hbytes

/-! ### The line of a command -/

/-- A split line whose first argument stands in it as `first`, with the texts of the others. -/
structure LineCut (line : Text) (delimiter : Char) (first : Text) (texts : List Text)
    (cut : ArgumentLine) : Prop where
  delimiter : cut.delimiter = delimiter
  arguments : ∃ argument later, cut.arguments = argument :: later ∧
    byteSlice line argument.raw = first ∧
    later.map (·.text) = texts

/-- What `splitLine` makes of a line whose tokens are known. -/
theorem splitLine_tokens {line : Text} {splitAt delimiter : Char} {first cleaned : Text}
    {xs texts : List Text}
    (hraw : (separate (trace line) splitAt none).tokens.map
      (fun token => sliceText line token.raw) = first :: xs)
    (htexts : (separate (trace line) splitAt none).tokens.map (fun token => untrace token.text) =
      cleaned :: texts)
    (hopen : (separate (trace line) splitAt none).openQuote = false)
    (hdelimiter : (separate (trace line) splitAt none).delimiter = delimiter) (hne : first ≠ [])
    (hhead : ∀ c ∈ first.head?, c ≠ ' ') :
    ∃ cut, splitLine line splitAt = .ok cut ∧ LineCut line delimiter first texts cut := by
  refine ⟨_, if_neg (fun h => by rw [hopen] at h; exact Bool.false_ne_true h.2), hdelimiter, ?_⟩
  obtain ⟨token, later, htokens, hfirst, -⟩ := List.map_eq_cons_iff.mp hraw
  rw [htokens, List.map_cons, List.cons.injEq] at htexts
  have hbytes := byteSlice_span hfirst hne
  have hleading : leadingSpaces first = 0 := by
    obtain ⟨c, rest, rfl⟩ := List.exists_cons_of_ne_nil hne
    rw [leadingSpaces, List.takeWhile_cons_of_neg (by simpa using hhead c rfl), List.length_nil]
  simp only [htokens, List.map_cons]
  refine ⟨_, _, rfl, ?_, ?_⟩
  · simp only [hbytes, hleading, ite_self, Nat.add_zero]
  · rw [List.map_map, ← htexts.2]
    rfl

/-- A span that many entries on. -/
def Span.shift (count : Nat) (span : Span) : Span := ⟨count + span.start, count + span.stop⟩

theorem sliceText_shift (before line : Text) (span : Span) :
    sliceText (before ++ line) (span.shift before.length) = sliceText line span := by
  rw [sliceText, Span.shift, sliceText, List.take_length_add_append, List.drop_length_add_append]

/-- A scan behind more text cuts the same tokens that much further on. -/
theorem Scan.behind {delim : Char} {left s : List Traced} {spans spans' : List Span}
    (h : Scan delim left s spans spans') (pre : List Traced) :
    Scan delim (pre ++ left) s (spans.map (Span.shift pre.length))
      (spans'.map (Span.shift (expand pre).length)) := by
  have hspan : ∀ x y : List Traced, Span.shift pre.length ⟨x.length, y.length⟩ =
      ⟨(pre ++ x).length, (pre ++ y).length⟩ := by simp [Span.shift]
  have hbytes : ∀ x : List Traced, (expand (pre ++ x)).length = (expand pre).length +
      (expand x).length := by simp
  induction h with
  | done left gap => exact .done (pre ++ left) gap
  | @last left gap p stop hstop =>
      have hlast : (expand (pre ++ left ++ gap ++ p)).length ≤ (expand pre).length + stop := by
        rw [List.append_assoc, List.append_assoc, hbytes, ← List.append_assoc]
        omega
      have hscan : Scan delim (pre ++ left) (gap ++ p) _ _ := .last (pre ++ left) gap p hlast
      rw [List.append_assoc pre, List.append_assoc pre, hbytes, ← hspan] at hscan
      exact hscan
  | @cut left gap p cell rest spans spans' hcell hrest ih =>
      rw [← List.append_assoc, ← List.append_assoc, ← List.append_assoc] at ih
      have hscan : Scan delim (pre ++ left) (gap ++ p ++ cell :: rest) _ _ :=
        .cut (pre ++ left) gap p hcell ih
      rw [List.append_assoc pre, List.append_assoc pre, hbytes, hbytes, ← hspan] at hscan
      exact hscan

/-- The raw tokens of a line behind a head are those of what follows it. -/
theorem raw_picked {sep : Char} (hascii : sep.toNat < 128) (hnul : sep ≠ '\x00')
    {rest : List Traced}
    {first second third : Traced} (hordered : Ordered 0 (first :: second :: third :: rest))
    (hfirst : first.char = '^')
    (hsecond : second.char = '^') (hthird : third.char = sep) (hrest : rest ≠ [])
    (hfree : NulFree rest) (delim : Char) :
    (separate (first :: second :: third :: rest) delim none).tokens.map (·.raw) =
      (pureCut (chars rest) sep none).spans.map (Span.shift 3) := by
  obtain ⟨nul, hstop, hcells⟩ := hordered.whole.withOrigins
  have hcaret : ('^' : Char).toNat < 128 := by decide
  have hexpand : expand [first, second, third] = [first, second, third] := by
    rw [expand_cons, expand_cons, expand_cons, bytesOf_ascii (by rwa [hfirst]),
      bytesOf_ascii (by rwa [hsecond]), bytesOf_ascii (by rwa [hthird])]
    rfl
  have hwhole : expand (first :: second :: third :: rest) = [first, second, third] ++
      expand rest := by
    rw [← hexpand, ← expand_append]
    rfl
  rw [hwhole, List.append_assoc] at hcells
  obtain ⟨body, tokens, spans, hsplit, hscan, hraw, -⟩ :=
    split_expand hascii hnul (by simp : (none : Option Nat) ≠ some 0) hfree
      [first, second, third] hstop
  have hpicked : argumentHead (chars ((CBuffer.withOrigins
      (first :: second :: third :: rest)).1.cStr 0)) = .picked sep := by
    have hstr : (CBuffer.withOrigins (first :: second :: third :: rest)).1.cStr 0 =
        [first, second, third] ++ expand rest := by
      rw [hcells, ← List.append_assoc]
      refine cStr_start ?_ hstop [nul]
      refine List.forall_mem_cons.mpr ⟨by rw [hfirst]; decide, List.forall_mem_cons.mpr
        ⟨by rw [hsecond]; decide, List.forall_mem_cons.mpr ⟨?_, nulFree_expand hfree⟩⟩⟩
      rwa [hthird]
    obtain ⟨cell, rest, rfl⟩ := List.exists_cons_of_ne_nil hrest
    rw [hstr, expand_cons, bytesOf]
    simp only [List.cons_append, List.nil_append, chars_cons, hfirst, hsecond, hthird]
    exact argumentHead_picked hascii hnul (hfree cell List.mem_cons_self)
  have horigins := (hscan.behind [first, second, third]).origins (by simpa using hordered.whole)
  have hshift : tokens.map (·.raw) = spans.map (Span.shift 3) := hraw
  rw [hexpand, List.append_nil] at horigins
  change List.Forall₂ _ (spans.map (Span.shift 3)) _ at horigins
  rw [← hshift, List.forall₂_map_left_iff] at horigins
  rw [separate, readBack]
  simp only [CBuffer.separate, hpicked]
  rw [hcells, Nat.zero_add]
  rw [show ([first, second, third] : List Traced).length = 3 from rfl] at hsplit
  rw [hsplit, List.map_map, ← List.forall₂_eq_eq_eq, List.forall₂_map_left_iff]
  exact horigins

/-- **A line of blanks is split into its first argument and the texts behind it.** -/
theorem splitLine_blanks {first : Text} {xs : List Text} (hfirst : Joint ' ' first)
    (hxs : ∀ x ∈ xs, Joint ' ' x) (hhead : Headless first) :
    ∃ cut, splitLine ([' '].intercalate (first :: xs)) ' ' = .ok cut ∧
      LineCut ([' '].intercalate (first :: xs)) ' ' first (xs.map (written none false)) cut := by
  have hall : ∀ x ∈ first :: xs, Joint ' ' x := List.forall_mem_cons.mpr ⟨hfirst, hxs⟩
  have hroom : Allows none (first :: xs).length := fun _ h => by cases h
  obtain ⟨htexts, hopen, hdelimiter⟩ :=
    separate_joined (.inl rfl) (by decide) (List.cons_ne_nil first xs) hall hroom
    (headless_joined hfirst.ne hhead xs)
  obtain ⟨-, hspans⟩ := pureCut_joined (.inl rfl) (List.cons_ne_nil first xs) hall hroom
  have hchars : chars (trace ([' '].intercalate (first :: xs))) = [' '].intercalate (first :: xs) :=
    chars_traceFrom 0 _
  have hordered : Ordered 0 (trace ([' '].intercalate (first :: xs))) := ordered_traceFrom 0 _
  have hfree : NulFree (trace ([' '].intercalate (first :: xs))) := by
    rw [nulFree_iff, hchars]
    exact joint_free (by decide) hall
  have hraw : (separate (trace ([' '].intercalate (first :: xs))) ' ' none).tokens.map
      (fun token => sliceText ([' '].intercalate (first :: xs)) token.raw) = first :: xs := by
    rw [separate_eq_separateOn hordered hfree
      (by rw [hchars]; exact headless_joined hfirst.ne hhead xs),
      separateOn_pure hordered hfree (by decide) (by decide) (by simp), List.map_map, hchars]
    exact hspans
  exact splitLine_tokens hraw htexts hopen hdelimiter hfirst.ne hfirst.trimmed.head

/-- The cleaned spans of a line of trimmed tokens. -/
theorem cleaned_trimmed {lo : Nat} {text : List Traced} (hordered : Ordered lo text)
    (delim : Option Char)
    {xs : List Text} (hxs : ∀ x ∈ xs, Trimmed x) {spans : List Span}
    (hspans : spans.map (sliceText (chars text)) = xs) :
    spans.map (fun span => untrace (cleanup (slice text span) delim)) = xs.map
      (written delim false) := by
  rw [← hspans, List.map_map]
  refine List.map_congr_left fun span hspan => ?_
  have hx : Trimmed (sliceText (chars text) span) := hxs _ (hspans ▸ List.mem_map_of_mem hspan)
  have hchars := chars_slice text span
  rw [untrace_whole ((hordered.slice span).cleanup _).whole,
    chars_cleanup delim (by rw [hchars]; exact hx), hchars]
  rfl

/-- **A line that names its separator is split into its first argument and the slots behind it.** -/
theorem splitLine_slots {sep : Char} (hsep : Cutting sep) (hascii : sep.toNat < 128)
    {first last : Text}
    {xs : List Text} (hfirst : Joint sep first) (hxs : ∀ x ∈ xs, Slot sep x)
    (hlast : Joint sep last) :
    ∃ cut, splitLine ('^' :: '^' :: sep :: [sep].intercalate (first :: (xs ++ [last])))
      ' ' = .ok cut ∧
      LineCut ('^' :: '^' :: sep :: [sep].intercalate (first :: (xs ++ [last]))) sep first
        ((xs ++ [last]).map (written (cleanupDelim sep) false)) cut := by
  have hslots : ∀ x ∈ first :: xs, Slot sep x := List.forall_mem_cons.mpr ⟨.inr hfirst, hxs⟩
  have hpieces : ∀ x ∈ first :: (xs ++ [last]), '\x00' ∉ x ∧ Trimmed x := by
    intro x hx
    have hslot : Slot sep x := by
      rw [← List.cons_append, List.mem_append, List.mem_singleton] at hx
      exact hx.elim (hslots x) fun h => .inr (h ▸ hlast)
    rcases hslot with rfl | hjoint
    · exact ⟨List.not_mem_nil, by simp, by simp⟩
    · exact ⟨hjoint.free, hjoint.trimmed⟩
  generalize hjoined : [sep].intercalate (first :: (xs ++ [last])) = joined
  have hne : joined ≠ [] := by
    rw [← hjoined, intercalate_cons_concat]
    simp
  have hfree : '\x00' ∉ joined := by
    rw [← hjoined, ← List.singleton_infix_iff]
    intro hwithin
    have hnul : sep ∉ ['\x00'] := by simpa using hsep.ne_nul
    obtain ⟨x, hx, hwithin⟩ := Search.infix_intercalate (List.cons_ne_nil _ _) hnul hwithin
    exact (hpieces x hx).1 ((List.singleton_infix_iff _ _).mp hwithin)
  obtain ⟨carets, rest, htrace, hrest, hlater, hchars⟩ :
    ∃ carets rest, trace ('^' :: '^' :: sep :: joined) =
      (⟨'^', 0, 1⟩ : Traced) :: ⟨'^', 1, 2⟩ :: carets :: rest ∧ carets.char = sep ∧ Ordered 0 rest ∧
        chars rest = joined :=
    ⟨_, _, rfl, rfl, (ordered_traceFrom _ _).mono (Nat.zero_le _), chars_traceFrom _ _⟩
  have hordered : Ordered 0 ((⟨'^', 0, 1⟩ : Traced) :: ⟨'^', 1, 2⟩ :: carets :: rest) :=
    htrace ▸ ordered_traceFrom 0 _
  have hcells : NulFree rest := by rwa [nulFree_iff, hchars]
  have hnonempty : rest ≠ [] := by
    rintro rfl
    exact hne hchars.symm
  obtain ⟨spans, hscan, hslices⟩ := charDelim_slots hsep hslots hlast []
  rw [List.cons_append, hjoined, List.nil_append] at hslices
  rw [List.cons_append, hjoined] at hscan
  have hpure : pureCut joined sep none = ⟨spans, false, false⟩ := by
    rw [pureCut, if_neg hsep.ne_space]
    exact hscan
  obtain ⟨htexts, hopen, hdelimiter⟩ :=
    separate_picked hascii hsep.ne_nul (by simp : (none : Option Nat) ≠ some 0)
    hordered rfl rfl hrest hnonempty hcells ' '
  have hraws := raw_picked hascii hsep.ne_nul hordered rfl rfl hrest hnonempty hcells ' '
  rw [← htrace] at htexts hopen hdelimiter hraws
  rw [hchars, hpure] at htexts hopen hraws
  rw [cleaned_trimmed hlater _ (fun x hx => (hpieces x hx).2)
    (by rw [hchars]; exact hslices)] at htexts
  have hraw : (separate (trace ('^' :: '^' :: sep :: joined)) ' ' none).tokens.map
      (fun token => sliceText ('^' :: '^' :: sep :: joined) token.raw) = first ::
        (xs ++ [last]) := by
    have hslice : sliceText ('^' :: '^' :: sep :: joined) ∘ Span.shift 3 = sliceText joined :=
      funext fun span => sliceText_shift ['^', '^', sep] joined span
    have hslices' := congrArg (List.map (sliceText ('^' :: '^' :: sep :: joined))) hraws
    rw [List.map_map, List.map_map, hslice, hslices] at hslices'
    exact hslices'
  exact splitLine_tokens hraw htexts hopen hdelimiter hfirst.ne hfirst.trimmed.head

end SwitchPasses
end EslTokio
