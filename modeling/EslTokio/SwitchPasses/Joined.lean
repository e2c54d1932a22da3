import EslTokio.SwitchPasses.PureSplit

/-!
# Lines of joined tokens

What `separate` makes of a line written as tokens joined by the delimiter, with or without a `^^`
head that names it: when no token is cut by the scan or trimmed by the cleanup, it is split back
into them.

* `BlankThrough` — a text the scan for blanks does not cut.
* `Joint` — a token that is neither cut nor trimmed.
* `charDelim_joined`, `blankDelim_joined` — the spans of a joined line are its tokens.
* **`separate_joined`**, **`separate_headed`** — the tokens of a joined line, cleaned.
-/

namespace EslTokio
namespace SwitchPasses

open Library

/-- The part of a line a span covers. -/
def sliceText (line : Text) (span : Span) : Text := (line.take span.stop).drop span.start

theorem chars_slice (text : List Traced) (span : Span) :
    chars (slice text span) = sliceText (chars text) span := by
  rw [slice, chars_drop, chars_take]
  rfl

theorem sliceText_append (before x after : Text) :
    sliceText (before ++ x ++ after) ⟨before.length, (before ++ x).length⟩ = x := by
  rw [sliceText, List.take_left, List.drop_left]

/-- The scan for blanks goes over a text inside a token and cuts nothing. -/
def BlankThrough (x : Text) : Prop :=
  ∀ limit i begun rest,
    (blankDelimFrom limit i (.findDelim begun) false (x ++ rest)).spans =
        (blankDelimFrom limit (i + x.length) (.findDelim begun) false rest).spans ∧
      (blankDelimFrom limit i (.findDelim begun) false (x ++ rest)).openQuote =
        (blankDelimFrom limit (i + x.length) (.findDelim begun) false rest).openQuote

/-- A scan on `delim`, a blank or another char, goes over a text and cuts nothing. -/
def Unbroken (delim : Char) (x : Text) : Prop :=
  if delim = ' ' then BlankThrough x else Through delim false x

/-- A token of a line: it is not empty, has no terminator, and is neither cut nor trimmed. -/
structure Joint (delim : Char) (x : Text) : Prop where
  ne : x ≠ []
  free : '\x00' ∉ x
  trimmed : Trimmed x
  unbroken : Unbroken delim x

/-- A limit that leaves room for so many tokens. -/
def Allows (limit : Option Nat) (count : Nat) : Prop := ∀ most ∈ limit, count ≤ most

theorem Allows.fewer {limit : Option Nat} {count : Nat} (h : Allows limit (count + 1)) :
    Allows (fewer limit) count := by
  intro most hmost
  obtain ⟨whole, hwhole, rfl⟩ := Option.map_eq_some_iff.mp hmost
  have := h whole hwhole
  omega

theorem Allows.notLast {limit : Option Nat} {count : Nat} (h : Allows limit (count + 2)) :
    lastToken limit = false := by
  cases limit with
  | none => rfl
  | some most =>
      have := h most rfl
      simp only [lastToken, decide_eq_false_iff_not]
      omega

/-! ### The spans of a joined line -/

/-- **The tokens of a line joined by a char are its spans.** -/
theorem charDelim_joined {delim : Char} (hdelim : Cutting delim) {limit : Option Nat}
    {xs : List Text}
    (hne : xs ≠ []) (hxs : ∀ x ∈ xs, Joint delim x) (hlimit : Allows limit xs.length)
    (left : Text) :
    ∃ spans, charDelimFrom delim limit left.length none false ([delim].intercalate xs) =
        ⟨spans, false, false⟩ ∧
      spans.map (sliceText (left ++ [delim].intercalate xs)) = xs := by
  induction xs generalizing limit left with
  | nil => exact absurd rfl hne
  | cons x xs ih =>
      obtain ⟨hx, hrest⟩ := List.forall_mem_cons.mp hxs
      obtain ⟨c, tail, rfl⟩ := List.exists_cons_of_ne_nil hx.ne
      have hc : c ≠ '\x00' := fun h => hx.free (h ▸ List.mem_cons_self)
      have hthrough : Through delim false (c :: tail) := by
        have := hx.unbroken
        rwa [Unbroken, if_neg hdelim.ne_space] at this
      cases xs with
      | nil =>
          rw [List.intercalate_singleton]
          refine ⟨[⟨left.length, (left ++ c :: tail).length⟩], ?_, ?_⟩
          · cases hlast : lastToken limit with
            | true =>
                unfold charDelimFrom
                rw [if_neg hc, if_pos ⟨rfl, hlast⟩]
                simp only [List.length_append, List.length_cons, Nat.add_assoc]
            | false =>
                rw [charDelimFrom_begin hc delim hlast, ← List.append_nil (c :: tail), hthrough]
                simp [charDelimFrom]
          · rw [List.map_singleton]
            have hslice := sliceText_append left (c :: tail) []
            rw [List.append_nil] at hslice
            rw [hslice]
      | cons y ys =>
          have hjoin : [delim].intercalate ((c :: tail) :: y :: ys) =
              (c :: tail) ++ delim :: [delim].intercalate (y :: ys) := by
            rw [List.intercalate_cons_cons, List.append_assoc]
            rfl
          obtain ⟨spans, hscan, hslices⟩ := ih (List.cons_ne_nil y ys) hrest hlimit.fewer
            (left ++ (c :: tail) ++ [delim])
          refine ⟨⟨left.length, (left ++ (c :: tail)).length⟩ :: spans, ?_, ?_⟩
          · have hlength : (left ++ (c :: tail) ++ [delim]).length =
                left.length + (c :: tail).length + 1 := by
              simp only [List.length_append, List.length_cons, List.length_nil]
            rw [hlength] at hscan
            rw [hjoin, List.cons_append, charDelimFrom_begin hc delim hlimit.notLast,
              ← List.cons_append, hthrough, charDelimFrom_cut hdelim, hscan]
            simp only [List.length_append]
          · have hline : left ++ [delim].intercalate ((c :: tail) :: y :: ys) =
                left ++ (c :: tail) ++ (delim :: [delim].intercalate (y :: ys)) := by
              rw [hjoin, List.append_assoc]
            have hline' : left ++ (c :: tail) ++ [delim] ++ [delim].intercalate (y :: ys) =
                left ++ (c :: tail) ++ (delim :: [delim].intercalate (y :: ys)) := by
              simp
            rw [hline'] at hslices
            rw [List.map_cons, hline, hslices, sliceText_append]

/-- **The tokens of a line joined by blanks are its spans.** -/
theorem blankDelim_joined {limit : Option Nat} {xs : List Text} (hne : xs ≠ [])
    (hxs : ∀ x ∈ xs, Joint ' ' x) (hlimit : Allows limit xs.length) (left : Text)
    {state : BlankState} (hstate : state = .start ∨ state = .skipEndingSpace) :
    ∃ cut : Cut, blankDelimFrom limit left.length state false ([' '].intercalate xs) = cut ∧
      cut.openQuote = false ∧
      cut.spans.map (sliceText (left ++ [' '].intercalate xs)) = xs := by
  induction xs generalizing limit left state with
  | nil => exact absurd rfl hne
  | cons x xs ih =>
      obtain ⟨hx, hrest⟩ := List.forall_mem_cons.mp hxs
      obtain ⟨c, tail, rfl⟩ := List.exists_cons_of_ne_nil hx.ne
      have hc : c ≠ '\x00' := fun h => hx.free (h ▸ List.mem_cons_self)
      have hspace : c ≠ ' ' := hx.trimmed.head c rfl
      have hthrough : BlankThrough (c :: tail) := hx.unbroken
      have hbegin : lastToken limit = false → ∀ rest,
          blankDelimFrom limit left.length state false (c :: rest) =
            blankDelimFrom limit left.length (.findDelim left.length) false (c :: rest) := by
        intro hlast rest
        have hsettle : state.settle limit left.length c = .findDelim left.length := by
          rcases hstate with rfl | rfl
          · rw [BlankState.settle, hlast, if_neg Bool.false_ne_true, if_neg hspace]
          · rw [BlankState.settle, if_neg hspace, hlast, if_neg Bool.false_ne_true]
        rw [blankDelimFrom_settle _ _ _ _ hsettle, if_neg hc]
      refine ⟨_, rfl, ?_⟩
      cases xs with
      | nil =>
          rw [List.intercalate_singleton]
          have hslice := sliceText_append left (c :: tail) []
          rw [List.append_nil] at hslice
          cases hlast : lastToken limit with
          | true =>
              have hstart : blankDelimFrom limit left.length state false (c :: tail) =
                  ⟨[⟨left.length, (left ++ c :: tail).length⟩], false, false⟩ := by
                have hsettle : state.settle limit left.length c = .start := by
                  rcases hstate with rfl | rfl
                  · rw [BlankState.settle, if_pos hlast]
                  · rw [BlankState.settle, if_neg hspace, if_pos hlast]
                unfold blankDelimFrom
                rw [if_neg hc, hsettle]
                simp only [List.length_append, List.length_cons, Nat.add_assoc]
              rw [hstart]
              exact ⟨rfl, by rw [List.map_singleton, hslice]⟩
          | false =>
              obtain ⟨hspans, hquote⟩ := hthrough limit left.length left.length []
              rw [List.append_nil] at hspans hquote
              rw [hbegin hlast, hspans, hquote, ← List.length_append]
              refine ⟨rfl, ?_⟩
              show [sliceText (left ++ c :: tail) ⟨left.length, (left ++ c :: tail).length⟩] = _
              rw [hslice]
      | cons y ys =>
          have hjoin : [' '].intercalate ((c :: tail) :: y :: ys) =
              (c :: tail) ++ ' ' :: [' '].intercalate (y :: ys) := by
            rw [List.intercalate_cons_cons, List.append_assoc]
            rfl
          obtain ⟨cut, hscan, hopen, hslices⟩ := ih (List.cons_ne_nil y ys) hrest hlimit.fewer
            (left ++ (c :: tail) ++ [' ']) (.inr rfl)
          have hlength : (left ++ (c :: tail) ++ [' ']).length =
              left.length + (c :: tail).length + 1 := by
            simp only [List.length_append, List.length_cons, List.length_nil]
          rw [hlength] at hscan
          obtain ⟨hspans, hquote⟩ := hthrough limit left.length left.length
            (' ' :: [' '].intercalate (y :: ys))
          have hline : left ++ [' '].intercalate ((c :: tail) :: y :: ys) =
              left ++ (c :: tail) ++ (' ' :: [' '].intercalate (y :: ys)) := by
            rw [hjoin, List.append_assoc]
          have hline' : left ++ (c :: tail) ++ [' '] ++ [' '].intercalate (y :: ys) =
              left ++ (c :: tail) ++ (' ' :: [' '].intercalate (y :: ys)) := by
            simp
          rw [hline'] at hslices
          rw [hline, hjoin, List.cons_append, hbegin hlimit.notLast, ← List.cons_append, hspans,
            hquote, blankDelimFrom_cut, hscan]
          refine ⟨hopen, ?_⟩
          rw [List.map_cons, hslices, ← List.length_append, sliceText_append]

/-- The spans of a joined line, on a char or on blanks. -/
theorem pureCut_joined {delim : Char} (hdelim : delim = ' ' ∨ Cutting delim) {limit : Option Nat}
    {xs : List Text} (hne : xs ≠ []) (hxs : ∀ x ∈ xs, Joint delim x)
    (hlimit : Allows limit xs.length) :
    (pureCut ([delim].intercalate xs) delim limit).openQuote = false ∧
      (pureCut ([delim].intercalate xs) delim limit).spans.map
        (sliceText ([delim].intercalate xs)) = xs := by
  rw [pureCut]
  by_cases hspace : delim = ' '
  · subst hspace
    rw [if_pos rfl]
    obtain ⟨cut, hcut, hopen, hslices⟩ := blankDelim_joined hne hxs hlimit [] (.inl rfl)
    rw [blankDelim]
    rw [List.length_nil] at hcut
    rw [hcut]
    exact ⟨hopen, hslices⟩
  · rw [if_neg hspace]
    obtain ⟨spans, hcut, hslices⟩ :=
      charDelim_joined (hdelim.resolve_left hspace) hne hxs hlimit []
    rw [charDelim]
    rw [List.length_nil] at hcut
    rw [hcut]
    exact ⟨rfl, hslices⟩

/-! ### A whole line -/

theorem untrace_whole {text : List Traced} (h : Whole text) : untrace text = chars text := by
  rw [untrace, List.filter_eq_self.mpr fun cell hcell => by simp [h cell hcell]]

/-- The cleaned spans of a joined line. -/
theorem cleaned_joined {lo : Nat} {text : List Traced} (hordered : Ordered lo text) {delim : Char}
    {xs : List Text} (hxs : ∀ x ∈ xs, Joint delim x) {spans : List Span}
    (hspans : spans.map (sliceText (chars text)) = xs) :
    spans.map (fun span => untrace (cleanup (slice text span) (cleanupDelim delim))) =
      xs.map (written (cleanupDelim delim) false) := by
  rw [← hspans, List.map_map]
  refine List.map_congr_left fun span hspan => ?_
  have hx : Joint delim (sliceText (chars text) span) :=
    hxs _ (hspans ▸ List.mem_map_of_mem hspan)
  have hchars := chars_slice text span
  rw [untrace_whole ((hordered.slice span).cleanup _).whole,
    chars_cleanup (cleanupDelim delim) (by rw [hchars]; exact hx.trimmed), hchars]
  rfl

theorem joint_free {delim : Char} (hdelim : delim ≠ '\x00') {xs : List Text}
    (hxs : ∀ x ∈ xs, Joint delim x) : '\x00' ∉ [delim].intercalate xs := by
  induction xs with
  | nil => simp [List.intercalate]
  | cons x xs ih =>
      obtain ⟨hx, hrest⟩ := List.forall_mem_cons.mp hxs
      cases xs with
      | nil =>
          rw [List.intercalate_singleton]
          exact hx.free
      | cons y ys =>
          rw [List.intercalate_cons_cons, List.mem_append, List.mem_append, not_or, not_or]
          refine ⟨⟨hx.free, ?_⟩, ih hrest⟩
          simpa using Ne.symm hdelim

theorem headless_expand {text : List Traced} (hhead : Headless (chars text)) :
    Headless (chars (expand text)) := by
  rintro ⟨hfirst, hsecond⟩
  cases text with
  | nil => simp at hfirst
  | cons cell rest =>
      rw [expand_cons, chars_append, chars_bytesOf, List.cons_append, List.getElem?_cons_zero,
        Option.some.injEq] at hfirst
      have hbytes : bytesOf cell = [cell] := bytesOf_ascii (by rw [hfirst]; decide)
      rw [expand_cons, hbytes, List.singleton_append, chars_cons,
        List.getElem?_cons_succ] at hsecond
      cases rest with
      | nil => simp at hsecond
      | cons next rest =>
          rw [expand_cons, chars_append, chars_bytesOf, List.cons_append, List.getElem?_cons_zero,
            Option.some.injEq] at hsecond
          exact hhead (by simp [hfirst, hsecond])

/-- The head of a text is read off its bytes as off its chars. -/
theorem argumentHead_expand (text : List Traced) :
    argumentHead (chars (expand text)) = argumentHead (chars text) := by
  by_cases hhead : Headless (chars text)
  · rw [argumentHead_headless hhead, argumentHead_headless (headless_expand hhead)]
  · match text with
    | [] => rfl
    | [_] => exact absurd (by simp [Headless]) hhead
    | first :: second :: rest =>
        obtain ⟨hfirst, hsecond⟩ : first.char = '^' ∧ second.char = '^' := by
          simpa [Headless] using hhead
        have hbytes : chars (expand (first :: second :: rest)) = '^' :: '^' :: chars
            (expand rest) := by
          rw [expand_cons, expand_cons, bytesOf_ascii (by rw [hfirst]; decide),
            bytesOf_ascii (by rw [hsecond]; decide)]
          simp [hfirst, hsecond]
        rw [hbytes, chars_cons, chars_cons, hfirst, hsecond]
        cases rest with
        | nil => rfl
        | cons third rest =>
            -- A third char of one byte is followed by the fourth; one of more is unreadable anyway.
            by_cases hascii : third.char.toNat < 128
            · rw [expand_cons, bytesOf_ascii hascii, chars_append, chars_cons, chars_nil,
                chars_cons]
              cases rest with
              | nil => rfl
              | cons fourth rest =>
                  rw [expand_cons, chars_append, chars_bytesOf, chars_cons]
                  rfl
            · have hne : third.char ≠ '\x00' := by
                intro h
                rw [h] at hascii
                exact hascii (by decide)
              have hle : 128 ≤ third.char.toNat := Nat.le_of_not_lt hascii
              rw [expand_cons, chars_append, chars_bytesOf, chars_cons]
              simp [argumentHead, hne, hle]

/-- A text whose head names no separator is split on the one given. -/
theorem separate_of_not_picked {lo : Nat} {text : List Traced} (hordered : Ordered lo text)
    (hfree : NulFree text) (hhead : ∀ c, argumentHead (chars text) ≠ .picked c) (delim : Char)
    (limit : Option Nat) : separate text delim limit = separateOn text delim limit := by
  obtain ⟨nul, hnul, hcells⟩ := hordered.whole.withOrigins
  have hstr : (CBuffer.withOrigins text).1.cStr 0 = expand text := by
    rw [hcells]
    exact cStr_start (nulFree_expand hfree) hnul [nul]
  rw [separate, separateOn, readBack, readBack]
  simp only [CBuffer.separate, hstr, argumentHead_expand]
  cases hcase : argumentHead (chars text) with
  | picked c => exact absurd hcase (hhead c)
  | unreadable => rfl
  | absent => rfl

/-- A line that opens with no head is split on the delimiter given. -/
theorem separate_eq_separateOn {lo : Nat} {text : List Traced} (hordered : Ordered lo text)
    (hfree : NulFree text) (hhead : Headless (chars text)) (delim : Char) (limit : Option Nat) :
    separate text delim limit = separateOn text delim limit :=
  separate_of_not_picked hordered hfree (fun c => by simp [argumentHead_headless hhead]) delim limit

/-- **A joined line without a head is split back into its tokens.** -/
theorem separate_joined {delim : Char} (hdelim : delim = ' ' ∨ Cutting delim)
    (hascii : delim.toNat < 128) {limit : Option Nat} {xs : List Text} (hne : xs ≠ [])
    (hxs : ∀ x ∈ xs, Joint delim x) (hlimit : Allows limit xs.length)
    (hhead : Headless ([delim].intercalate xs)) :
    (separate (trace ([delim].intercalate xs)) delim limit).tokens.map
    (fun token => untrace token.text) =
        xs.map (written (cleanupDelim delim) false) ∧
      (separate (trace ([delim].intercalate xs)) delim limit).openQuote = false ∧
      (separate (trace ([delim].intercalate xs)) delim limit).delimiter = delim := by
  have hnul : delim ≠ '\x00' := by
    rcases hdelim with rfl | hdelim
    · decide
    · exact hdelim.ne_nul
  have hchars : chars (trace ([delim].intercalate xs)) = [delim].intercalate xs :=
    chars_traceFrom 0 _
  have hordered : Ordered 0 (trace ([delim].intercalate xs)) := ordered_traceFrom 0 _
  have hfree : NulFree (trace ([delim].intercalate xs)) := by
    rw [nulFree_iff, hchars]
    exact joint_free hnul hxs
  have hsome : limit ≠ some 0 := by
    rintro rfl
    have := hlimit 0 rfl
    exact hne (List.length_eq_zero_iff.mp (Nat.le_zero.mp this))
  rw [separate_eq_separateOn hordered hfree (by rwa [hchars])]
  obtain ⟨hopen, hspans⟩ := pureCut_joined hdelim hne hxs hlimit
  rw [separateOn_pure hordered hfree hascii hnul hsome, hchars, List.map_map]
  refine ⟨?_, hopen, rfl⟩
  exact cleaned_joined hordered hxs (by rw [hchars]; exact hspans)

/-- A head names the delimiter of what follows it. -/
theorem argumentHead_picked {sep c : Char} {rest : Text} (hsep : sep.toNat < 128)
    (hnul : sep ≠ '\x00')
    (hc : c ≠ '\x00') : argumentHead ('^' :: '^' :: sep :: c :: rest) = .picked sep := by
  have hascii : ¬128 ≤ sep.toNat := by omega
  simp [argumentHead, hnul, hc, hascii]

/-- **A line behind a head is split on the char the head names**: the spans the pure scan cuts out
of what follows the head, each cleaned. -/
theorem separate_picked {sep : Char} (hascii : sep.toNat < 128) (hnul : sep ≠ '\x00')
    {limit : Option Nat} (hlimit : limit ≠ some 0) {rest : List Traced}
    {first second third : Traced}
    (hordered : Ordered 0 (first :: second :: third :: rest)) (hfirst : first.char = '^')
    (hsecond : second.char = '^') (hthird : third.char = sep) (hrest : rest ≠ [])
    (hfree : NulFree rest) (delim : Char) :
    (separate (first :: second :: third :: rest) delim limit).tokens.map
        (fun token => untrace token.text) =
        (pureCut (chars rest) sep limit).spans.map
          (fun span => untrace (cleanup (slice rest span) (cleanupDelim sep))) ∧
      (separate (first :: second :: third :: rest) delim limit).openQuote =
        (pureCut (chars rest) sep limit).openQuote ∧
      (separate (first :: second :: third :: rest) delim limit).delimiter = sep := by
  obtain ⟨nul, hstop, hcells⟩ := hordered.whole.withOrigins
  have hexpand : expand (first :: second :: third :: rest) = [first, second, third] ++
      expand rest := by
    have hcaret : ('^' : Char).toNat < 128 := by decide
    rw [expand_cons, expand_cons, expand_cons, bytesOf_ascii (by rwa [hfirst]),
      bytesOf_ascii (by rwa [hsecond]), bytesOf_ascii (by rwa [hthird])]
    rfl
  rw [hexpand, List.append_assoc] at hcells
  obtain ⟨body, tokens, spans, hsplit, hscan, hraw, hstrings⟩ :=
    split_expand hascii hnul hlimit hfree [first, second, third] hstop
  have hpicked : argumentHead (chars ((CBuffer.withOrigins
      (first :: second :: third :: rest)).1.cStr 0)) = .picked sep := by
    have hstr : (CBuffer.withOrigins (first :: second :: third :: rest)).1.cStr 0 =
        [first, second, third] ++ expand rest := by
      rw [hcells, ← List.append_assoc]
      refine cStr_start ?_ hstop [nul]
      refine List.forall_mem_cons.mpr ⟨by rw [hfirst]; decide, List.forall_mem_cons.mpr
        ⟨by rw [hsecond]; decide, List.forall_mem_cons.mpr ⟨?_, nulFree_expand hfree⟩⟩⟩
      rwa [hthird]
    obtain ⟨cell, rest, rfl⟩ := List.exists_cons_of_ne_nil hrest
    rw [hstr, expand_cons, bytesOf]
    simp only [List.cons_append, List.nil_append, chars_cons, hfirst, hsecond, hthird]
    exact argumentHead_picked hascii hnul (hfree cell List.mem_cons_self)
  have hlater : Ordered 0 rest := by
    cases hordered with
    | cons _ _ h =>
        cases h with
        | cons _ _ h =>
            cases h with
            | cons _ _ h => exact h.mono (Nat.zero_le _)
  rw [separate, readBack]
  simp only [CBuffer.separate, hpicked]
  rw [hcells, Nat.zero_add]
  rw [show ([first, second, third] : List Traced).length = 3 from rfl] at hsplit
  rw [hsplit]
  refine ⟨?_, rfl, rfl⟩
  rw [List.map_map, ← List.forall₂_eq_eq_eq, List.forall₂_map_left_iff, List.forall₂_map_right_iff]
  refine hstrings.imp ?_
  intro token span hstring
  have hwhole := ((hlater.slice span).cleanup (cleanupDelim sep)).whole
  simp only [Function.comp_apply]
  rw [hstring, hwhole.filter_expand]

/-- **A joined line behind a head is split back into its tokens.** -/
theorem separate_headed {sep : Char} (hsep : Cutting sep) (hascii : sep.toNat < 128)
    {limit : Option Nat} {xs : List Text} (hne : xs ≠ []) (hxs : ∀ x ∈ xs, Joint sep x)
    (hlimit : Allows limit xs.length) (delim : Char) :
    (separate (trace ('^' :: '^' :: sep :: [sep].intercalate xs)) delim limit).tokens.map
        (fun token => untrace token.text) = xs.map (written (cleanupDelim sep) false) ∧
      (separate (trace ('^' :: '^' :: sep :: [sep].intercalate xs)) delim limit).openQuote = false ∧
      (separate (trace ('^' :: '^' :: sep :: [sep].intercalate xs)) delim limit).delimiter =
      sep := by
  obtain ⟨first, second, third, rest, htrace, hfirst, hsecond, hthird, hrest, hchars⟩ :
      ∃ first second third rest,
        trace ('^' :: '^' :: sep :: [sep].intercalate xs) = first :: second :: third :: rest ∧
        first.char = '^' ∧ second.char = '^' ∧ third.char = sep ∧ Ordered 0 rest ∧
        chars rest = [sep].intercalate xs :=
    ⟨_, _, _, _, rfl, rfl, rfl, rfl, (ordered_traceFrom _ _).mono (Nat.zero_le _),
      chars_traceFrom _ _⟩
  have hordered : Ordered 0 (first :: second :: third :: rest) := htrace ▸ ordered_traceFrom 0 _
  have hfree : NulFree rest := by
    rw [nulFree_iff, hchars]
    exact joint_free hsep.ne_nul hxs
  have hsome : limit ≠ some 0 := by
    rintro rfl
    have := hlimit 0 rfl
    exact hne (List.length_eq_zero_iff.mp (Nat.le_zero.mp this))
  have hnonempty : rest ≠ [] := by
    rintro rfl
    obtain ⟨x, xs, rfl⟩ := List.exists_cons_of_ne_nil hne
    have hx := (hxs x List.mem_cons_self).ne
    cases xs with
    | nil =>
        rw [List.intercalate_singleton] at hchars
        exact hx hchars.symm
    | cons y ys =>
        rw [List.intercalate_cons_cons] at hchars
        simp [hx] at hchars
  obtain ⟨hopen, hspans⟩ := pureCut_joined (.inr hsep) hne hxs hlimit
  obtain ⟨htokens, hquote, hdelim⟩ :=
    separate_picked hascii hsep.ne_nul hsome hordered hfirst hsecond
    hthird hnonempty hfree delim
  rw [htrace]
  refine ⟨?_, ?_, hdelim⟩
  · rw [htokens, hchars]
    exact cleaned_joined hrest hxs (by rw [hchars]; exact hspans)
  · rw [hquote, hchars]
    exact hopen

end SwitchPasses
end EslTokio
