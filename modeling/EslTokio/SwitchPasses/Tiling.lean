import EslTokio.SwitchPasses.Joined

/-!
# The tokens of a split tile its text

A split drops nothing but its delimiters. Every char of the text belongs to one raw token or to one
delimiter between two of them, and the byte ranges a token is traced back to lie in the input the
same way.

* `Tiles` — spans that cut a text into tokens with a delimiter behind each but the last.
* `charDelim_tiles`, `blankDelim_tiles` — the spans of both scans do.
* `byteRange_trace` — the bytes a span of a trace covers.
* `TokenTiling` — what tiling means for byte ranges, and **`tokens_tile`**: the tokens of a split
  have it.
-/

namespace EslTokio
namespace SwitchPasses

open Library

/-- What stands between two tokens: the delimiter itself, or a run of spaces where that is a space.
-/
def IsDelimiter (delim : Char) (gap : Text) : Prop :=
  if delim = ' ' then gap ≠ [] ∧ ∀ c ∈ gap, c = ' ' else gap = [delim]

/-- Spans, `size` being the measure of a text, that cut a text from an offset on into tokens with a
delimiter behind each but, maybe, the last. -/
inductive Tiles (delim : Char) (size : Text → Nat) : Nat → Text → List Span → Prop
  | nil (i : Nat) : Tiles delim size i [] []
  | last (i : Nat) (token : Text) : Tiles delim size i token [⟨i, i + size token⟩]
  | trailing (i : Nat) (token : Text) {gap : Text} (hgap : IsDelimiter delim gap) :
      Tiles delim size i (token ++ gap) [⟨i, i + size token⟩]
  | cut (i : Nat) (token : Text) {gap rest : Text} {spans : List Span}
    (hgap : IsDelimiter delim gap)
      (hne : spans ≠ []) (hrest : Tiles delim size (i + size (token ++ gap)) rest spans) :
      Tiles delim size i (token ++ gap ++ rest) (⟨i, i + size token⟩ :: spans)

theorem Tiles.eq_nil {delim : Char} {size : Text → Nat} {i : Nat} {text : Text}
    (h : Tiles delim size i text []) : text = [] := by
  cases h
  rfl

/-- A token and its delimiter ahead of a text that is tiled. -/
theorem Tiles.cons {delim : Char} {size : Text → Nat} {i : Nat} (token : Text) {gap rest : Text}
    {spans : List Span} (hgap : IsDelimiter delim gap)
    (hrest : Tiles delim size (i + size (token ++ gap)) rest spans) :
    Tiles delim size i (token ++ gap ++ rest) (⟨i, i + size token⟩ :: spans) := by
  by_cases hne : spans = []
  · subst hne
    obtain rfl := hrest.eq_nil
    rw [List.append_nil]
    exact .trailing i token hgap
  · exact .cut i token hgap hne hrest

/-! ### The scans -/

/-- The scan for a char, inside a token that began with `p`. -/
theorem charDelimFrom_tiles {delim : Char} (hspace : delim ≠ ' ') (rest : Text)
    (hfree : '\x00' ∉ rest) (begun : Nat) (p : Text) (inside : Bool) :
    Tiles delim List.length begun (p ++ rest)
      (charDelimFrom delim none (begun + p.length) (some begun) inside rest).spans := by
  -- A backslash takes the scan two chars on, so the induction is on the length.
  induction hlength : rest.length using Nat.strong_induction_on generalizing rest
    begun p inside with
  | _ n ih =>
  have hshort : ∀ tail : Text, tail.length < n → '\x00' ∉ tail → ∀ begun (p : Text) inside,
      Tiles delim List.length begun (p ++ tail)
        (charDelimFrom delim none (begun + p.length) (some begun) inside tail).spans :=
    fun tail htail hfree begun p inside => ih tail.length htail tail hfree begun p inside rfl
  cases rest with
  | nil =>
      rw [List.append_nil]
      exact .last begun p
  | cons c rest =>
      rw [List.length_cons] at hlength
      have hnul : c ≠ '\x00' := fun h => hfree (h ▸ List.mem_cons_self)
      have hrest : '\x00' ∉ rest := fun h => hfree (List.mem_cons_of_mem c h)
      by_cases hbackslash : c = '\\'
      · subst hbackslash
        cases rest with
        | nil =>
            have hlast : (charDelimFrom delim none (begun + p.length) (some begun) inside
                ['\\']).spans =
                [⟨begun, begun + (p ++ ['\\']).length⟩] := by
              simp [charDelimFrom, Nat.add_assoc]
            rw [hlast]
            exact .last begun _
        | cons d rest =>
            rw [List.length_cons] at hlength
            have htail := hshort rest (by omega) (fun h => hrest (List.mem_cons_of_mem d h)) begun
              (p ++ ['\\', d]) inside
            rw [charDelimFrom_backslash]
            simpa [Nat.add_assoc] using htail
      · by_cases hquote : c = '\'' ∧ (inside || hasQuote rest) = true
        · obtain ⟨rfl, htoggle⟩ := hquote
          have htail := hshort rest (by omega) hrest begun (p ++ ['\'']) (!inside)
          rw [charDelimFrom_quote _ _ _ _ htoggle]
          simpa [Nat.add_assoc] using htail
        · by_cases hcut : c = delim ∧ inside = false
          · obtain ⟨rfl, rfl⟩ := hcut
            rw [charDelimFrom_delim _ _ _ hnul hbackslash hquote rfl]
            have hgap : IsDelimiter c [c] := by rw [IsDelimiter, if_neg hspace]
            have hlater : Tiles c List.length (begun + (p ++ [c]).length) rest
                (charDelimFrom c none (begun + p.length + 1) none false rest).spans := by
              rw [List.length_append, List.length_singleton, ← Nat.add_assoc]
              cases rest with
              | nil => exact .nil _
              | cons d rest =>
                  have hd : d ≠ '\x00' := fun h => hrest (h ▸ List.mem_cons_self)
                  rw [charDelimFrom_begin hd c rfl]
                  exact hshort (d :: rest) (by omega) hrest _ [] false
            have htiles := Tiles.cons p hgap hlater
            rw [List.append_assoc] at htiles
            exact htiles
          · have htail := hshort rest (by omega) hrest begun (p ++ [c]) inside
            rw [charDelimFrom_pass _ _ _ _ hnul hbackslash hquote hcut]
            simpa [Nat.add_assoc] using htail

/-- **The scan for a char cuts a text at single delimiters.** -/
theorem charDelim_tiles {delim : Char} (hspace : delim ≠ ' ') {text : Text}
    (hfree : '\x00' ∉ text) :
    Tiles delim List.length 0 text (charDelim text delim none).spans := by
  cases text with
  | nil => exact .nil 0
  | cons c rest =>
      have hc : c ≠ '\x00' := fun h => hfree (h ▸ List.mem_cons_self)
      rw [charDelim, charDelimFrom_begin hc delim rfl]
      exact charDelimFrom_tiles hspace (c :: rest) hfree 0 [] false

/-- The scan on blanks behind a token `p` and spaces, given what it does inside one. -/
theorem blankDelimFrom_ending_tiles {n : Nat}
    (hfind : ∀ tail : Text, tail.length < n → '\x00' ∉ tail → ∀ begun,
      Tiles ' ' List.length begun tail
        (blankDelimFrom none begun (.findDelim begun) false tail).spans)
    (rest : Text) (hlength : rest.length < n) (hfree : '\x00' ∉ rest) (begun : Nat) (p gap : Text)
    (hgap : IsDelimiter ' ' gap) :
    Tiles ' ' List.length begun (p ++ gap ++ rest) (⟨begun, begun + p.length⟩ ::
      (blankDelimFrom none (begun + (p ++ gap).length) .skipEndingSpace false rest).spans) := by
  induction rest generalizing gap with
  | nil =>
      rw [List.append_nil]
      exact .trailing begun p hgap
  | cons c rest ih =>
      rw [List.length_cons] at hlength
      have hnul : c ≠ '\x00' := fun h => hfree (h ▸ List.mem_cons_self)
      have hrest : '\x00' ∉ rest := fun h => hfree (List.mem_cons_of_mem c h)
      by_cases hspace : c = ' '
      · subst hspace
        have hlonger : IsDelimiter ' ' (gap ++ [' ']) := by
          obtain ⟨-, hall⟩ : gap ≠ [] ∧ ∀ c ∈ gap, c = ' ' := hgap
          refine ⟨by simp, fun c hc => ?_⟩
          rcases List.mem_append.mp hc with h | h
          · exact hall c h
          · exact List.mem_singleton.mp h
        have hskip : (blankDelimFrom none (begun + (p ++ gap).length) .skipEndingSpace false
            (' ' :: rest)).spans =
              (blankDelimFrom none (begun + (p ++ (gap ++ [' '])).length) .skipEndingSpace false
                rest).spans := by
          conv_lhs => unfold blankDelimFrom
          simp [BlankState.settle, Nat.add_assoc]
        rw [hskip]
        simpa using ih (by omega) hrest (gap ++ [' ']) hlonger
      · have hsettle : BlankState.skipEndingSpace.settle none (begun + (p ++ gap).length) c =
            .findDelim (begun + (p ++ gap).length) := by
          simp [BlankState.settle, hspace, lastToken]
        rw [blankDelimFrom_settle _ _ _ _ hsettle, if_neg hnul]
        exact Tiles.cons p hgap (hfind (c :: rest) hlength hfree _)

/-- The scan on blanks, inside a token that began with `p`. -/
theorem blankDelimFrom_tiles (rest : Text) (hfree : '\x00' ∉ rest) (begun : Nat) (p : Text)
    (inside : Bool) :
    Tiles ' ' List.length begun (p ++ rest)
      (blankDelimFrom none (begun + p.length) (.findDelim begun) inside rest).spans := by
  induction hlength : rest.length using Nat.strong_induction_on generalizing rest
    begun p inside with
  | _ n ih =>
  have hshort : ∀ tail : Text, tail.length < n → '\x00' ∉ tail → ∀ begun (p : Text) inside,
      Tiles ' ' List.length begun (p ++ tail)
        (blankDelimFrom none (begun + p.length) (.findDelim begun) inside tail).spans :=
    fun tail htail hfree begun p inside => ih tail.length htail tail hfree begun p inside rfl
  cases rest with
  | nil =>
      rw [List.append_nil]
      exact .last begun p
  | cons c rest =>
      rw [List.length_cons] at hlength
      have hnul : c ≠ '\x00' := fun h => hfree (h ▸ List.mem_cons_self)
      have hrest : '\x00' ∉ rest := fun h => hfree (List.mem_cons_of_mem c h)
      by_cases hbackslash : c = '\\'
      · subst hbackslash
        cases rest with
        | nil =>
            have hlast : (blankDelimFrom none (begun + p.length) (.findDelim begun) inside
                ['\\']).spans =
                [⟨begun, begun + (p ++ ['\\']).length⟩] := by
              simp [blankDelimFrom, BlankState.settle, Nat.add_assoc]
            rw [hlast]
            exact .last begun _
        | cons d rest =>
            rw [List.length_cons] at hlength
            have htail := hshort rest (by omega) (fun h => hrest (List.mem_cons_of_mem d h)) begun
              (p ++ ['\\', d]) inside
            rw [blankDelimFrom_backslash]
            simpa [Nat.add_assoc] using htail
      · by_cases hquote : c = '\''
        · subst hquote
          have htail := hshort rest (by omega) hrest begun (p ++ ['\'']) (!inside)
          rw [blankDelimFrom_quote]
          simpa [Nat.add_assoc] using htail
        · by_cases hcut : c = ' ' ∧ inside = false
          · obtain ⟨rfl, rfl⟩ := hcut
            rw [blankDelimFrom_cut]
            have hending := blankDelimFrom_ending_tiles
              (fun tail htail hfree begun => hshort tail htail hfree begun [] false) rest
                (by omega) hrest
              begun p [' '] (by simp [IsDelimiter])
            rw [List.append_assoc, List.length_append, ← Nat.add_assoc] at hending
            exact hending
          · have htail := hshort rest (by omega) hrest begun (p ++ [c]) inside
            rw [blankDelimFrom_pass _ _ _ _ hnul hbackslash hquote hcut]
            simpa [Nat.add_assoc] using htail

/-- The scan on blanks, among the spaces its first token begins with. -/
theorem blankDelimFrom_initial_tiles (rest : Text) (hfree : '\x00' ∉ rest) (p : Text) :
    Tiles ' ' List.length 0 (p ++ rest)
      (blankDelimFrom none p.length (.skipInitialSpace 0) false rest).spans := by
  induction rest generalizing p with
  | nil =>
      have hlast : Tiles ' ' List.length 0 p [⟨0, 0 + p.length⟩] := .last 0 p
      rw [Nat.zero_add] at hlast
      rw [List.append_nil]
      exact hlast
  | cons c rest ih =>
      have hnul : c ≠ '\x00' := fun h => hfree (h ▸ List.mem_cons_self)
      by_cases hspace : c = ' '
      · subst hspace
        have hskip : blankDelimFrom none p.length (.skipInitialSpace 0) false (' ' :: rest) =
            blankDelimFrom none (p ++ [' ']).length (.skipInitialSpace 0) false rest := by
          conv_lhs => unfold blankDelimFrom
          simp [BlankState.settle]
        rw [hskip]
        simpa using ih (fun h => hfree (List.mem_cons_of_mem _ h)) (p ++ [' '])
      · have hsettle : (BlankState.skipInitialSpace 0).settle none p.length c = .findDelim 0 := by
          simp [BlankState.settle, hspace]
        have hfind := blankDelimFrom_tiles (c :: rest) hfree 0 p false
        rw [Nat.zero_add] at hfind
        rw [blankDelimFrom_settle _ _ _ _ hsettle, if_neg hnul]
        exact hfind

/-- **The scan on blanks cuts a text at runs of spaces.** -/
theorem blankDelim_tiles {text : Text} (hfree : '\x00' ∉ text) :
    Tiles ' ' List.length 0 text (blankDelim text none).spans := by
  cases text with
  | nil => exact .nil 0
  | cons c rest =>
      have hnul : c ≠ '\x00' := fun h => hfree (h ▸ List.mem_cons_self)
      have hstart : blankDelim (c :: rest) none =
          blankDelimFrom none 0 (.skipInitialSpace 0) false (c :: rest) := by
        by_cases hspace : c = ' '
        · subst hspace
          rw [blankDelim]
          unfold blankDelimFrom
          simp [BlankState.settle, lastToken]
        · have hsettle : BlankState.start.settle none 0 c = .findDelim 0 := by
            simp [BlankState.settle, hspace, lastToken]
          have hsettle' : (BlankState.skipInitialSpace 0).settle none 0 c = .findDelim 0 := by
            simp [BlankState.settle, hspace]
          rw [blankDelim, blankDelimFrom_settle _ _ _ _ hsettle,
            blankDelimFrom_settle _ _ _ _ hsettle', if_neg hnul, if_neg hnul]
      rw [hstart]
      exact blankDelimFrom_initial_tiles (c :: rest) hfree []

theorem pureCut_tiles (delim : Char) {text : Text} (hfree : '\x00' ∉ text) :
    Tiles delim List.length 0 text (pureCut text delim none).spans := by
  rw [pureCut]
  split_ifs with hspace
  · subst hspace
    exact blankDelim_tiles hfree
  · exact charDelim_tiles hspace hfree

/-! ### The bytes of the tokens -/

theorem getElem?_traceFrom (offset : Nat) (text : Text) (k : Nat) :
    (traceFrom offset text)[k]? = (text[k]?).map fun c =>
      ⟨c, offset + Text.byteLength (text.take k),
        offset + Text.byteLength (text.take (k + 1))⟩ := by
  induction text generalizing offset k with
  | nil => rfl
  | cons c text ih =>
      cases k with
      | zero => simp [traceFrom]
      | succ k =>
          rw [traceFrom, List.getElem?_cons_succ, ih, List.getElem?_cons_succ, List.take_succ_cons,
            List.take_succ_cons, Text.byteLength_cons, Text.byteLength_cons, Nat.add_assoc,
            Nat.add_assoc]

/-- The whole of a trace is the whole of its input. -/
theorem extent_trace (input : Text) : extent (trace input) = ⟨0, Text.byteLength input⟩ := by
  cases input with
  | nil => rfl
  | cons c rest =>
      have hlast : (trace (c :: rest)).getLast? = (trace (c :: rest))[rest.length]? := by
        have hlength : (trace (c :: rest)).length = rest.length + 1 := by
          rw [← length_chars, trace, chars_traceFrom, List.length_cons]
        rw [List.getLast?_eq_getElem?, hlength]
        rfl
      have hget : (c :: rest)[rest.length]? = some ((c :: rest)[rest.length]) :=
        List.getElem?_eq_getElem _
      have htake : (c :: rest).take (rest.length + 1) = c :: rest :=
        List.take_of_length_le (by simp)
      rw [extent, hlast, trace, getElem?_traceFrom, hget, htake]
      simp [traceFrom]

/-- **The bytes a span of a trace covers**: those of the chars it spans. -/
theorem byteRange_trace (input : Text) {start stop : Nat} (hstart : start ≤ input.length) :
    byteRange (trace input) (extent (trace input)) ⟨start, stop⟩ =
      ⟨Text.byteLength (input.take start), Text.byteLength (input.take stop)⟩ := by
  have hend : ((trace input)[stop]?).elim (extent (trace input)).stop (·.start) =
      Text.byteLength (input.take stop) := by
    rw [trace, getElem?_traceFrom, ← trace, extent_trace]
    cases hget : input[stop]? with
    | none => rw [List.take_of_length_le (List.getElem?_eq_none_iff.mp hget)]; rfl
    | some c => simp
  rw [byteRange]
  simp only [hend]
  rw [Span.mk.injEq]
  refine ⟨?_, rfl⟩
  cases start with
  | zero =>
      rw [extent_trace]
      rfl
  | succ before =>
      have hget : input[before]? = some input[before] := List.getElem?_eq_getElem (by omega)
      simp only [trace, getElem?_traceFrom, hget, Option.map_some, Option.elim_some, Nat.zero_add]

/-- The byte ranges of spans that tile a text tile its bytes. -/
theorem Tiles.byteRange {delim : Char} {text : Text} {spans : List Span} {i : Nat}
    (h : Tiles delim List.length i text spans) (before : Text) (hi : i = before.length) :
    Tiles delim Text.byteLength (Text.byteLength before) text
      (spans.map fun span =>
        byteRange (trace (before ++ text)) (extent (trace (before ++ text))) span) := by
  induction h generalizing before with
  | nil i => exact .nil _
  | last i token =>
      subst hi
      rw [List.map_singleton, byteRange_trace _ (by simp), List.take_left,
        ← List.length_append, List.take_length, Text.byteLength_append]
      exact .last _ token
  | @trailing i token gap hgap =>
      subst hi
      rw [List.map_singleton, byteRange_trace _ (by simp), List.take_left,
        ← List.length_append, ← List.append_assoc, List.take_left, Text.byteLength_append]
      exact .trailing _ token hgap
  | @cut i token gap rest spans hgap hne hrest ih =>
      subst hi
      have htext : before ++ (token ++ gap ++ rest) = before ++ (token ++ gap) ++ rest := by simp
      have hlater := ih (before ++ (token ++ gap)) (by simp)
      rw [List.map_cons, byteRange_trace _ (by simp), List.take_left,
        ← List.length_append]
      have hstop : (before ++ (token ++ gap ++ rest)).take (before ++ token).length =
          before ++ token := by
        rw [List.append_assoc token, ← List.append_assoc before, List.take_left]
      rw [hstop, htext, Text.byteLength_append before token]
      refine .cut _ token hgap (by simpa using hne) ?_
      rw [← Text.byteLength_append]
      exact hlater

/-! ### What tiling means -/

/-- The tokens of a split and what follows each: a delimiter, or the end of the text. -/
def pieces (size : Nat) : List Span → List Span
  | [] => []
  | [range] => [range, ⟨range.stop, size⟩]
  | range :: next :: ranges => range :: ⟨range.stop, next.start⟩ :: pieces size (next :: ranges)

/-- Byte ranges that tile an input. -/
structure TokenTiling (delim : Char) (input : Text) (ranges : List Span) : Prop where
  /-- Each lies on char boundaries. -/
  valid : ∀ range ∈ ranges, range.start ≤ range.stop ∧ Text.IsBoundary input range.start ∧
    Text.IsBoundary input range.stop
  /-- They are in increasing order and share no byte. -/
  ordered : ranges.Pairwise fun earlier later => earlier.stop < later.start
  first : ∀ range ∈ ranges.head?, range.start = 0
  /-- One delimiter stands between two that follow one another. -/
  between : ∀ earlier later, [earlier, later] <:+: ranges →
    ∃ gap, Text.get? input earlier.stop later.start = some gap ∧ IsDelimiter delim gap
  behind : ∃ gap, Text.get? input (ranges.getLast?.elim 0 (·.stop))
    (Text.byteLength input) = some gap ∧
    (gap = [] ∨ IsDelimiter delim gap)
  /-- Every byte is in exactly one token or delimiter. -/
  covered : ∀ byte, byte < Text.byteLength input → ∃! k : Nat, ∃ piece : Span,
    (pieces (Text.byteLength input) ranges)[k]? = some piece ∧ piece.start ≤ byte ∧
    byte < piece.stop

theorem IsDelimiter.byteLength_pos {delim : Char} {gap : Text} (h : IsDelimiter delim gap) :
    0 < Text.byteLength gap := by
  have hne : gap ≠ [] := by
    unfold IsDelimiter at h
    split_ifs at h
    · exact h.1
    · simp [h]
  obtain ⟨c, rest, rfl⟩ := List.exists_cons_of_ne_nil hne
  rw [Text.byteLength_cons]
  exact Nat.lt_of_lt_of_le c.utf8Size_pos (Nat.le_add_right _ _)

section

variable {delim : Char} {text : Text} {ranges : List Span} {offset : Nat}

theorem Tiles.bounds (h : Tiles delim Text.byteLength offset text ranges) :
    ∀ range ∈ ranges, offset ≤ range.start ∧ range.start ≤ range.stop ∧
      range.stop ≤ offset + Text.byteLength text := by
  induction h with
  | nil i => exact nofun
  | last i token => simp
  | trailing i token hgap => simp
  | @cut i token gap rest spans hgap hne hrest ih =>
      intro range hrange
      rw [Text.byteLength_append] at ih
      rw [Text.byteLength_append, Text.byteLength_append]
      rcases List.mem_cons.mp hrange with rfl | hmem
      · refine ⟨Nat.le_refl _, Nat.le_add_right _ _, ?_⟩
        show i + Text.byteLength token ≤ _
        omega
      · have hlater := ih range hmem
        omega

theorem Tiles.head (h : Tiles delim Text.byteLength offset text ranges) :
    ∀ range ∈ ranges.head?, range.start = offset := by
  cases h <;> simp

theorem Tiles.ordered (h : Tiles delim Text.byteLength offset text ranges) :
    ranges.Pairwise fun earlier later => earlier.stop < later.start := by
  induction h with
  | nil i => exact List.Pairwise.nil
  | last i token => exact List.pairwise_singleton _ _
  | trailing i token hgap => exact List.pairwise_singleton _ _
  | @cut i token gap rest spans hgap hne hrest ih =>
      refine List.pairwise_cons.mpr ⟨fun later hlater => ?_, ih⟩
      have hbounds := hrest.bounds later hlater
      have hpos := hgap.byteLength_pos
      rw [Text.byteLength_append] at hbounds
      show i + Text.byteLength token < later.start
      omega

theorem Tiles.valid (h : Tiles delim Text.byteLength offset text ranges) (before : Text)
    (hoffset : offset = Text.byteLength before) :
    ∀ range ∈ ranges, Text.IsBoundary (before ++ text) range.start ∧
      Text.IsBoundary (before ++ text) range.stop := by
  induction h generalizing before with
  | nil i => exact nofun
  | last i token =>
      subst hoffset
      intro range hrange
      obtain rfl := List.mem_singleton.mp hrange
      exact ⟨⟨before, token, rfl, rfl⟩, before ++ token, [], by simp, by simp⟩
  | @trailing i token gap hgap =>
      subst hoffset
      intro range hrange
      obtain rfl := List.mem_singleton.mp hrange
      exact ⟨⟨before, token ++ gap, rfl, rfl⟩, before ++ token, gap, by simp, by simp⟩
  | @cut i token gap rest spans hgap hne hrest ih =>
      subst hoffset
      intro range hrange
      rcases List.mem_cons.mp hrange with rfl | hmem
      · exact ⟨⟨before, token ++ gap ++ rest, rfl, rfl⟩, before ++ token,
          gap ++ rest, by simp, by simp⟩
      · have hlater := ih (before ++ (token ++ gap)) (by simp) range hmem
        rwa [List.append_assoc before] at hlater

theorem Tiles.between (h : Tiles delim Text.byteLength offset text ranges) (before : Text)
    (hoffset : offset = Text.byteLength before) {earlier later : Span}
    (hinside : [earlier, later] <:+: ranges) :
    ∃ gap, Text.get? (before ++ text) earlier.stop later.start = some gap ∧
      IsDelimiter delim gap := by
  induction h generalizing before with
  | nil i => exact absurd hinside.length_le (by simp)
  | last i token => exact absurd hinside.length_le (by simp)
  | trailing i token hgap => exact absurd hinside.length_le (by simp)
  | @cut i token gap rest spans hgap hne hrest ih =>
      subst hoffset
      have htext : before ++ (token ++ gap ++ rest) = before ++ token ++ gap ++ rest := by simp
      rcases List.infix_cons_iff.mp hinside with hhere | hthere
      · obtain ⟨rfl, hnext⟩ := List.cons_prefix_cons.mp hhere
        obtain ⟨more, rfl⟩ := hnext
        have hstart := hrest.head later (by simp)
        refine ⟨gap, ?_, hgap⟩
        rw [hstart, htext]
        have hget := Text.get?_append (before ++ token) gap rest
        simpa [Nat.add_assoc] using hget
      · have hlater := ih (before ++ (token ++ gap)) (by simp) hthere
        rwa [List.append_assoc before] at hlater

theorem Tiles.behind (h : Tiles delim Text.byteLength offset text ranges) (before : Text)
    (hoffset : offset = Text.byteLength before) :
    ∃ gap, Text.get? (before ++ text) (ranges.getLast?.elim offset (·.stop))
        (Text.byteLength (before ++ text)) = some gap ∧ (gap = [] ∨ IsDelimiter delim gap) := by
  induction h generalizing before with
  | nil i =>
      subst hoffset
      refine ⟨[], ?_, .inl rfl⟩
      have hget := Text.get?_append before [] []
      simpa using hget
  | last i token =>
      subst hoffset
      refine ⟨[], ?_, .inl rfl⟩
      have hget := Text.get?_append (before ++ token) [] []
      simpa using hget
  | @trailing i token gap hgap =>
      subst hoffset
      refine ⟨gap, ?_, .inr hgap⟩
      have hget := Text.get?_append (before ++ token) gap []
      simpa using hget
  | @cut i token gap rest spans hgap hne hrest ih =>
      subst hoffset
      have hlater := ih (before ++ (token ++ gap)) (by simp)
      obtain ⟨last, hlast⟩ := Option.ne_none_iff_exists'.mp (mt List.getLast?_eq_none_iff.mp hne)
      rw [hlast, List.append_assoc before] at hlater
      rw [List.getLast?_cons, hlast]
      exact hlater

/-- Spans that follow one another without a gap. -/
def Adjoining (lo hi : Nat) : List Span → Prop
  | [] => lo = hi
  | span :: spans => span.start = lo ∧ span.start ≤ span.stop ∧ Adjoining span.stop hi spans

/-- Exactly one of them holds an offset between their ends. -/
theorem Adjoining.covers {lo hi : Nat} {spans : List Span} (h : Adjoining lo hi spans) {byte : Nat}
    (hlo : lo ≤ byte) (hhi : byte < hi) :
    ∃! k : Nat, ∃ span : Span, spans[k]? = some span ∧ span.start ≤ byte ∧ byte < span.stop := by
  induction spans generalizing lo with
  | nil => exact absurd h (by show lo ≠ hi; omega)
  | cons span spans ih =>
      obtain ⟨hstart, hle, hrest⟩ := h
      -- No later span holds a byte the first one does.
      have hlater : ∀ lo, Adjoining lo hi spans → ∀ (k : Nat) other, spans[k]? = some other →
          lo ≤ other.start := by
        clear ih hrest
        induction spans with
        | nil => exact fun _ _ k other hk => absurd hk (by simp)
        | cons next spans ih =>
            intro lo hadjoining k other hk
            obtain ⟨hnext, hnextLe, hmore⟩ := hadjoining
            cases k with
            | zero =>
                obtain rfl : next = other := by simpa using hk
                exact Nat.le_of_eq hnext.symm
            | succ k => exact (hnext ▸ hnextLe).trans (ih next.stop hmore k other hk)
      by_cases hhere : byte < span.stop
      · refine ⟨0, ⟨span, rfl, by omega, hhere⟩, ?_⟩
        rintro k ⟨other, hk, hother, -⟩
        cases k with
        | zero => rfl
        | succ k => exact absurd (hlater span.stop hrest k other hk) (by omega)
      · obtain ⟨k, ⟨other, hk, hother⟩, hunique⟩ := ih hrest (by omega)
        refine ⟨k + 1, ⟨other, hk, hother⟩, ?_⟩
        rintro j ⟨found, hj, hfound⟩
        cases j with
        | zero =>
            obtain rfl : span = found := by simpa using hj
            exact absurd hfound.2 hhere
        | succ j => exact congrArg (· + 1) (hunique j ⟨found, hj, hfound⟩)

theorem Tiles.adjoining (h : Tiles delim Text.byteLength offset text ranges) (hne : ranges ≠ []) :
    Adjoining offset (offset + Text.byteLength text)
      (pieces (offset + Text.byteLength text) ranges) := by
  induction h with
  | nil i => exact absurd rfl hne
  | last i token => exact ⟨rfl, Nat.le_add_right _ _, rfl, Nat.le_refl _, rfl⟩
  | @trailing i token gap hgap =>
      refine ⟨rfl, Nat.le_add_right _ _, rfl, ?_, rfl⟩
      rw [Text.byteLength_append]
      show i + Text.byteLength token ≤ i + (Text.byteLength token + Text.byteLength gap)
      omega
  | @cut i token gap rest spans hgap hspans hrest ih =>
      obtain ⟨next, more, rfl⟩ := List.exists_cons_of_ne_nil hspans
      have hstart := hrest.head next (by simp)
      have hlater := ih hspans
      rw [Nat.add_assoc i, ← Text.byteLength_append] at hlater
      refine ⟨rfl, Nat.le_add_right _ _, rfl, ?_, ?_⟩
      · show i + Text.byteLength token ≤ next.start
        rw [hstart, Text.byteLength_append]
        omega
      · show Adjoining next.start _ _
        rw [hstart]
        exact hlater

theorem Tiles.tokenTiling (h : Tiles delim Text.byteLength 0 text ranges) :
    TokenTiling delim text ranges where
  valid range hrange := ⟨(h.bounds range hrange).2.1, h.valid [] rfl range hrange⟩
  ordered := h.ordered
  first := h.head
  between _ _ hinside := h.between [] rfl hinside
  behind := h.behind [] rfl
  covered byte hbyte := by
    have hne : ranges ≠ [] := by
      rintro rfl
      rw [h.eq_nil] at hbyte
      exact absurd hbyte (by simp)
    have hadjoining := h.adjoining hne
    rw [Nat.zero_add] at hadjoining
    exact hadjoining.covers (Nat.zero_le byte) hbyte

end

/-! ### The tokens of `separate` -/

/-- The byte ranges of the tokens of a split. -/
def tokenRanges (input : Text) (delim : Char) : List Span :=
  (separate (trace input) delim none).tokens.map fun token =>
    byteRange (trace input) (extent (trace input)) token.raw

/-- **The tokens of a split tile its input.** Whatever quotes, escapes and multi-byte chars it
holds, and whether or not a backslash at its end steps past the terminator, every byte belongs to
one token or to one delimiter between two. -/
theorem tokens_tile (input : Text) (delim : Char) (hfree : '\x00' ∉ input)
    (hhead : ∀ c, argumentHead input ≠ .picked c) (hascii : delim.toNat < 128)
    (hnul : delim ≠ '\x00') : TokenTiling delim input (tokenRanges input delim) := by
  have hchars : chars (trace input) = input := chars_traceFrom 0 input
  have hordered : Ordered 0 (trace input) := ordered_traceFrom 0 input
  have hcells : NulFree (trace input) := by rwa [nulFree_iff, hchars]
  have htiles := (pureCut_tiles delim hfree).byteRange [] rfl
  have hranges : tokenRanges input delim = (pureCut input delim none).spans.map fun span =>
      byteRange (trace input) (extent (trace input)) span := by
    rw [tokenRanges, separate_of_not_picked hordered hcells (by rwa [hchars]),
      separateOn_pure hordered hcells hascii hnul (by simp), hchars, List.map_map]
    rfl
  rw [hranges]
  exact htiles.tokenTiling

/-- A quoted delimiter, an escaped one, a multi-byte char and a trailing one. -/
theorem tokens_tile_mixed :
    TokenTiling ',' "é,'a,b',\\,c,".toList [⟨0, 2⟩, ⟨3, 8⟩, ⟨9, 12⟩] := by
  have hhead : argumentHead "é,'a,b',\\,c,".toList = .absent := by decide +kernel
  have htile := tokens_tile "é,'a,b',\\,c,".toList ',' (by decide +kernel) (by rw [hhead]; nofun)
    (by decide) (by decide)
  have hranges : tokenRanges "é,'a,b',\\,c,".toList ',' = [⟨0, 2⟩, ⟨3, 8⟩, ⟨9, 12⟩] := by
    decide +kernel
  rwa [hranges] at htile

end SwitchPasses
end EslTokio
