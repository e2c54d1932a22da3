import EslTokio.DialString.Error
import EslTokio.SwitchPasses.Joined

/-!
# Argument lines

`split_line` of `freeswitch-types/src/switch_passes/api_argument.rs`, the split `originate` runs
over its arguments, and the lines that are split back into the texts they were written from.

* `splitLine` — the arguments of a line, with the bytes each came from.
* `EscapeUnit` — what the escapes are made of; `exists_units` — every escaped text is made of them.
* `joint_escapeArgument`, `joint_originateQuote` — an escaped or quoted text is one token of its
  split.
* **`argumentLine_splits_back`** — a line of escaped or quoted arguments is split back into them.
-/

namespace EslTokio
namespace SwitchPasses

open Library

/-- One argument of a line: the bytes of the line it came from, and what the cleanup leaves of it.
-/
structure Argument where
  raw : Span
  text : Text
deriving DecidableEq, Repr

/-- What `splitLine` cut. -/
structure ArgumentLine where
  arguments : List Argument
  delimiter : Char
deriving DecidableEq, Repr

/-- The part of a line that a byte range covers. -/
def byteSlice (line : Text) (range : Span) : Text :=
  chars ((trace line).filter fun cell => range.start ≤ cell.start && cell.stop ≤ range.stop)

/-- `originate`'s split of a line on `splitAt` or the delimiter a `^^` head picks. A blank split's
raw argument starts past its leading spaces, and a quote it leaves open is refused. -/
def splitLine (line : Text) (splitAt : Char) : Except OriginateError ArgumentLine :=
  let text := trace line
  let separated := separate text splitAt none
  let arguments := separated.tokens.map fun token =>
    let raw := byteRange text (extent text) token.raw
    let leading := if separated.delimiter = ' ' then leadingSpaces (byteSlice line raw) else 0
    (⟨⟨raw.start + leading, raw.stop⟩, untrace token.text⟩ : Argument)
  if separated.delimiter = ' ' ∧ separated.openQuote = true then
    .error (.unclosedQuote (arguments.getLast?.elim [] fun argument => byteSlice line argument.raw))
  else .ok ⟨arguments, separated.delimiter⟩

/-- `switch_strip_whitespace`: a line without the white space at its edges. -/
def stripWhitespace (line : Text) : Text :=
  ((line.dropWhile fun c => strippedWhitespace.contains c).reverse.dropWhile fun c =>
    strippedWhitespace.contains c).reverse

/-- The line of the arguments given, on blanks or behind a head that names `sep`. -/
def argumentLine (sep : Char) (texts : List Text) : Text :=
  (if sep = ' ' then [] else ['^', '^', sep]) ++
    [sep].intercalate (texts.map fun text => escapeArgument text sep)

/-- A plain first token and quoted texts behind it, joined by blanks. -/
def quotedLine (first : Text) (texts : List Text) : Text :=
  [' '].intercalate (first :: texts.map originateQuote)

/-! ### What the escapes are made of -/

/-- A char as it is, a backslash and a char with what they stand for, or an empty pair of quotes. -/
inductive EscapeUnit where
  | lit (c : Char)
  | pair (x c : Char)
  | quotes

namespace EscapeUnit

/-- A unit as it is written. -/
def text : EscapeUnit → Text
  | .lit c => [c]
  | .pair x _ => ['\\', x]
  | .quotes => ['\'', '\'']

/-- What a unit stands for. -/
def value : EscapeUnit → Text
  | .lit c => [c]
  | .pair _ c => [c]
  | .quotes => []

/-- The cleanup reads the unit for what it stands for. -/
def Reads (delim : Option Char) : EscapeUnit → Prop
  | .lit c => c ≠ '\\' ∧ c ≠ '\''
  | .pair x c => unescape x delim = some c
  | .quotes => True

/-- The unit has no terminator. -/
def Free : EscapeUnit → Prop
  | .lit c => c ≠ '\x00'
  | .pair x _ => x ≠ '\x00'
  | .quotes => True

end EscapeUnit

/-- What units spell. -/
def unitsText (units : List EscapeUnit) : Text := units.flatMap EscapeUnit.text

/-- What units stand for. -/
def unitsValue (units : List EscapeUnit) : Text := units.flatMap EscapeUnit.value

theorem written_quotes (delim : Option Char) (rest : Text) :
    written delim false ('\'' :: '\'' :: rest) = written delim false rest := by
  rw [written_quote (by rw [hasQuote_cons]; rfl), written_quote rfl]
  rfl

/-- **The cleanup of units is what they stand for.** Inside quotes there is no pair of quotes among
them. -/
theorem written_units {delim : Option Char} {inside : Bool} {units : List EscapeUnit}
    (hreads : ∀ unit ∈ units, unit.Reads delim) (hquotes : inside = false ∨ .quotes ∉ units)
    (rest : Text) :
    written delim inside (unitsText units ++ rest) =
      unitsValue units ++ written delim inside rest := by
  induction units with
  | nil => rfl
  | cons unit units ih =>
      obtain ⟨hunit, hlater⟩ := List.forall_mem_cons.mp hreads
      have hrest := ih hlater (hquotes.imp_right fun h hmem => h (List.mem_cons_of_mem _ hmem))
      cases unit with
      | lit c =>
          show written delim inside (c :: (unitsText units ++ rest)) = c :: _
          rw [written_plain hunit.1 (fun h => hunit.2 h.1), hrest]
          rfl
      | pair x c =>
          show written delim inside ('\\' :: x :: (unitsText units ++ rest)) = c :: _
          rw [written_escape hunit, hrest]
          rfl
      | quotes =>
          obtain rfl := hquotes.resolve_right fun h => h List.mem_cons_self
          show written delim false ('\'' :: '\'' :: (unitsText units ++ rest)) = _
          rw [written_quotes, hrest]
          rfl

theorem through_units {delim : Char} {units : List EscapeUnit}
    (hreads : ∀ unit ∈ units, unit.Reads (some delim)) (hfree : ∀ unit ∈ units, unit.Free)
    (hplain : .lit delim ∉ units) : Through delim false (unitsText units) := by
  intro limit i begun rest
  induction units generalizing i with
  | nil => rfl
  | cons unit units ih =>
      obtain ⟨hunit, hlater⟩ := List.forall_mem_cons.mp hreads
      obtain ⟨hnul, hfrees⟩ := List.forall_mem_cons.mp hfree
      have hrest := ih hlater hfrees fun h => hplain (List.mem_cons_of_mem _ h)
      have hlength : (unitsText (unit :: units)).length =
          unit.text.length + (unitsText units).length := List.length_append
      rw [hlength, ← Nat.add_assoc, ← hrest]
      cases unit with
      | lit c =>
          have hc : c ≠ delim := by
            rintro rfl
            exact hplain List.mem_cons_self
          show charDelimFrom delim limit i (some begun) false (c :: (unitsText units ++ rest)) = _
          rw [charDelimFrom_pass _ _ _ _ hnul hunit.1 (fun h => hunit.2 h.1) (fun h => hc h.1)]
          simp only [decide_eq_false hc, Bool.false_or]
          rfl
      | pair x c =>
          show charDelimFrom delim limit i (some begun) false
            ('\\' :: x :: (unitsText units ++ rest)) = _
          rw [charDelimFrom_backslash]
          rfl
      | quotes =>
          show charDelimFrom delim limit i (some begun) false
            ('\'' :: '\'' :: (unitsText units ++ rest)) = _
          rw [charDelimFrom_quote _ _ _ _ (by rw [hasQuote_cons]; rfl),
            charDelimFrom_quote _ _ _ _ rfl]
          rfl

/-- The scan for blanks goes over units; a blank among them is inside quotes. -/
theorem blankDelimFrom_units {delim : Option Char} {inside : Bool} {units : List EscapeUnit}
    (hreads : ∀ unit ∈ units, unit.Reads delim) (hfree : ∀ unit ∈ units, unit.Free)
    (hinside : inside = false ∧ .lit ' ' ∉ units ∨ inside = true ∧ .quotes ∉ units)
    (limit : Option Nat) (i begun : Nat) (rest : Text) :
    (blankDelimFrom limit i (.findDelim begun) inside (unitsText units ++ rest)).spans =
        (blankDelimFrom limit (i + (unitsText units).length) (.findDelim begun) inside rest).spans ∧
      (blankDelimFrom limit i (.findDelim begun) inside (unitsText units ++ rest)).openQuote =
        (blankDelimFrom limit (i + (unitsText units).length) (.findDelim begun) inside
          rest).openQuote := by
  induction units generalizing i with
  | nil => exact ⟨rfl, rfl⟩
  | cons unit units ih =>
      obtain ⟨hunit, hlater⟩ := List.forall_mem_cons.mp hreads
      obtain ⟨hnul, hfrees⟩ := List.forall_mem_cons.mp hfree
      have hrest := ih hlater hfrees (hinside.imp
        (And.imp_right fun h hmem => h (List.mem_cons_of_mem _ hmem))
        (And.imp_right fun h hmem => h (List.mem_cons_of_mem _ hmem)))
      have hlength : (unitsText (unit :: units)).length =
          unit.text.length + (unitsText units).length := List.length_append
      rw [hlength, ← Nat.add_assoc, ← (hrest _).1, ← (hrest _).2]
      cases unit with
      | lit c =>
          have hc : ¬(c = ' ' ∧ inside = false) := by
            rintro ⟨rfl, rfl⟩
            rcases hinside with ⟨-, hspace⟩ | ⟨hfalse, -⟩
            · exact hspace List.mem_cons_self
            · cases hfalse
          show (blankDelimFrom limit i (.findDelim begun) inside
              (c :: (unitsText units ++ rest))).spans = _ ∧
            (blankDelimFrom limit i (.findDelim begun) inside
              (c :: (unitsText units ++ rest))).openQuote = _
          rw [blankDelimFrom_pass _ _ _ _ hnul hunit.1 hunit.2 hc]
          exact ⟨rfl, rfl⟩
      | pair x c =>
          show (blankDelimFrom limit i (.findDelim begun) inside
              ('\\' :: x :: (unitsText units ++ rest))).spans = _ ∧
            (blankDelimFrom limit i (.findDelim begun) inside
              ('\\' :: x :: (unitsText units ++ rest))).openQuote = _
          rw [blankDelimFrom_backslash]
          exact ⟨rfl, rfl⟩
      | quotes =>
          obtain rfl : inside = false := by
            rcases hinside with ⟨rfl, -⟩ | ⟨-, hquotes⟩
            · rfl
            · exact absurd List.mem_cons_self hquotes
          show (blankDelimFrom limit i (.findDelim begun) false
              ('\'' :: '\'' :: (unitsText units ++ rest))).spans = _ ∧
            (blankDelimFrom limit i (.findDelim begun) false
              ('\'' :: '\'' :: (unitsText units ++ rest))).openQuote = _
          rw [blankDelimFrom_quote, blankDelimFrom_quote]
          exact ⟨rfl, rfl⟩

theorem nul_notMem_units {units : List EscapeUnit} (hfree : ∀ unit ∈ units, unit.Free) :
    '\x00' ∉ unitsText units := by
  intro hmem
  obtain ⟨unit, hunit, hchar⟩ := List.mem_flatMap.mp hmem
  have hnul := hfree unit hunit
  cases unit with
  | lit c => exact hnul (List.mem_singleton.mp hchar).symm
  | pair x c =>
      rcases List.mem_cons.mp hchar with h | h
      · exact absurd h (by decide)
      · exact hnul (List.mem_singleton.mp h).symm
  | quotes => exact absurd hchar (by decide)

/-- A separator whose split reads every escape of the writer. -/
structure Escaping (sep : Char) : Prop where
  ne_nul : sep ≠ '\x00'
  ne_backslash : sep ≠ '\\'
  ne_quote : sep ≠ '\''
  ne_n : sep ≠ 'n'
  ne_r : sep ≠ 'r'
  ne_t : sep ≠ 't'
  ne_s : sep ≠ 's'

theorem Escaping.space : Escaping ' ' := by
  constructor
  all_goals decide

/-- Every separator that breaks no split reads the escapes. -/
theorem Escaping.of_unbroken {sep : Char} (h : breaksASplit sep = false) :
    Escaping sep ∧ Cutting sep ∧ sep.toNat < 128 := by
  rw [breaksASplit, Bool.or_eq_false_iff, Bool.not_eq_false', isAsciiGraphic, Bool.and_eq_true,
    decide_eq_true_eq, decide_eq_true_eq] at h
  obtain ⟨⟨hlow, hhigh⟩, hother⟩ := h
  have hascii : sep.toNat < 128 := lt_of_le_of_lt hhigh (by decide : ('~' : Char).toNat < 128)
  have hne : ∀ c : Char, ¬ '!' ≤ c → sep ≠ c := by
    rintro c hc rfl
    exact hc hlow
  simp only [List.contains_cons, List.contains_nil, Bool.or_false, Bool.or_eq_false_iff,
    beq_eq_false_iff_ne] at hother
  obtain ⟨hbackslash, hquote, hn, hr, ht, hs⟩ := hother
  exact ⟨⟨hne _ (by decide), hbackslash, hquote, hn, hr, ht, hs⟩,
    ⟨hne _ (by decide), hbackslash, hquote, hne _ (by decide)⟩, hascii⟩

theorem unescape_letter {sep : Char} (h : Escaping sep) :
    unescape 's' (cleanupDelim sep) = some ' ' ∧ unescape 'n' (cleanupDelim sep) = some '\n' ∧
      unescape 'r' (cleanupDelim sep) = some '\r' ∧
        unescape 't' (cleanupDelim sep) = some '\t' := by
  have hdelim : ∀ c : Char, c ≠ sep → some c ≠ cleanupDelim sep := by
    intro c hc
    rw [cleanupDelim]
    split
    · exact Option.some_ne_none c
    · exact fun h => hc (Option.some.inj h)
  refine ⟨?_, ?_, ?_, ?_⟩
  · simp [unescape, hdelim 's' (Ne.symm h.ne_s)]
  · simp [unescape, hdelim 'n' (Ne.symm h.ne_n)]
  · simp [unescape, hdelim 'r' (Ne.symm h.ne_r)]
  · simp [unescape, hdelim 't' (Ne.symm h.ne_t)]

/-- A unit for a char, written as the escape writes it. -/
def charUnit (sep c : Char) : EscapeUnit :=
  if c = ' ' then .pair 's' ' '
  else if c = '\n' then .pair 'n' '\n'
  else if c = '\r' then .pair 'r' '\r'
  else if c = '\t' then .pair 't' '\t'
  else if takesABackslash c (some sep) then .pair c c
  else .lit c

theorem text_charUnit (sep c : Char) : (charUnit sep c).text = escapeChar sep c := by
  unfold charUnit escapeChar
  split_ifs
  all_goals rfl

theorem value_charUnit (sep c : Char) : (charUnit sep c).value = [c] := by
  unfold charUnit
  split_ifs with hspace hn hr ht
  · rw [hspace]
    rfl
  · rw [hn]
    rfl
  · rw [hr]
    rfl
  · rw [ht]
    rfl
  · rfl
  · rfl

theorem reads_charUnit {sep : Char} (h : Escaping sep) (c : Char) :
    (charUnit sep c).Reads (cleanupDelim sep) := by
  obtain ⟨hs, hn, hr, ht⟩ := unescape_letter h
  unfold charUnit
  split_ifs with hspace _ _ _ htakes
  · exact hs
  · exact hn
  · exact hr
  · exact ht
  · show unescape c (cleanupDelim sep) = some c
    have hself : some c = cleanupDelim sep ∨ c = '\'' ∨ c = '"' ∨ c = '\\' := by
      simp only [takesABackslash, Bool.or_eq_true, decide_eq_true_eq, Option.some.injEq] at htakes
      rcases htakes with (rfl | rfl) | rfl
      · exact .inr (.inr (.inr rfl))
      · exact .inr (.inl rfl)
      · exact .inl (by rw [cleanupDelim, if_neg hspace])
    rw [unescape, if_pos hself]
  · simp only [takesABackslash, Bool.or_eq_true, decide_eq_true_eq, not_or] at htakes
    exact htakes.1

theorem free_charUnit {c : Char} (hc : c ≠ '\x00') (sep : Char) : (charUnit sep c).Free := by
  unfold charUnit
  split_ifs
  all_goals first
    | exact hc
    | exact (by decide : ('s' : Char) ≠ '\x00')
    | exact (by decide : ('n' : Char) ≠ '\x00')
    | exact (by decide : ('r' : Char) ≠ '\x00')
    | exact (by decide : ('t' : Char) ≠ '\x00')

theorem charUnit_ne_lit (sep c : Char) : charUnit sep c ≠ .lit sep := by
  unfold charUnit
  split_ifs with _ _ _ _ htakes
  · exact EscapeUnit.noConfusion
  · exact EscapeUnit.noConfusion
  · exact EscapeUnit.noConfusion
  · exact EscapeUnit.noConfusion
  · exact EscapeUnit.noConfusion
  · intro h
    obtain rfl := EscapeUnit.lit.inj h
    exact htakes (by simp [takesABackslash])

/-- The units of an escaped text: they stand for the text, and none is the separator as it is. -/
structure Escapes (sep : Char) (written value : Text) (units : List EscapeUnit) : Prop where
  text : written = unitsText units
  value : unitsValue units = value
  reads : ∀ unit ∈ units, unit.Reads (cleanupDelim sep)
  free : ∀ unit ∈ units, unit.Free
  plain : .lit sep ∉ units

theorem unitsText_append (left right : List EscapeUnit) :
    unitsText (left ++ right) = unitsText left ++ unitsText right := List.flatMap_append

theorem unitsValue_append (left right : List EscapeUnit) :
    unitsValue (left ++ right) = unitsValue left ++ unitsValue right := List.flatMap_append

theorem Escapes.append {sep : Char} {w w' v v' : Text} {left right : List EscapeUnit}
    (hleft : Escapes sep w v left) (hright : Escapes sep w' v' right) :
    Escapes sep (w ++ w') (v ++ v') (left ++ right) where
  text := by rw [hleft.text, hright.text, unitsText_append]
  value := by rw [unitsValue_append, hleft.value, hright.value]
  reads unit hunit := (List.mem_append.mp hunit).elim (hleft.reads unit) (hright.reads unit)
  free unit hunit := (List.mem_append.mp hunit).elim (hleft.free unit) (hright.free unit)
  plain hmem := (List.mem_append.mp hmem).elim hleft.plain hright.plain

theorem Escapes.nil (sep : Char) : Escapes sep [] [] [] :=
  ⟨rfl, rfl, nofun, nofun, nofun⟩

theorem Escapes.quotes (sep : Char) : Escapes sep ['\'', '\''] [] [.quotes] where
  text := rfl
  value := rfl
  reads := by
    rintro unit hunit
    rw [List.mem_singleton.mp hunit]
    trivial
  free := by
    rintro unit hunit
    rw [List.mem_singleton.mp hunit]
    trivial
  plain := by simp

theorem Escapes.char {sep : Char} (hsep : Escaping sep) {c : Char} (hc : c ≠ '\x00') :
    Escapes sep (escapeChar sep c) [c] [charUnit sep c] where
  text := by rw [unitsText, List.flatMap_singleton, text_charUnit]
  value := by rw [unitsValue, List.flatMap_singleton, value_charUnit]
  reads := by
    rintro unit hunit
    rw [List.mem_singleton.mp hunit]
    exact reads_charUnit hsep c
  free := by
    rintro unit hunit
    rw [List.mem_singleton.mp hunit]
    exact free_charUnit hc sep
  plain hmem := charUnit_ne_lit sep c (List.mem_singleton.mp hmem).symm

theorem Escapes.spaces {sep : Char} (hsep : sep ≠ ' ') (n : Nat) :
    Escapes sep (List.replicate n ' ') (List.replicate n ' ') (List.replicate n (.lit ' ')) where
  text := by
    induction n with
    | zero => rfl
    | succ n ih =>
        rw [List.replicate_succ, ih]
        rfl
  value := by
    induction n with
    | zero => rfl
    | succ n ih =>
        conv_rhs => rw [List.replicate_succ, ← ih]
        rfl
  reads := by
    rintro unit hunit
    rw [(List.mem_replicate.mp hunit).2]
    exact ⟨by decide, by decide⟩
  free := by
    rintro unit hunit
    rw [(List.mem_replicate.mp hunit).2]
    exact (by decide : (' ' : Char) ≠ '\x00')
  plain hmem := hsep (EscapeUnit.lit.inj (List.mem_replicate.mp hmem).2)

/-- **Every escaped text is made of units**, the spaces held back among them. -/
theorem escapes_writeEscapedFrom {sep : Char} (hsep : Escaping sep) {text : Text}
    (htext : '\x00' ∉ text) (started : Bool) (spaces : Nat) (hspaces : spaces ≠ 0 → sep ≠ ' ')
    (verticalTabLast : Bool) :
    ∃ units, Escapes sep (writeEscapedFrom sep started spaces verticalTabLast text)
      (List.replicate spaces ' ' ++ text) units := by
  -- The spaces of a held run are written as they are, so a run is never held for a blank split.
  have hheld : ∃ units, Escapes sep (List.replicate spaces ' ')
      (List.replicate spaces ' ') units := by
    cases spaces with
    | zero => exact ⟨[], .nil sep⟩
    | succ n => exact ⟨_, .spaces (hspaces (Nat.succ_ne_zero n)) _⟩
  induction text generalizing started spaces verticalTabLast with
  | nil =>
      cases spaces with
      | zero =>
          cases verticalTabLast with
          | false => exact ⟨[], .nil sep⟩
          | true => exact ⟨[.quotes], .quotes sep⟩
      | succ n =>
          have hne := hspaces (Nat.succ_ne_zero n)
          have hlast := Escapes.char hsep (by decide : (' ' : Char) ≠ '\x00')
          have happend := (Escapes.spaces hne n).append hlast
          rw [List.append_nil, List.replicate_succ']
          exact ⟨_, happend⟩
  | cons c text ih =>
      rw [List.mem_cons, not_or] at htext
      by_cases hhold : c = ' ' ∧ started = true ∧ sep ≠ ' '
      · obtain ⟨rfl, hstarted, hne⟩ := hhold
        obtain ⟨units, hunits⟩ := ih htext.2 started (spaces + 1) (fun _ => hne)
          verticalTabLast ⟨_, .spaces hne _⟩
        refine ⟨units, ?_⟩
        rw [writeEscapedFrom, if_pos ⟨rfl, hstarted, hne⟩]
        rw [List.replicate_succ', List.append_assoc] at hunits
        exact hunits
      · obtain ⟨held, hheld⟩ := hheld
        obtain ⟨units, hunits⟩ := ih htext.2 true 0 (fun h => absurd rfl h)
          (c = '\x0b') ⟨[], .nil sep⟩
        have hguard : ∃ guard, Escapes sep
            (if c = '\x0b' ∧ started = false then ['\'', '\''] else []) [] guard := by
          split
          · exact ⟨[.quotes], .quotes sep⟩
          · exact ⟨[], .nil sep⟩
        obtain ⟨guard, hguard⟩ := hguard
        have happend := ((hheld.append hguard).append
          (Escapes.char hsep (Ne.symm htext.1))).append hunits
        rw [writeEscapedFrom, if_neg hhold]
        simp only [List.append_nil, List.replicate_zero, List.nil_append, List.append_assoc,
          List.singleton_append] at happend ⊢
        exact ⟨_, happend⟩

/-! ### The edges of an escaped text -/

/-- A text that loses nothing to the line strip. -/
structure Edged (x : Text) : Prop where
  head : ∀ c ∈ x.head?, c ∉ strippedWhitespace
  last : ∀ c ∈ x.getLast?, c ∉ strippedWhitespace

theorem Edged.trimmed {x : Text} (h : Edged x) : Trimmed x where
  head c hc heq := h.head c hc (by rw [heq]; decide)
  last c hc heq := h.last c hc (by rw [heq]; decide)

theorem stripWhitespace_edged {x : Text} (h : Edged x) : stripWhitespace x = x := by
  have hdrop : ∀ y : Text, (∀ c ∈ y.head?, c ∉ strippedWhitespace) →
      (y.dropWhile fun c => strippedWhitespace.contains c) = y := by
    intro y hy
    cases y with
    | nil => rfl
    | cons c y =>
        rw [List.dropWhile_cons_of_neg]
        simpa using hy c rfl
  rw [stripWhitespace, hdrop x h.head, hdrop x.reverse (by rw [List.head?_reverse]; exact h.last),
    List.reverse_reverse]

theorem writeEscapedFrom_ne_nil (sep : Char) (started : Bool) (spaces : Nat)
    (verticalTabLast : Bool) {text : Text} (h : text ≠ [] ∨ spaces ≠ 0) :
    writeEscapedFrom sep started spaces verticalTabLast text ≠ [] := by
  induction text generalizing started spaces verticalTabLast with
  | nil =>
      cases spaces with
      | zero => simp at h
      | succ n => simp [writeEscapedFrom]
  | cons c text ih =>
      rw [writeEscapedFrom]
      split
      · exact ih _ _ _ (.inr (Nat.succ_ne_zero spaces))
      · have hchar : escapeChar sep c ≠ [] := by
          unfold escapeChar
          split_ifs
          all_goals exact List.cons_ne_nil _ _
        simp [hchar]

/-- What one escaped char ends in. -/
theorem escapeChar_last {sep c d : Char} (hd : d ∈ (escapeChar sep c).getLast?) (hc : c ≠ '\x0b') :
    d ∉ strippedWhitespace := by
  unfold escapeChar at hd
  split_ifs at hd with hspace hn hr ht htakes
  all_goals
    obtain rfl : _ = d := Option.some.inj hd
  · decide
  · decide
  · decide
  · decide
  · simp [strippedWhitespace, hspace, hn, hr, ht, hc]
  · simp [strippedWhitespace, hspace, hn, hr, ht, hc]

theorem escapeChar_head {sep c d : Char} (hd : d ∈ (escapeChar sep c).head?) (hc : c ≠ '\x0b') :
    d ∉ strippedWhitespace := by
  unfold escapeChar at hd
  split_ifs at hd with hspace hn hr ht htakes
  all_goals
    obtain rfl : _ = d := Option.some.inj hd
  · decide
  · decide
  · decide
  · decide
  · decide
  · simp [strippedWhitespace, hspace, hn, hr, ht, hc]

/-- No escaped text ends in white space. -/
theorem writeEscapedFrom_last (sep : Char) (started : Bool) (spaces : Nat) (verticalTabLast : Bool)
    (text : Text) {d : Char}
    (hd : d ∈ (writeEscapedFrom sep started spaces verticalTabLast text).getLast?) :
    d ∉ strippedWhitespace := by
  induction text generalizing started spaces verticalTabLast with
  | nil =>
      cases spaces with
      | zero =>
          cases verticalTabLast with
          | false => cases hd
          | true =>
              obtain rfl : '\'' = d := Option.some.inj hd
              decide
      | succ n =>
          rw [writeEscapedFrom, List.getLast?_append] at hd
          obtain rfl : 's' = d := Option.some.inj hd
          decide
  | cons c text ih =>
      rw [writeEscapedFrom] at hd
      split at hd
      · exact ih _ _ _ hd
      · rw [List.getLast?_append] at hd
        cases hlater : (writeEscapedFrom sep true 0 (c = '\x0b') text).getLast? with
        | some last =>
            rw [hlater, Option.some_or] at hd
            obtain rfl : last = d := Option.some.inj hd
            exact ih _ _ _ hlater
        | none =>
            -- Nothing is written behind the char, so it is the last one and no vertical tab.
            have hnil := List.getLast?_eq_none_iff.mp hlater
            have htext : text = [] := by
              by_contra hne
              exact writeEscapedFrom_ne_nil sep true 0 _ (.inl hne) hnil
            have hc : c ≠ '\x0b' := by
              rintro rfl
              rw [htext] at hnil
              simp [writeEscapedFrom] at hnil
            rw [hlater, Option.none_or, List.getLast?_append] at hd
            cases hchar : (escapeChar sep c).getLast? with
            | some last =>
                rw [hchar, Option.some_or] at hd
                obtain rfl : last = d := Option.some.inj hd
                exact escapeChar_last hchar hc
            | none =>
                have hempty := List.getLast?_eq_none_iff.mp hchar
                unfold escapeChar at hempty
                split_ifs at hempty

theorem edged_writeEscaped (sep : Char) (text : Text) : Edged (writeEscaped sep text) where
  head := by
    intro d hd
    cases text with
    | nil => cases hd
    | cons c text =>
        rw [writeEscaped, writeEscapedFrom, if_neg (by simp)] at hd
        by_cases hc : c = '\x0b'
        · rw [if_pos ⟨hc, rfl⟩] at hd
          obtain rfl : '\'' = d := Option.some.inj hd
          decide
        · rw [if_neg (fun h => hc h.1), List.append_nil, List.replicate_zero, List.nil_append,
            List.head?_append] at hd
          cases hchar : (escapeChar sep c).head? with
          | some first =>
              rw [hchar, Option.some_or] at hd
              obtain rfl : first = d := Option.some.inj hd
              exact escapeChar_head hchar hc
          | none =>
              have hempty := List.head?_eq_none_iff.mp hchar
              unfold escapeChar at hempty
              split_ifs at hempty
  last := fun _ hd => writeEscapedFrom_last sep false 0 false text hd

/-- Behind a char that is no space, an escaped text goes on by itself. -/
theorem writeEscapedFrom_behind {c : Char} (hc : c ≠ ' ') (htab : c ≠ '\x0b') (sep : Char)
    (started : Bool) (spaces : Nat) (verticalTabLast : Bool) (text rest : Text) :
    writeEscapedFrom sep started spaces verticalTabLast (text ++ c :: rest) =
      writeEscapedFrom sep started spaces verticalTabLast (text ++ [c]) ++
        writeEscapedFrom sep true 0 false rest := by
  induction text generalizing started spaces verticalTabLast with
  | nil => simp [writeEscapedFrom, hc, htab]
  | cons d text ih =>
      rw [List.cons_append, List.cons_append, writeEscapedFrom, writeEscapedFrom]
      split_ifs with hheld
      · exact ih started (spaces + 1) verticalTabLast
      · simp [ih]
      · simp [ih]

/-- A text that needs no escape is written as it is. -/
theorem writeEscapedFrom_plain {sep : Char} {text : Text}
    (hplain : ∀ c ∈ ['\\', '\'', '\n', '\r', '\t', sep], c ∉ text) {started : Bool}
    (hhead : started = false → ∀ c ∈ text.head?, c ∉ strippedWhitespace) {spaces : Nat}
    {verticalTabLast : Bool} (hlast : ∀ c ∈ text.getLast?, c ∉ strippedWhitespace)
    (hnil : text = [] → spaces = 0 ∧ verticalTabLast = false) :
    writeEscapedFrom sep started spaces verticalTabLast text =
      List.replicate spaces ' ' ++ text := by
  induction text generalizing started spaces verticalTabLast with
  | nil =>
      obtain ⟨rfl, rfl⟩ := hnil rfl
      rfl
  | cons c text ih =>
      have hnext : ∀ d ∈ ['\\', '\'', '\n', '\r', '\t', sep], d ∉ text :=
        fun d hd hmem => hplain d hd (List.mem_cons_of_mem _ hmem)
      have hlater : ∀ d ∈ text.getLast?, d ∉ strippedWhitespace := by
        intro d hd
        refine hlast d ?_
        cases text with
        | nil => cases hd
        | cons next text => rwa [List.getLast?_cons_cons]
      have hend : text = [] → c ∉ strippedWhitespace := by
        rintro rfl
        exact hlast c rfl
      rw [writeEscapedFrom]
      split
      · rename_i hhold
        obtain ⟨rfl, rfl, -⟩ := hhold
        rw [ih hnext (fun h : true = false => Bool.noConfusion h) hlater
          fun h => absurd (hend h) (by decide), List.replicate_succ',
          List.append_assoc]
        rfl
      · rename_i hhold
        have hne : ∀ d ∈ ['\\', '\'', '\n', '\r', '\t', sep], d ≠ c := by
          rintro d hd rfl
          exact hplain d hd List.mem_cons_self
        simp only [List.mem_cons, List.not_mem_nil, or_false, forall_eq_or_imp, forall_eq] at hne
        obtain ⟨hbackslash, hquote, hn, hr, ht, hsep⟩ := hne
        have hspace : c ≠ ' ' := by
          rintro rfl
          cases started with
          | true => exact hhold ⟨rfl, rfl, hsep⟩
          | false => exact hhead rfl ' ' rfl (by decide)
        have hchar : escapeChar sep c = [c] := by
          simp [escapeChar, takesABackslash, hspace, Ne.symm hn, Ne.symm hr, Ne.symm ht,
            Ne.symm hbackslash, Ne.symm hquote, Ne.symm hsep]
        have hguard : ¬(c = '\x0b' ∧ started = false) := by
          rintro ⟨rfl, rfl⟩
          exact hhead rfl '\x0b' rfl (by decide)
        have htab : text = [] → decide (c = '\x0b') = false := by
          intro htext
          refine decide_eq_false ?_
          rintro rfl
          exact hend htext (by decide)
        rw [ih hnext (fun h : true = false => Bool.noConfusion h) hlater fun h => ⟨rfl, htab h⟩,
          if_neg hguard, hchar]
        simp

/-! ### One token of its split -/

/-- What is made of units is one token, read as what they stand for. -/
theorem Escapes.joint {sep : Char} {w v : Text} {units : List EscapeUnit}
    (h : Escapes sep w v units) (hne : w ≠ []) (htrimmed : Trimmed w) :
    Joint sep w ∧ written (cleanupDelim sep) false w = v := by
  refine ⟨⟨hne, ?_, htrimmed, ?_⟩, ?_⟩
  · rw [h.text]
    exact nul_notMem_units h.free
  · rw [Unbroken, h.text]
    by_cases hspace : sep = ' '
    · subst hspace
      rw [if_pos rfl]
      intro limit i begun rest
      exact blankDelimFrom_units h.reads h.free (.inl ⟨rfl, h.plain⟩) limit i begun rest
    · have hreads := h.reads
      rw [cleanupDelim, if_neg hspace] at hreads
      rw [if_neg hspace]
      exact through_units hreads h.free h.plain
  · have hwritten := written_units h.reads (.inl rfl) []
    rw [List.append_nil, written_nil, List.append_nil, ← h.text, h.value] at hwritten
    exact hwritten

/-- An escaped argument is the guard, if any, and the text escaped. -/
theorem escapeArgument_eq {text : Text} (hne : text ≠ []) (sep : Char) :
    escapeArgument text sep =
      (if sep = ' ' ∧ ['^', '^'] <+: text then ['\'', '\''] else []) ++ writeEscaped sep text := by
  rw [escapeArgument, if_neg hne]
  simp only
  split
  · rename_i hplain
    obtain ⟨hguard, hhead, hlast, hother⟩ := hplain
    rw [if_neg hguard, List.nil_append, writeEscaped,
      writeEscapedFrom_plain hother (fun _ => hhead) hlast fun h => absurd h hne]
    rfl
  · rfl

/-- A text the writer escaped is one token of its split, read back as the text. -/
theorem joint_writeEscaped {sep : Char} (hsep : Escaping sep) {text : Text} (htext : '\x00' ∉ text)
    (hne : text ≠ []) :
    Joint sep (writeEscaped sep text) ∧
      written (cleanupDelim sep) false (writeEscaped sep text) = text := by
  obtain ⟨units, hunits⟩ :=
    escapes_writeEscapedFrom hsep htext false 0 (fun h => absurd rfl h) false
  exact hunits.joint (writeEscapedFrom_ne_nil sep false 0 false (.inl hne))
    (edged_writeEscaped sep text).trimmed

/-- **An escaped argument is one token of its split**, read back as the text. -/
theorem joint_escapeArgument {sep : Char} (hsep : Escaping sep) {text : Text}
    (htext : '\x00' ∉ text) :
    Joint sep (escapeArgument text sep) ∧ Edged (escapeArgument text sep) ∧
      written (cleanupDelim sep) false (escapeArgument text sep) = text := by
  have hquotes : Edged ['\'', '\''] := by
    constructor
    · rintro c hc
      obtain rfl : '\'' = c := Option.some.inj hc
      decide
    · rintro c hc
      obtain rfl : '\'' = c := Option.some.inj hc
      decide
  by_cases hne : text = []
  · subst hne
    obtain ⟨hjoint, hwritten⟩ := (Escapes.quotes sep).joint (List.cons_ne_nil _ _) hquotes.trimmed
    exact ⟨hjoint, hquotes, hwritten⟩
  · obtain ⟨units, hunits⟩ :=
      escapes_writeEscapedFrom hsep htext false 0 (fun h => absurd rfl h) false
    have hbody : writeEscaped sep text ≠ [] := writeEscapedFrom_ne_nil sep false 0 false (.inl hne)
    have hedged := edged_writeEscaped sep text
    rw [escapeArgument_eq hne]
    by_cases hguard : sep = ' ' ∧ ['^', '^'] <+: text
    · rw [if_pos hguard]
      have hall : Edged (['\'', '\''] ++ writeEscaped sep text) := by
        refine ⟨hquotes.head, ?_⟩
        intro c hc
        rw [List.getLast?_append_of_ne_nil _ hbody] at hc
        exact hedged.last c hc
      obtain ⟨hjoint, hwritten⟩ := ((Escapes.quotes sep).append hunits).joint (by simp) hall.trimmed
      exact ⟨hjoint, hall, hwritten⟩
    · rw [if_neg hguard, List.nil_append]
      obtain ⟨hjoint, hwritten⟩ := joint_writeEscaped hsep htext hne
      exact ⟨hjoint, hedged, hwritten⟩

/-- A text without white space, quotes and backslashes is one token of the blank split as it is. -/
theorem joint_plain {text : Text} (hne : text ≠ []) (hnul : '\x00' ∉ text)
    (hspace : ∀ c ∈ text, c ∉ strippedWhitespace) (hquote : '\'' ∉ text)
    (hbackslash : '\\' ∉ text) :
    Joint ' ' text ∧ Edged text ∧ written none false text = text := by
  have hunits : Escapes ' ' text text (text.map .lit) := by
    refine ⟨?_, ?_, ?_, ?_, ?_⟩
    · rw [unitsText, List.flatMap_map]
      exact (List.flatMap_singleton' text).symm
    · rw [unitsValue, List.flatMap_map]
      exact List.flatMap_singleton' text
    · intro unit hunit
      obtain ⟨c, hc, rfl⟩ := List.mem_map.mp hunit
      exact ⟨fun h => hbackslash (h ▸ hc), fun h => hquote (h ▸ hc)⟩
    · intro unit hunit
      obtain ⟨c, hc, rfl⟩ := List.mem_map.mp hunit
      exact fun h => hnul (h ▸ hc)
    · intro hmem
      obtain ⟨c, hc, heq⟩ := List.mem_map.mp hmem
      obtain rfl := EscapeUnit.lit.inj heq
      exact hspace ' ' hc (by decide)
  have hedged : Edged text :=
    ⟨fun c hc => hspace c (List.mem_of_mem_head? hc), fun c hc =>
        hspace c (List.mem_of_getLast? hc)⟩
  obtain ⟨hjoint, hwritten⟩ := hunits.joint hne hedged.trimmed
  exact ⟨hjoint, hedged, hwritten⟩

/-- A unit of a text inside a token. -/
def insideUnit (delim : Option Char) (c : Char) : EscapeUnit :=
  if takesABackslash c delim then .pair c c else .lit c

/-- What takes a backslash is read behind one as it is. -/
theorem unescape_takesABackslash {c : Char} {delim : Option Char}
    (h : takesABackslash c delim = true) :
    unescape c delim = some c := by
  simp only [takesABackslash, Bool.or_eq_true, decide_eq_true_eq] at h
  rw [unescape, if_pos]
  rcases h with (h | h) | h
  · exact .inr (.inr (.inr h))
  · exact .inr (.inl h)
  · exact .inl h

theorem escapeInsideToken_units (value : Text) (delim : Option Char) :
    escapeInsideToken value delim = unitsText (value.map (insideUnit delim)) ∧
      unitsValue (value.map (insideUnit delim)) = value ∧
      (∀ unit ∈ value.map (insideUnit delim), unit.Reads delim) ∧
      .quotes ∉ value.map (insideUnit delim) := by
  refine ⟨?_, ?_, ?_, ?_⟩
  · rw [escapeInsideToken, unitsText, List.flatMap_map]
    congr 1
    funext c
    rw [insideUnit]
    split
    · rfl
    · rfl
  · rw [unitsValue, List.flatMap_map]
    have hvalue : ∀ c, (insideUnit delim c).value = [c] := by
      intro c
      rw [insideUnit]
      split
      · rfl
      · rfl
    simp only [hvalue]
    exact List.flatMap_singleton' value
  · intro unit hunit
    obtain ⟨c, hc, rfl⟩ := List.mem_map.mp hunit
    rw [insideUnit]
    split
    · rename_i htakes
      exact unescape_takesABackslash htakes
    · rename_i htakes
      simp only [takesABackslash, Bool.or_eq_true, decide_eq_true_eq, not_or] at htakes
      exact htakes.1
  · intro hmem
    obtain ⟨c, hc, heq⟩ := List.mem_map.mp hmem
    rw [insideUnit] at heq
    split at heq
    · cases heq
    · cases heq

theorem free_insideUnit {value : Text} (hvalue : '\x00' ∉ value) (delim : Option Char) :
    ∀ unit ∈ value.map (insideUnit delim), unit.Free := by
  intro unit hunit
  obtain ⟨c, hc, rfl⟩ := List.mem_map.mp hunit
  have hnul : c ≠ '\x00' := fun h => hvalue (h ▸ hc)
  rw [insideUnit]
  split
  · exact hnul
  · exact hnul

/-- A text escaped for the inside of a token of a split on a char. -/
theorem Escapes.inside {sep : Char} (hsep : sep ≠ ' ') {value : Text} (hvalue : '\x00' ∉ value) :
    Escapes sep (escapeInsideToken value (some sep)) value (value.map (insideUnit (some sep))) where
  text := (escapeInsideToken_units value (some sep)).1
  value := (escapeInsideToken_units value (some sep)).2.1
  reads := by
    rw [cleanupDelim, if_neg hsep]
    exact (escapeInsideToken_units value (some sep)).2.2.1
  free := free_insideUnit hvalue (some sep)
  plain := by
    intro hmem
    obtain ⟨c, hc, heq⟩ := List.mem_map.mp hmem
    rw [insideUnit] at heq
    split at heq
    · cases heq
    · rename_i htakes
      obtain rfl : c = sep := EscapeUnit.lit.inj heq
      exact htakes (by simp [takesABackslash])

/-- **A quoted token is one token of the blank split**, read back as the text. -/
theorem joint_originateQuote {text : Text} (htext : '\x00' ∉ text) :
    Joint ' ' (originateQuote text) ∧ Edged (originateQuote text) ∧
      written none false (originateQuote text) = text := by
  rw [originateQuote]
  split
  · obtain ⟨hwrite, hvalue, hreads, hquotes⟩ := escapeInsideToken_units text none
    have hfree := free_insideUnit htext none
    have hnul := nul_notMem_units hfree
    rw [quoteForUuidSetvar, hwrite]
    have hedged : Edged ('\'' :: unitsText (text.map (insideUnit none)) ++ ['\'']) := by
      constructor
      · intro c hc
        obtain rfl : '\'' = c := Option.some.inj hc
        decide
      · intro c hc
        rw [List.getLast?_append] at hc
        obtain rfl : '\'' = c := Option.some.inj hc
        decide
    refine ⟨⟨by simp, ?_, hedged.trimmed, ?_⟩, hedged, ?_⟩
    · rw [List.cons_append, List.mem_cons, List.mem_append, not_or, not_or]
      exact ⟨by decide, hnul, by decide⟩
    · rw [Unbroken, if_pos rfl]
      intro limit i begun rest
      obtain ⟨hspans, hopen⟩ :=
        blankDelimFrom_units hreads hfree (.inr ⟨rfl, hquotes⟩) limit (i + 1)
        begun ('\'' :: rest)
      have hline : '\'' :: unitsText (text.map (insideUnit none)) ++ ['\''] ++ rest =
          '\'' :: (unitsText (text.map (insideUnit none)) ++ '\'' :: rest) := by simp
      have hlength : i + ('\'' :: unitsText (text.map (insideUnit none)) ++ ['\'']).length =
          i + 1 + (unitsText (text.map (insideUnit none))).length + 1 := by
        simp only [List.length_append, List.length_cons, List.length_nil]
        omega
      rw [hline, hlength, blankDelimFrom_quote, Bool.not_false, hspans, hopen, blankDelimFrom_quote,
        Bool.not_true]
      exact ⟨rfl, rfl⟩
    · rw [List.cons_append, written_quote (by rw [hasQuote_append hnul]; rfl), Bool.not_false,
        written_units hreads (.inr hquotes), hvalue, written_quote rfl, written_nil,
        List.append_nil]
  · rename_i hplain
    simp only [List.any_eq_true, List.contains_eq_mem, decide_eq_true_eq, not_or, not_exists,
      not_and] at hplain
    obtain ⟨hne, hspace, hquote, hbackslash⟩ := hplain
    exact joint_plain hne htext hspace hquote hbackslash

/-! ### Whole lines -/

/-- A line opens with a head only if its first token does. -/
theorem headless_joined {x : Text} (hne : x ≠ []) (hx : Headless x) (xs : List Text) :
    Headless ([' '].intercalate (x :: xs)) := by
  rintro ⟨hfirst, hsecond⟩
  cases xs with
  | nil =>
      rw [List.intercalate_singleton] at hfirst hsecond
      exact hx ⟨hfirst, hsecond⟩
  | cons y ys =>
      rw [List.intercalate_cons_cons, List.append_assoc] at hfirst hsecond
      obtain ⟨c, tail, rfl⟩ := List.exists_cons_of_ne_nil hne
      cases tail with
      | nil => exact absurd (Option.some.inj hsecond) (by decide)
      | cons d tail => exact hx ⟨hfirst, hsecond⟩

/-- An escaped argument of the blank split opens with no head. -/
theorem headless_escapeArgument (text : Text) : Headless (escapeArgument text ' ') := by
  by_cases hne : text = []
  · subst hne
    rintro ⟨hfirst, -⟩
    exact absurd (Option.some.inj hfirst) (by decide)
  rw [escapeArgument_eq hne]
  rintro ⟨hfirst, hsecond⟩
  by_cases hguard : ['^', '^'] <+: text
  · rw [if_pos ⟨rfl, hguard⟩] at hfirst
    exact absurd (Option.some.inj hfirst) (by decide)
  -- The first char written is the text's own, and so is the second.
  have hcaret : ∀ c : Char, (escapeChar ' ' c).head? = some '^' → c = '^' := by
    intro c hc
    unfold escapeChar at hc
    split_ifs at hc
    all_goals first
      | exact absurd (Option.some.inj hc) (by decide)
      | exact Option.some.inj hc
  have hcons : ∀ c : Char, escapeChar ' ' c ≠ [] := by
    intro c
    unfold escapeChar
    split_ifs
    all_goals exact List.cons_ne_nil _ _
  rw [if_neg (fun h => hguard h.2), List.nil_append] at hfirst hsecond
  cases text with
  | nil => exact hne rfl
  | cons c text =>
      rw [writeEscaped, writeEscapedFrom, if_neg (by simp)] at hfirst hsecond
      by_cases htab : c = '\x0b'
      · rw [if_pos ⟨htab, rfl⟩] at hfirst
        exact absurd (Option.some.inj hfirst) (by decide)
      rw [if_neg (fun h => htab h.1), List.append_nil, List.replicate_zero,
        List.nil_append] at hfirst hsecond
      have hc : c = '^' := by
        refine hcaret c ?_
        obtain ⟨d, tail, htail⟩ := List.exists_cons_of_ne_nil (hcons c)
        rw [htail] at hfirst ⊢
        exact hfirst
      subst hc
      cases text with
      | nil => simp [escapeChar, takesABackslash, writeEscapedFrom] at hsecond
      | cons d text =>
          have hd : d = '^' := by
            refine hcaret d ?_
            have hsingle : escapeChar ' ' '^' = ['^'] := by decide
            rw [hsingle, List.singleton_append, List.getElem?_cons_succ, writeEscapedFrom,
              if_neg (by simp), if_neg (by simp), List.append_nil, List.replicate_zero,
              List.nil_append] at hsecond
            obtain ⟨e, tail, htail⟩ := List.exists_cons_of_ne_nil (hcons d)
            rw [htail] at hsecond ⊢
            exact hsecond
          subst hd
          exact hguard ⟨text, rfl⟩

theorem edged_joined {sep : Char} {xs : List Text} (hxs : ∀ x ∈ xs, x ≠ [] ∧ Edged x) :
    Edged ([sep].intercalate xs) := by
  induction xs with
  | nil => exact ⟨nofun, nofun⟩
  | cons x xs ih =>
      obtain ⟨⟨hne, hx⟩, hrest⟩ := List.forall_mem_cons.mp hxs
      cases xs with
      | nil =>
          rw [List.intercalate_singleton]
          exact hx
      | cons y ys =>
          have hlater := ih hrest
          have hy : [sep].intercalate (y :: ys) ≠ [] := by
            have hyne := (hrest y List.mem_cons_self).1
            cases ys with
            | nil => rwa [List.intercalate_singleton]
            | cons z zs =>
                rw [List.intercalate_cons_cons]
                simp [hyne]
          rw [List.intercalate_cons_cons, List.append_assoc]
          refine ⟨?_, ?_⟩
          · intro c hc
            rw [List.head?_append_of_ne_nil _ hne] at hc
            exact hx.head c hc
          · intro c hc
            rw [← List.append_assoc, List.getLast?_append_of_ne_nil _ hy] at hc
            exact hlater.last c hc

/-- A separator of an API target: a blank, or one that `originate` may be told to split on. -/
def ApiSeparator (sep : Char) : Prop := sep = ' ' ∨ usableArgvSeparator sep = true

theorem ApiSeparator.escaping {sep : Char} (h : ApiSeparator sep) : Escaping sep := by
  rcases h with rfl | h
  · exact .space
  · refine (Escaping.of_unbroken ?_).1
    rw [usableArgvSeparator, Bool.and_eq_true, Bool.and_eq_true, Bool.not_eq_true'] at h
    exact h.1.1

/-- A split line whose tokens are known and whose quotes are closed. -/
theorem splitLine_ok {line : Text} {splitAt : Char} {texts : List Text}
    (htexts : (separate (trace line) splitAt none).tokens.map
      (fun token => untrace token.text) = texts)
    (hopen : (separate (trace line) splitAt none).openQuote = false) :
    ∃ cut, splitLine line splitAt = .ok cut ∧ cut.arguments.map (·.text) = texts := by
  refine ⟨_, if_neg (fun h => by rw [hopen] at h; exact Bool.false_ne_true h.2), ?_⟩
  rw [← htexts]
  simp only [List.map_map]
  rfl

/-- **A line of escaped arguments is split back into its texts**, for every API target, and so is a
line of a plain first token and quoted texts; the line strip takes nothing off either, and no quote
is left open. -/
theorem argumentLine_splits_back :
    (∀ (sep : Char) (texts : List Text), ApiSeparator sep → texts ≠ [] →
      (∀ text ∈ texts, '\x00' ∉ text) →
      (∃ cut, splitLine (stripWhitespace (argumentLine sep texts)) ' ' = .ok cut ∧
        cut.arguments.map (·.text) = texts) ∧
      (separate (trace (stripWhitespace (argumentLine sep texts))) ' ' none).openQuote = false) ∧
    ∀ (first : Text) (texts : List Text), first ≠ [] → (∀ c ∈ first, c ∉ strippedWhitespace) →
      '\'' ∉ first → '\\' ∉ first → ¬['^', '^'] <+: first →
      (∀ text ∈ first :: texts, '\x00' ∉ text) →
      (∃ cut, splitLine (stripWhitespace (quotedLine first texts)) ' ' = .ok cut ∧
        cut.arguments.map (·.text) = first :: texts) ∧
      (separate (trace (stripWhitespace (quotedLine first texts))) ' ' none).openQuote = false := by
  refine ⟨?_, ?_⟩
  · intro sep texts hsep hne hfree
    have hjoint := fun text htext => joint_escapeArgument hsep.escaping (hfree text htext)
    have hxs : ∀ x ∈ texts.map fun text => escapeArgument text sep, Joint sep x := by
      intro x hx
      obtain ⟨text, htext, rfl⟩ := List.mem_map.mp hx
      exact (hjoint text htext).1
    have hxsne : (texts.map fun text => escapeArgument text sep) ≠ [] := by simpa using hne
    have hedged : Edged ([sep].intercalate (texts.map fun text => escapeArgument text sep)) := by
      refine edged_joined fun x hx => ?_
      obtain ⟨text, htext, rfl⟩ := List.mem_map.mp hx
      exact ⟨(hjoint text htext).1.ne, (hjoint text htext).2.1⟩
    have hvalues : (texts.map fun text => escapeArgument text sep).map
        (written (cleanupDelim sep) false) = texts := by
      rw [List.map_map]
      conv_rhs => rw [← List.map_id texts]
      exact List.map_congr_left fun text htext => (hjoint text htext).2.2
    have hroom : Allows none (texts.map fun text => escapeArgument text sep).length := nofun
    rw [argumentLine]
    by_cases hspace : sep = ' '
    · subst hspace
      rw [if_pos rfl, List.nil_append, stripWhitespace_edged hedged]
      obtain ⟨text, texts, rfl⟩ := List.exists_cons_of_ne_nil hne
      obtain ⟨htokens, hopen, -⟩ := separate_joined (.inl rfl) (by decide) hxsne hxs hroom
        (headless_joined (hxs _ List.mem_cons_self).ne (headless_escapeArgument text) _)
      exact ⟨splitLine_ok (htokens.trans hvalues) hopen, hopen⟩
    · have husable := hsep.resolve_left hspace
      rw [usableArgvSeparator, Bool.and_eq_true, Bool.and_eq_true, Bool.not_eq_true'] at husable
      obtain ⟨-, hcutting, hascii⟩ := Escaping.of_unbroken husable.1.1
      have hline : Edged (['^', '^', sep] ++
          [sep].intercalate (texts.map fun text => escapeArgument text sep)) := by
        refine ⟨?_, ?_⟩
        · intro c hc
          obtain rfl : '^' = c := Option.some.inj hc
          decide
        · intro c hc
          have hbody : [sep].intercalate (texts.map fun text => escapeArgument text sep) ≠ [] := by
            obtain ⟨text, rest, rfl⟩ := List.exists_cons_of_ne_nil hne
            have hfirst := (hxs _ List.mem_cons_self).ne
            rw [List.map_cons]
            cases rest.map fun text => escapeArgument text sep with
            | nil => rwa [List.intercalate_singleton]
            | cons y ys =>
                rw [List.intercalate_cons_cons]
                simp [hfirst]
          rw [List.getLast?_append_of_ne_nil _ hbody] at hc
          exact hedged.last c hc
      rw [if_neg hspace, stripWhitespace_edged hline]
      obtain ⟨htokens, hopen, -⟩ := separate_headed hcutting hascii hxsne hxs hroom ' '
      exact ⟨splitLine_ok (htokens.trans hvalues) hopen, hopen⟩
  · intro first texts hne hspace hquote hbackslash hhead hfree
    obtain ⟨hfirst, hrest⟩ := List.forall_mem_cons.mp hfree
    obtain ⟨hjoint, hedge, hwritten⟩ := joint_plain hne hfirst hspace hquote hbackslash
    have hquoted := fun text htext => joint_originateQuote (hrest text htext)
    have hxs : ∀ x ∈ first :: texts.map originateQuote, Joint ' ' x := by
      refine List.forall_mem_cons.mpr ⟨hjoint, ?_⟩
      intro x hx
      obtain ⟨text, htext, rfl⟩ := List.mem_map.mp hx
      exact (hquoted text htext).1
    have hedged : Edged (quotedLine first texts) := by
      refine edged_joined (List.forall_mem_cons.mpr ⟨⟨hne, hedge⟩, fun x hx => ?_⟩)
      obtain ⟨text, htext, rfl⟩ := List.mem_map.mp hx
      exact ⟨(hquoted text htext).1.ne, (hquoted text htext).2.1⟩
    have hvalues : (first :: texts.map originateQuote).map (written none false) =
        first :: texts := by
      rw [List.map_cons, hwritten, List.map_map]
      congr 1
      conv_rhs => rw [← List.map_id texts]
      exact List.map_congr_left fun text htext => (hquoted text htext).2.2
    have hheadless : Headless first := by
      rintro ⟨hone, htwo⟩
      obtain ⟨c, tail, rfl⟩ := List.exists_cons_of_ne_nil hne
      obtain rfl : c = '^' := Option.some.inj hone
      cases tail with
      | nil => cases htwo
      | cons d tail =>
          obtain rfl : d = '^' := Option.some.inj htwo
          exact hhead ⟨tail, rfl⟩
    have hroom : Allows none (first :: texts.map originateQuote).length := nofun
    rw [stripWhitespace_edged hedged]
    obtain ⟨htokens, hopen, -⟩ := separate_joined (.inl rfl) (by decide) (List.cons_ne_nil _ _) hxs
      hroom (headless_joined hne hheadless _)
    exact ⟨splitLine_ok (htokens.trans hvalues) hopen, hopen⟩

/-- Both lines at once: arguments that hold the separator, edge blanks and quotes, and an empty one.
-/
theorem argumentLine_splits_back_sample :
    (∃ cut, splitLine (stripWhitespace (argumentLine ';' [" a;b".toList, [], "it's\\".toList]))
      ' ' = .ok cut ∧
      cut.arguments.map (·.text) = [" a;b".toList, [], "it's\\".toList]) ∧
    ∃ cut, splitLine (stripWhitespace (quotedLine "originate".toList [" a ".toList, []]))
      ' ' = .ok cut ∧
      cut.arguments.map (·.text) = "originate".toList :: [" a ".toList, []] := by
  refine ⟨?_, ?_⟩
  · exact (argumentLine_splits_back.1 ';' [" a;b".toList, [], "it's\\".toList]
      (.inr (by decide +kernel))
      (by decide) (by decide +kernel)).1
  · exact (argumentLine_splits_back.2 "originate".toList [" a ".toList, []] (by decide +kernel)
      (by decide +kernel) (by decide +kernel) (by decide +kernel) (by decide +kernel)
      (by decide +kernel)).1

end SwitchPasses
end EslTokio
