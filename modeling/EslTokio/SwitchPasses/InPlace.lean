import EslTokio.SwitchPasses.Separate

/-!
# The in-place split and the pure one

The splits run over a buffer they rewrite, with the next token's text a few entries behind the last
one's. Here the split in place is tied to a pure one: a text is cut into pieces, each piece is
cleaned where it stands, and nothing outside the text changes.

* `written`, `chars_cleanup` — the chars a cleanup writes.
* `Through`, `Pieces` — a text the scan does not cut, and one cut into its raw tokens.
* `Slots` — strings that a buffer holds one behind the other.
* **`split_inPlace`** — the tokens of a split are the cleaned pieces, each in a slot of the text's
  own.
-/

namespace EslTokio
namespace SwitchPasses

open Library

/-! ### The cleanup, char by char -/

/-- The chars a cleanup writes. -/
def written (delim : Option Char) (inside : Bool) : Text → Text
  | [] => []
  | c :: rest =>
      if c = '\\' then
        match rest with
        | [] => ['\\']
        | next :: rest =>
            match unescape next delim with
            | some e => e :: written delim inside rest
            | none => '\\' :: written delim inside (next :: rest)
      else if c = '\'' ∧ (inside || hasQuote rest) = true then written delim (!inside) rest
      else c :: written delim inside rest

@[simp] theorem written_nil (delim : Option Char) (inside : Bool) :
    written delim inside [] = [] := rfl

@[simp] theorem written_lone (delim : Option Char) (inside : Bool) :
    written delim inside ['\\'] = ['\\'] := rfl

theorem written_escape {next e : Char} {delim : Option Char} (h : unescape next delim = some e)
    (inside : Bool) (rest : Text) :
    written delim inside ('\\' :: next :: rest) = e :: written delim inside rest := by
  simp [written, h]

theorem written_keep {next : Char} {delim : Option Char} (h : unescape next delim = none)
    (inside : Bool) (rest : Text) :
    written delim inside ('\\' :: next :: rest) = '\\' :: written delim inside (next :: rest) := by
  simp [written, h]

theorem written_quote {inside : Bool} {rest : Text} (h : (inside || hasQuote rest) = true)
    (delim : Option Char) :
    written delim inside ('\'' :: rest) = written delim (!inside) rest := by
  conv_lhs => unfold written
  rw [if_neg (by decide), if_pos ⟨rfl, h⟩]

theorem written_plain {c : Char} {inside : Bool} {rest : Text} (hbackslash : c ≠ '\\')
    (hquote : ¬ (c = '\'' ∧ (inside || hasQuote rest) = true)) (delim : Option Char) :
    written delim inside (c :: rest) = c :: written delim inside rest := by
  conv_lhs => unfold written
  rw [if_neg hbackslash, if_neg hquote]

theorem hasQuote_append {x : Text} (hx : '\x00' ∉ x) (rest : Text) :
    hasQuote (x ++ '\'' :: rest) = true := by
  have hall : ∀ c ∈ x, decide (c ≠ '\x00') = true := fun c hc =>
    decide_eq_true (fun h => hx (h ▸ hc))
  rw [hasQuote, List.takeWhile_append_of_pos hall]
  simp

theorem chars_cleanupFrom (delim : Option Char) (inside : Bool) (count : Nat) (stop : Option Nat)
    (cells : List Traced) :
    chars (cleanupFrom delim inside count stop cells).1 = written delim inside (chars cells) := by
  fun_induction cleanupFrom delim inside count stop cells with
  | case1 => rfl
  | case2 inside count stop cell hcell => simp [hcell]
  | case3 inside count stop cell hcell next rest e he later ih =>
      rw [chars_cons, chars_cons, chars_cons, hcell, written_escape he, ih]
  | case4 inside count stop cell hcell next rest hnone later ih =>
      rw [chars_cons, ih, chars_cons, chars_cons, hcell, chars_cons, written_keep hnone]
  | case5 inside count stop cell rest hcell hquote ih =>
      rw [chars_cons, hquote.1, written_quote hquote.2, ih]
  | case6 inside count stop cell rest hcell hquote kept later ih =>
      rw [chars_cons, chars_cons, written_plain hcell hquote, ih]

/-- Leaving the first entry keeps the last one. -/
theorem last_of_cons {cell : Traced} {rest : List Traced}
    (h : ∀ last ∈ (cell :: rest).getLast?, last.char ≠ ' ') :
    ∀ last ∈ rest.getLast?, last.char ≠ ' ' := by
  intro last hlast
  cases rest with
  | nil => cases hlast
  | cons next rest => exact h last (by rwa [List.getLast?_cons_cons])

/-- A cleanup ends behind the last entry it writes when the text ends in no space. -/
theorem cleanupFrom_stop (delim : Option Char) (inside : Bool) (count : Nat) (stop : Option Nat)
    (cells : List Traced) (hstop : inside = true ∨ cells = [] → stop = some count)
    (hlast : ∀ last ∈ cells.getLast?, last.char ≠ ' ') :
    (cleanupFrom delim inside count stop cells).2 =
      some (count + (cleanupFrom delim inside count stop cells).1.length) := by
  -- Inside quotes, and behind every entry but an unquoted space, the end is where the writer is.
  fun_induction cleanupFrom delim inside count stop cells with
  | case1 inside count stop => exact hstop (.inr rfl)
  | case2 => rfl
  | case3 inside count stop cell hcell next rest e he later ih =>
      rw [ih (fun _ => rfl) (last_of_cons (last_of_cons hlast)), List.length_cons]
      show some (count + 1 + later.1.length) = some (count + (later.1.length + 1))
      rw [Nat.add_assoc, Nat.add_comm 1]
  | case4 inside count stop cell hcell next rest hnone later ih =>
      rw [ih (fun _ => rfl) (last_of_cons hlast), List.length_cons]
      show some (count + 1 + later.1.length) = some (count + (later.1.length + 1))
      rw [Nat.add_assoc, Nat.add_comm 1]
  | case5 inside count stop cell rest hcell hquote ih =>
      refine ih (fun _ => ?_) (last_of_cons hlast)
      cases inside with
      | true => exact hstop (.inl rfl)
      | false => rfl
  | case6 inside count stop cell rest hcell hquote kept later ih =>
      have hkept : inside = true ∨ rest = [] → kept = some (count + 1) := by
        rintro (hinside | hrest)
        · exact if_pos (.inr hinside)
        · subst hrest
          exact if_pos (.inl (hlast cell rfl))
      rw [ih hkept (last_of_cons hlast), List.length_cons]
      show some (count + 1 + later.1.length) = some (count + (later.1.length + 1))
      rw [Nat.add_assoc, Nat.add_comm 1]

/-- A text that neither starts nor ends in a space. -/
structure Trimmed (x : Text) : Prop where
  head : ∀ c ∈ x.head?, c ≠ ' '
  last : ∀ c ∈ x.getLast?, c ≠ ' '

/-- A cleanup keeps all it writes of a text that neither starts nor ends in a space. -/
theorem cleanup_trimmed {raw : List Traced} (delim : Option Char) (h : Trimmed (chars raw)) :
    cleanup raw delim = (cleanupFrom delim false 0 none raw).1 := by
  cases raw with
  | nil => rfl
  | cons cell rest =>
      have hskip : skipSpaces (cell :: rest) = cell :: rest := by
        rw [skipSpaces, List.dropWhile_cons_of_neg]
        simpa using h.head cell.char rfl
      have hend : ∀ last ∈ (cell :: rest).getLast?, last.char ≠ ' ' := by
        intro last hmem
        refine h.last last.char ?_
        rw [chars, List.getLast?_map, Option.mem_def.mp hmem]
        rfl
      have hstop := cleanupFrom_stop delim false 0 none (cell :: rest) (by simp) hend
      simp only [cleanup, cleanupWritten, hskip, hstop, Nat.zero_add, Option.getD_some,
        List.take_length]

theorem chars_cleanup {raw : List Traced} (delim : Option Char) (h : Trimmed (chars raw)) :
    chars (cleanup raw delim) = written delim false (chars raw) := by
  rw [cleanup_trimmed delim h]
  exact chars_cleanupFrom delim false 0 none raw

/-! ### The cleanup in place -/

/-- No entry ends the string. -/
def NulFree (cells : List Traced) : Prop := ∀ cell ∈ cells, cell.char ≠ '\x00'

theorem NulFree.append_left {left right : List Traced} (h : NulFree (left ++ right)) :
    NulFree left :=
  fun cell hcell => h cell (List.mem_append_left _ hcell)

theorem NulFree.append_right {left right : List Traced} (h : NulFree (left ++ right)) :
    NulFree right :=
  fun cell hcell => h cell (List.mem_append_right _ hcell)

theorem nulFree_iff (cells : List Traced) : NulFree cells ↔ '\x00' ∉ chars cells := by
  constructor
  · rintro h hmem
    obtain ⟨cell, hcell, hchar⟩ := List.mem_map.mp hmem
    exact h cell hcell hchar
  · rintro h cell hcell hchar
    exact h (hchar ▸ List.mem_map_of_mem hcell)

/-- A string between what is before it and its terminator is read as it is. -/
theorem cStr_append {pre s post : List Traced} {stop : Traced} (hs : NulFree s)
    (hstop : stop.char = '\x00') :
    (CBuffer.mk (pre ++ s ++ stop :: post)).cStr pre.length = s := by
  have hkept : ∀ cell ∈ s, decide (cell.char ≠ '\x00') = true := fun cell hcell => by
    simpa using hs cell hcell
  rw [CBuffer.cStr, List.append_assoc, List.drop_left, List.takeWhile_append_of_pos hkept]
  simp [hstop]

/-- A string at the start of a buffer. -/
theorem cStr_start {s : List Traced} {nul : Traced} (hs : NulFree s) (hnul : nul.char = '\x00')
    (post : List Traced) : (CBuffer.mk (s ++ nul :: post)).cStr 0 = s := by
  have hstr : (CBuffer.mk ([] ++ s ++ nul :: post)).cStr ([] : List Traced).length = s :=
    cStr_append hs hnul
  exact hstr

theorem cleanupFrom_length (delim : Option Char) (inside : Bool) (count : Nat) (stop : Option Nat)
    (cells : List Traced) : (cleanupFrom delim inside count stop cells).1.length ≤
    cells.length := by
  fun_induction cleanupFrom delim inside count stop cells with
  | case1 => exact Nat.le_refl _
  | case2 => exact Nat.le_refl _
  | case3 inside count stop cell hcell next rest e he later ih =>
      exact Nat.succ_le_succ (Nat.le_succ_of_le ih)
  | case4 inside count stop cell hcell next rest hnone later ih => exact Nat.succ_le_succ ih
  | case5 inside count stop cell rest hcell hquote ih => exact Nat.le_succ_of_le ih
  | case6 inside count stop cell rest hcell hquote kept later ih => exact Nat.succ_le_succ ih

/-- The terminator a cleanup writes stands behind entries it wrote. -/
theorem cleanupFrom_stop_le (delim : Option Char) (inside : Bool) (count : Nat) (stop : Option Nat)
    (cells : List Traced) (hstop : ∀ n ∈ stop, n ≤ count) :
    ∀ n ∈ (cleanupFrom delim inside count stop cells).2,
      n ≤ count + (cleanupFrom delim inside count stop cells).1.length := by
  fun_induction cleanupFrom delim inside count stop cells with
  | case1 inside count stop => exact hstop
  | case2 =>
      rintro n hn
      cases hn
      exact Nat.le_refl _
  | case3 inside count stop cell hcell next rest e he later ih =>
      intro n hn
      have hle := ih (by simp) n hn
      show n ≤ count + (later.1.length + 1)
      exact le_of_le_of_eq hle (by rw [Nat.add_assoc, Nat.add_comm 1])
  | case4 inside count stop cell hcell next rest hnone later ih =>
      intro n hn
      have hle := ih (by simp) n hn
      show n ≤ count + (later.1.length + 1)
      exact le_of_le_of_eq hle (by rw [Nat.add_assoc, Nat.add_comm 1])
  | case5 inside count stop cell rest hcell hquote ih =>
      refine ih ?_
      cases inside with
      | true => exact hstop
      | false => simp
  | case6 inside count stop cell rest hcell hquote kept later ih =>
      have hkept : ∀ n ∈ kept, n ≤ count + 1 := by
        intro n hn
        simp only [kept] at hn
        split at hn
        · cases hn
          exact Nat.le_refl _
        · exact Nat.le_succ_of_le (hstop n hn)
      intro n hn
      have hle := ih hkept n hn
      show n ≤ count + (later.1.length + 1)
      exact le_of_le_of_eq hle (by rw [Nat.add_assoc, Nat.add_comm 1])

theorem cleanupFrom_isSome (delim : Option Char) (inside : Bool) (count : Nat) (stop : Option Nat)
    (cells : List Traced) (hstop : stop.isSome = true) :
    (cleanupFrom delim inside count stop cells).2.isSome = true := by
  fun_induction cleanupFrom delim inside count stop cells with
  | case1 inside count stop => exact hstop
  | case2 => rfl
  | case3 inside count stop cell hcell next rest e he later ih => exact ih rfl
  | case4 inside count stop cell hcell next rest hnone later ih => exact ih rfl
  | case5 inside count stop cell rest hcell hquote ih =>
      refine ih ?_
      cases inside with
      | true => exact hstop
      | false => rfl
  | case6 inside count stop cell rest hcell hquote kept later ih =>
      refine ih ?_
      simp only [kept]
      split
      · rfl
      · exact hstop

/-- A cleanup that writes no terminator had only spaces to read. -/
theorem cleanupWritten_none {raw : List Traced} {delim : Option Char}
    (h : (cleanupWritten raw delim).2 = none) : skipSpaces raw = [] := by
  rw [cleanupWritten] at h
  cases hskip : skipSpaces raw with
  | nil => rfl
  | cons cell rest =>
      have hhead : cell.char ≠ ' ' := by
        have := List.head?_dropWhile_not (fun cell : Traced => decide (cell.char = ' ')) raw
        rw [← skipSpaces, hskip] at this
        simpa using this
      have hsome : (cleanupFrom delim false 0 none (cell :: rest)).2.isSome = true := by
        unfold cleanupFrom
        split
        · cases rest with
          | nil => rfl
          | cons next rest =>
              dsimp only
              split
              · exact cleanupFrom_isSome _ _ _ _ _ rfl
              · exact cleanupFrom_isSome _ _ _ _ _ rfl
        · split
          · exact cleanupFrom_isSome _ _ _ _ _ rfl
          · exact cleanupFrom_isSome _ _ _ _ _ (by rw [if_pos (Or.inl hhead)]; rfl)
      rw [hskip] at h
      rw [h] at hsome
      cases hsome

/-- A terminator is written over one entry. -/
theorem terminate_append (left right : List Traced) (cell : Traced) :
    (CBuffer.mk (left ++ cell :: right)).terminate left.length =
      ⟨left ++ { cell with char := '\x00' } :: right⟩ := by
  rw [CBuffer.terminate, CBuffer.mk.injEq]
  induction left with
  | nil => rfl
  | cons head left ih => exact congrArg (head :: ·) ih

/-- Entries are written over as many. -/
theorem overwrite_append (left old right new : List Traced) (h : new.length = old.length) :
    (CBuffer.mk (left ++ old ++ right)).overwrite left.length new = ⟨left ++ new ++ right⟩ := by
  have hdrop : (left ++ old ++ right).drop (left.length + new.length) = right := by
    rw [h, ← List.length_append, List.drop_left]
  rw [CBuffer.overwrite, hdrop, List.append_assoc left old right, List.take_left]

/-- A string is its leading spaces and the rest. -/
theorem leadingSpaces_append_skipSpaces (raw : List Traced) :
    ∃ lead : List Traced, lead ++ skipSpaces raw = raw ∧
      lead.length = leadingSpaces (chars raw) := by
  refine ⟨raw.takeWhile fun cell => cell.char = ' ', List.takeWhile_append_dropWhile, ?_⟩
  rw [leadingSpaces, chars, List.takeWhile_map, List.length_map]
  rfl

/-- `cleanup_separated_string` in place: the cleaned text stands behind the leading spaces, with a
terminator and leftovers behind it, the string's own terminator last, and nothing else changes. -/
theorem cleanup_inPlace (pre post : List Traced) {s : List Traced} {stop : Traced} (hs : NulFree s)
    (hstop : stop.char = '\x00') (delim : Option Char) :
    ∃ (lead junk : List Traced) (nul : Traced), nul.char = '\x00' ∧ lead ++ skipSpaces s = s ∧
      (nul :: junk).getLast? = some stop ∧
      lead.length + (cleanup s delim).length + junk.length = s.length ∧
      (CBuffer.mk (pre ++ s ++ stop :: post)).cleanup pre.length delim =
        (⟨pre ++ (lead ++ cleanup s delim ++ nul :: junk) ++ post⟩, pre.length + lead.length) := by
  obtain ⟨lead, hlead, hlength⟩ := leadingSpaces_append_skipSpaces s
  have hread : (CBuffer.mk (pre ++ s ++ stop :: post)).cStr pre.length = s := cStr_append hs hstop
  cases hwritten : (cleanupWritten s delim).2 with
  | none =>
      -- Only spaces: nothing is written and the terminator is the string's own.
      have hskip := cleanupWritten_none hwritten
      have hnil : (cleanupWritten s delim).1 = [] := by
        rw [cleanupWritten, hskip]
        rfl
      have hclean : cleanup s delim = [] := by simp [cleanup, hwritten]
      have hall : lead = s := by rw [← hlead, hskip, List.append_nil]
      refine ⟨lead, [], stop, hstop, hlead, rfl, ?_, ?_⟩
      · simp [hclean, hall]
      · have hcells := overwrite_append (pre ++ s) [] (stop :: post) [] rfl
        rw [List.length_append, List.append_nil] at hcells
        have hspaces : leadingSpaces (chars s) = s.length := by rw [← hlength, hall]
        simp only [CBuffer.cleanup, hread, hwritten, hnil, hspaces, hclean, hall, hcells]
        simp
  | some n =>
      have hn : n ≤ (cleanupWritten s delim).1.length := by
        have hle := cleanupFrom_stop_le delim false 0 none (skipSpaces s) (by simp) n hwritten
        rwa [Nat.zero_add] at hle
      have hfit : (cleanupWritten s delim).1.length ≤ (skipSpaces s).length :=
        cleanupFrom_length delim false 0 none (skipSpaces s)
      have hclean : cleanup s delim = (cleanupWritten s delim).1.take n := by
        simp [cleanup, hwritten]
      obtain ⟨x, junk, hregion⟩ : ∃ x junk, (cleanupWritten s delim).1.drop n ++
          ((skipSpaces s).drop (cleanupWritten s delim).1.length ++ [stop]) = x :: junk :=
        List.exists_cons_of_ne_nil (by simp)
      have hlengths : (cleanup s delim).length + (junk.length + 1) = (skipSpaces s).length + 1 := by
        have hcount := congrArg List.length hregion
        simp only [List.length_append, List.length_drop, List.length_cons, List.length_nil]
          at hcount
        rw [hclean, List.length_take]
        omega
      have hs' : s.length = lead.length + (skipSpaces s).length := by
        rw [← List.length_append, hlead]
      have hlast : ({ x with char := '\x00' } :: junk).getLast? = some stop := by
        have hregionLast := congrArg List.getLast? hregion
        rw [← List.append_assoc, List.getLast?_concat] at hregionLast
        cases junk with
        | nil =>
            obtain rfl : stop = x := by simpa using hregionLast
            rw [← hstop]
            rfl
        | cons y junk => simpa using hregionLast.symm
      refine ⟨lead, junk, { x with char := '\x00' }, rfl, hlead, hlast, by omega, ?_⟩
      have hcells : (CBuffer.mk (pre ++ s ++ stop :: post)).overwrite (pre.length + lead.length)
          (cleanupWritten s delim).1 =
            ⟨(pre ++ lead ++ cleanup s delim) ++ x :: (junk ++ post)⟩ := by
        have hsplit : pre ++ s ++ stop :: post = (pre ++ lead) ++
            (skipSpaces s).take (cleanupWritten s delim).1.length ++
              ((skipSpaces s).drop (cleanupWritten s delim).1.length ++ stop :: post) := by
          rw [List.append_assoc (pre ++ lead), ← List.append_assoc (List.take _ _),
            List.take_append_drop, List.append_assoc pre lead, ← List.append_assoc lead, hlead,
            List.append_assoc]
        rw [hsplit, ← List.length_append,
          overwrite_append _ _ _ _ (by rw [List.length_take, Nat.min_eq_left hfit]), hclean,
          CBuffer.mk.injEq]
        have hregion' : (cleanupWritten s delim).1.drop n ++
            ((skipSpaces s).drop (cleanupWritten s delim).1.length ++ stop :: post) =
              x :: (junk ++ post) := by
          rw [← List.cons_append, ← hregion]
          simp only [List.append_assoc, List.cons_append, List.nil_append]
        rw [← hregion', List.append_assoc (pre ++ lead) (List.take n _),
          ← List.append_assoc (List.take n _), List.take_append_drop,
          List.append_assoc (pre ++ lead)]
      have hend : pre.length + lead.length + n = (pre ++ lead ++ cleanup s delim).length := by
        rw [List.length_append, List.length_append, hclean, List.length_take, Nat.min_eq_left hn]
      simp only [CBuffer.cleanup, hread, hwritten, ← hlength, hcells, hend, terminate_append]
      simp only [List.append_assoc, List.cons_append]

/-! ### The split in place -/

/-- The scan for `delim` goes over a text inside a token and cuts nothing. -/
def Through (delim : Char) (inside : Bool) (x : Text) : Prop :=
  ∀ limit i begun rest, charDelimFrom delim limit i (some begun) inside (x ++ rest) =
    charDelimFrom delim limit (i + x.length) (some begun) inside rest

/-- A char the splits can cut on. -/
structure Cutting (delim : Char) : Prop where
  ne_nul : delim ≠ '\x00'
  ne_backslash : delim ≠ '\\'
  ne_quote : delim ≠ '\''
  ne_space : delim ≠ ' '

/-- A text cut into its raw tokens, none of them empty; one that reaches the limit may hold
anything. -/
inductive Pieces (delim : Char) : Option Nat → List Traced → List (List Traced) → Prop
  | last {limit : Option Nat} {p : List Traced} (hne : p ≠ []) (hnul : NulFree p)
      (hp : lastToken limit = true ∨ Through delim false (chars p)) : Pieces delim limit p [p]
  | cut {limit : Option Nat} {p s : List Traced} {cell : Traced} {ps : List (List Traced)}
      (hne : p ≠ []) (hnul : NulFree p) (hp : Through delim false (chars p))
      (hlimit : lastToken limit = false) (hcell : cell.char = delim)
      (hs : Pieces delim (fewer limit) s ps) : Pieces delim limit (p ++ cell :: s) (p :: ps)

/-- The spans of pieces one char apart from index `i` on, the last one ending at `stop`. -/
def spansOf (stop : Nat) (i : Nat) : List (List Traced) → List Span
  | [] => []
  | [_] => [⟨i, stop⟩]
  | p :: q :: ps => ⟨i, i + p.length⟩ :: spansOf stop (i + p.length + 1) (q :: ps)

/-- The first char of a token is read as any other. -/
theorem charDelimFrom_begin {c : Char} (hc : c ≠ '\x00') (delim : Char) {limit : Option Nat}
    (hlimit : lastToken limit = false) (i : Nat) (rest : Text) :
    charDelimFrom delim limit i none false (c :: rest) =
      charDelimFrom delim limit i (some i) false (c :: rest) := by
  conv_lhs => unfold charDelimFrom
  conv_rhs => unfold charDelimFrom
  simp [hc, hlimit]

theorem charDelimFrom_stop (delim : Char) (limit : Option Nat) (i begun : Nat) (inside : Bool)
    (rest : Text) :
    charDelimFrom delim limit i (some begun) inside ('\x00' :: rest) =
      ⟨[⟨begun, i⟩], false, inside⟩ := by
  simp [charDelimFrom]

theorem charDelimFrom_cut {delim : Char} (hdelim : Cutting delim) (limit : Option Nat)
    (i begun : Nat) (rest : Text) :
    charDelimFrom delim limit i (some begun) false (delim :: rest) =
      let later := charDelimFrom delim (fewer limit) (i + 1) none false rest
      { later with spans := ⟨begun, i⟩ :: later.spans } := by
  conv_lhs => unfold charDelimFrom
  simp [hdelim.ne_nul, hdelim.ne_backslash, hdelim.ne_quote]

theorem Pieces.ne_nil {delim : Char} {limit : Option Nat} {s : List Traced}
    {ps : List (List Traced)} (h : Pieces delim limit s ps) : ps ≠ [] := by
  cases h <;> simp

/-- The scan of a text cut into pieces. -/
theorem charDelimFrom_pieces {delim : Char} (hdelim : Cutting delim) {limit : Option Nat}
    {s : List Traced} {ps : List (List Traced)} (h : Pieces delim limit s ps) {nul : Traced}
    (hnul : nul.char = '\x00') (post : List Traced) (i : Nat) :
    ∃ stop, (stop = i + s.length ∨ stop = i + s.length + 1 + post.length) ∧
      charDelimFrom delim limit i none false (chars (s ++ nul :: post)) =
        ⟨spansOf stop i ps, false, false⟩ := by
  induction h generalizing i with
  | @last limit p hne hfree hp =>
      obtain ⟨cell, rest, rfl⟩ := List.exists_cons_of_ne_nil hne
      have hhead : cell.char ≠ '\x00' := hfree cell (List.mem_cons_self)
      cases hlimit : lastToken limit with
      | true =>
          refine ⟨i + (cell :: rest).length + 1 + post.length, .inr rfl, ?_⟩
          rw [List.cons_append, chars_cons]
          unfold charDelimFrom
          rw [if_neg hhead, if_pos ⟨rfl, hlimit⟩]
          simp only [length_chars, List.length_append, List.length_cons, spansOf, Cut.mk.injEq,
            List.cons.injEq, Span.mk.injEq, and_true, true_and]
          omega
      | false =>
          have hthrough := hp.resolve_left (by simp [hlimit])
          refine ⟨i + (cell :: rest).length, .inl rfl, ?_⟩
          rw [chars_append, chars_cons, List.cons_append,
            charDelimFrom_begin hhead delim hlimit, ← List.cons_append, ← chars_cons, hthrough,
            chars_cons nul, hnul, charDelimFrom_stop, length_chars]
          rfl
  | @cut limit p s cell ps hne hfree hp hlimit hcell hs ih =>
      obtain ⟨stop, hstop, hscan⟩ := ih (i + p.length + 1)
      refine ⟨stop, ?_, ?_⟩
      · simp only [List.length_append, List.length_cons]
        omega
      · obtain ⟨first, rest, rfl⟩ := List.exists_cons_of_ne_nil hne
        have hhead : first.char ≠ '\x00' := hfree first (List.mem_cons_self)
        rw [List.append_assoc, chars_append, chars_cons, List.cons_append,
          charDelimFrom_begin hhead delim hlimit, ← List.cons_append, ← chars_cons, hp,
          List.cons_append, chars_cons cell, hcell, charDelimFrom_cut hdelim, length_chars, hscan]
        obtain ⟨q, qs, rfl⟩ := List.exists_cons_of_ne_nil hs.ne_nil
        rfl

/-- Strings one behind the other, each but the last with its terminator. -/
inductive Strings : List Traced → List (List Traced) → Prop
  | last {p : List Traced} (hp : NulFree p) : Strings p [p]
  | cut {p s : List Traced} {nul : Traced} {ps : List (List Traced)} (hp : NulFree p)
      (hnul : nul.char = '\x00') (hs : Strings s ps) : Strings (p ++ nul :: s) (p :: ps)

theorem charAt_append (left right : List Traced) (cell : Traced) :
    (CBuffer.mk (left ++ cell :: right)).charAt left.length = cell.char := by
  simp [CBuffer.charAt]

theorem charAt_length (cells : List Traced) {index : Nat} (h : cells.length ≤ index) :
    (CBuffer.mk cells).charAt index = '\x00' := by
  simp [CBuffer.charAt, List.getElem?_eq_none h]

/-- Each piece is terminated where the scan cut it. -/
theorem terminateSpans_pieces {delim : Char} (hdelim : Cutting delim) {limit : Option Nat}
    {s : List Traced} {ps : List (List Traced)} (h : Pieces delim limit s ps) {nul : Traced}
    (hnul : nul.char = '\x00') (pre post : List Traced) {index i stop : Nat}
    (hindex : index + i = pre.length)
    (hstop : stop = i + s.length ∨ stop = i + s.length + 1 + post.length) :
    ∃ s', s'.length = s.length ∧ Strings s' ps ∧
      (CBuffer.mk (pre ++ s ++ nul :: post)).terminateSpans index delim (spansOf stop i ps) =
        ⟨pre ++ s' ++ nul :: post⟩ := by
  induction h generalizing pre i with
  | @last limit p hne hfree hp =>
      refine ⟨p, rfl, .last hfree, ?_⟩
      have hend : (CBuffer.mk (pre ++ p ++ nul :: post)).charAt (index + stop) = '\x00' := by
        rcases hstop with hstop | hstop
        · have : index + stop = (pre ++ p).length := by rw [List.length_append]; omega
          rw [this, charAt_append, hnul]
        · apply charAt_length
          simp only [List.length_append, List.length_cons]
          omega
      rw [spansOf, CBuffer.terminateSpans, List.foldl_cons, List.foldl_nil, hend,
        if_neg (Ne.symm hdelim.ne_nul)]
  | @cut limit p s cell ps hne hfree hp hlimit hcell hs ih =>
      obtain ⟨q, qs, rfl⟩ := List.exists_cons_of_ne_nil hs.ne_nil
      have hcut : index + (i + p.length) = (pre ++ p).length := by rw [List.length_append]; omega
      have hbuffer : pre ++ (p ++ cell :: s) ++ nul :: post =
          (pre ++ p) ++ cell :: (s ++ nul :: post) := by simp
      have hindex' : index + (i + p.length + 1) =
          (pre ++ p ++ [{ cell with char := '\x00' }]).length := by
        rw [List.length_append, ← hcut]
        rfl
      have hstop' : stop = i + p.length + 1 + s.length ∨
          stop = i + p.length + 1 + s.length + 1 + post.length := by
        simp only [List.length_append, List.length_cons] at hstop
        omega
      obtain ⟨s', hlength, hstrings, hbody⟩ := ih _ hindex' hstop'
      refine ⟨p ++ { cell with char := '\x00' } :: s', ?_, .cut hfree rfl hstrings, ?_⟩
      · simp [hlength]
      · show CBuffer.terminateSpans (if _ then _ else _) index delim (spansOf stop _ (q :: qs)) = _
        rw [hbuffer, hcut, charAt_append, if_pos hcell, terminate_append]
        simp only [List.append_assoc, List.cons_append, List.nil_append] at hbody ⊢
        exact hbody

/-- Strings that a buffer holds one behind the other from an index on, each anywhere in its slot. -/
inductive Slots : Nat → List Traced → List Nat → List (List Traced) → Prop
  | nil (base : Nat) : Slots base [] [] []
  | cons {base : Nat} {lead text junk rest : List Traced} {nul : Traced} {starts : List Nat}
      {texts : List (List Traced)} (htext : NulFree text) (hnul : nul.char = '\x00')
      (hrest : Slots (base + (lead ++ text ++ nul :: junk).length) rest starts texts) :
      Slots base (lead ++ text ++ nul :: junk ++ rest) ((base + lead.length) :: starts)
        (text :: texts)

theorem unescape_ne_nul {next e : Char} {delim : Option Char} (hnext : next ≠ '\x00')
    (h : unescape next delim = some e) : e ≠ '\x00' := by
  unfold unescape at h
  split_ifs at h with hself
  all_goals
    injection h with h
    subst h
    first
      | exact hnext
      | decide

theorem cleanupFrom_nulFree (delim : Option Char) (inside : Bool) (count : Nat) (stop : Option Nat)
    {cells : List Traced} (h : NulFree cells) :
    NulFree (cleanupFrom delim inside count stop cells).1 := by
  fun_induction cleanupFrom delim inside count stop cells with
  | case1 => exact h
  | case2 => exact h
  | case3 inside count stop cell hcell next rest e he later ih =>
      obtain ⟨-, hnext, hrest⟩ := by simpa [NulFree] using h
      intro x hx
      rcases List.mem_cons.mp hx with rfl | hx
      · exact unescape_ne_nul hnext he
      · exact ih hrest x hx
  | case4 inside count stop cell hcell next rest hnone later ih =>
      obtain ⟨hhead, hrest⟩ := List.forall_mem_cons.mp h
      exact List.forall_mem_cons.mpr ⟨hhead, ih hrest⟩
  | case5 inside count stop cell rest hcell hquote ih => exact ih (List.forall_mem_cons.mp h).2
  | case6 inside count stop cell rest hcell hquote kept later ih =>
      obtain ⟨hhead, hrest⟩ := List.forall_mem_cons.mp h
      exact List.forall_mem_cons.mpr ⟨hhead, ih hrest⟩

theorem cleanup_nulFree (delim : Option Char) {raw : List Traced} (h : NulFree raw) :
    NulFree (cleanup raw delim) := by
  have hskip : NulFree (skipSpaces raw) :=
    fun cell hcell => h cell ((List.dropWhile_suffix _).subset hcell)
  exact fun cell hcell =>
    cleanupFrom_nulFree delim false 0 none hskip cell (List.mem_of_mem_take hcell)

/-- Each string is cleaned in its slot. -/
theorem cleanSpans_strings (delim : Option Char) {s : List Traced}
    {ps : List (List Traced)} (h : Strings s ps) {nul : Traced} (hnul : nul.char = '\x00')
    (pre post : List Traced) {index i : Nat} (hindex : index + i = pre.length) (stop : Nat) :
    ∃ body tokens, body.length = s.length + 1 ∧
      Slots pre.length body (tokens.map (·.start)) (ps.map (cleanup · delim)) ∧
      tokens.map (·.raw) =
        (spansOf stop i ps).map (fun span => ⟨index + span.start, index + span.stop⟩) ∧
      (CBuffer.mk (pre ++ s ++ nul :: post)).cleanSpans index delim (spansOf stop i ps) =
        (⟨pre ++ body ++ post⟩, tokens) := by
  induction h generalizing pre i with
  | @last p hp =>
      obtain ⟨lead, junk, stopper, hstopper, -, -, hlength, hclean⟩ :=
        cleanup_inPlace pre post hp hnul delim
      refine ⟨lead ++ cleanup p delim ++ stopper :: junk, [⟨⟨index + i, index + stop⟩,
        pre.length + lead.length⟩], ?_, ?_, rfl, ?_⟩
      · simp only [List.length_append, List.length_cons]
        omega
      · have hslot : Slots pre.length (lead ++ cleanup p delim ++ stopper :: junk ++ [])
            [pre.length + lead.length] [cleanup p delim] :=
          .cons (cleanup_nulFree delim hp) hstopper (.nil _)
        rwa [List.append_nil] at hslot
      · simp only [spansOf, CBuffer.cleanSpans, hindex, hclean]
  | @cut p s cut ps hp hcut hs ih =>
      obtain ⟨lead, junk, stopper, hstopper, -, -, hlength, hclean⟩ :=
        cleanup_inPlace pre (s ++ nul :: post) hp hcut delim
      have hregion : (lead ++ cleanup p delim ++ stopper :: junk).length = p.length + 1 := by
        simp only [List.length_append, List.length_cons]
        omega
      have hindex' : index + (i + p.length + 1) =
          (pre ++ (lead ++ cleanup p delim ++ stopper :: junk)).length := by
        rw [List.length_append, hregion]
        omega
      obtain ⟨body, tokens, hbody, hslots, hraw, hrun⟩ := ih _ hindex'
      obtain ⟨q, qs, rfl⟩ : ∃ q qs, ps = q :: qs := by
        cases hs
        · exact ⟨_, _, rfl⟩
        · exact ⟨_, _, rfl⟩
      refine ⟨lead ++ cleanup p delim ++ stopper :: junk ++ body,
        ⟨⟨index + i, index + (i + p.length)⟩, pre.length + lead.length⟩ :: tokens, ?_, ?_, ?_, ?_⟩
      · rw [List.length_append, hregion, hbody]
        simp only [List.length_append, List.length_cons]
        omega
      · rw [List.length_append] at hslots
        exact .cons (cleanup_nulFree delim hp) hstopper hslots
      · rw [List.map_cons, hraw]
        rfl
      · have hbuffer : pre ++ (p ++ cut :: s) ++ nul :: post = pre ++ p ++ cut ::
            (s ++ nul :: post) := by
          simp
        rw [spansOf, CBuffer.cleanSpans, hbuffer, hindex, hclean, ← List.append_assoc _ s, hrun]
        simp only [List.append_assoc]

/-- What a split in place did: the buffer but for the text's own entries is unchanged, and the
cleaned pieces stand there. -/
structure SplitInto (pre s post : List Traced) (delim : Char) (ps : List (List Traced))
    (result : CBuffer × Split) (body : List Traced) (tokens : List SplitToken) : Prop where
  result_eq : result = (⟨pre ++ body ++ post⟩, ⟨tokens, delim, false, false, false⟩)
  length : body.length = s.length + 1
  slots : Slots pre.length body (tokens.map (·.start)) (ps.map (cleanup · (some delim)))

/-- **The split in place cuts a text into its pieces and cleans each in its slot.** -/
theorem split_inPlace {delim : Char} (hdelim : Cutting delim) {limit : Option Nat}
    (hlimit : limit ≠ some 0) {s : List Traced} {ps : List (List Traced)}
    (h : Pieces delim limit s ps) (pre post : List Traced) {nul : Traced}
    (hnul : nul.char = '\x00') :
    ∃ body tokens, SplitInto pre s post delim ps
      ((CBuffer.mk (pre ++ s ++ nul :: post)).split pre.length delim limit) body tokens := by
  obtain ⟨stop, hstop, hscan⟩ := charDelimFrom_pieces hdelim h hnul post 0
  obtain ⟨s', hlength, hstrings, hterminate⟩ :=
    terminateSpans_pieces hdelim h hnul pre post (Nat.add_zero pre.length) hstop
  obtain ⟨body, tokens, hbody, hslots, -, hclean⟩ :=
    cleanSpans_strings (some delim) hstrings hnul pre post (Nat.add_zero pre.length) stop
  have htext : chars ((pre ++ s ++ nul :: post).drop pre.length) = chars (s ++ nul :: post) := by
    rw [List.append_assoc, List.drop_left]
  have hresult : (CBuffer.mk (pre ++ s ++ nul :: post)).split pre.length delim limit =
      (⟨pre ++ body ++ post⟩, ⟨tokens, delim, false, false, false⟩) := by
    rw [CBuffer.split]
    simp only [htext, if_neg hlimit, if_neg hdelim.ne_space, charDelim, hscan, hterminate, hclean]
  exact ⟨body, tokens, hresult, by rw [hbody, hlength], hslots⟩

/-- No text opens with a head that names its separator. -/
def Headless (x : Text) : Prop := ¬ (x[0]? = some '^' ∧ x[1]? = some '^')

theorem argumentHead_headless {x : Text} (h : Headless x) : argumentHead x = .absent := by
  have hhead : ¬ ((x[0]?).getD '\x00' = '^' ∧ (x[1]?).getD '\x00' = '^') := by
    rintro ⟨hfirst, hsecond⟩
    refine h ⟨?_, ?_⟩
    · cases hx : x[0]? with
      | none => simp [hx] at hfirst
      | some c => simpa [hx] using hfirst
    · cases hx : x[1]? with
      | none => simp [hx] at hsecond
      | some c => simpa [hx] using hsecond
  rw [argumentHead]
  simp only
  rw [if_neg (fun hc => hhead ⟨hc.1, hc.2.1⟩), if_neg (fun hc => hhead ⟨hc.1, hc.2.1⟩)]

theorem separate_inPlace {delim : Char} (hdelim : Cutting delim) {limit : Option Nat}
    (hlimit : limit ≠ some 0) {s : List Traced} {ps : List (List Traced)}
    (h : Pieces delim limit s ps) (hfree : NulFree s) (hhead : Headless (chars s))
    (pre post : List Traced) {nul : Traced} (hnul : nul.char = '\x00') :
    ∃ body tokens, SplitInto pre s post delim ps
      ((CBuffer.mk (pre ++ s ++ nul :: post)).separate pre.length delim limit) body tokens := by
  rw [CBuffer.separate, cStr_append hfree hnul, argumentHead_headless hhead]
  exact split_inPlace hdelim hlimit h pre post hnul

end SwitchPasses
end EslTokio
