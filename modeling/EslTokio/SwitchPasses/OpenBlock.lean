import EslTokio.SwitchPasses.ThreadSplit

/-!
# A block that never closes

Where the delimiter of threads stands inside a block, its opener stays at the head of the first
thread and its closer is gone. The splits in place and the comma scan of a group move no bracket, so
what is read first of that thread still opens a block that nothing closes.

* `Unclosed` — a text that opens a bracket and never closes it; `Opens` — a buffer of such a leg.
* `Opens.separate` — a split in place leaves the block of its first token open.
* `Opens.leg`, `Opens.group`, `thread_unclosed` — a leg, a group and a thread of it are refused.
* **`dialList_unclosed`** — a block that holds the delimiter of threads is refused.
-/

namespace EslTokio
namespace SwitchPasses

open Library

/-! ### Brackets -/

variable {opener closer : Char} {x y : Text}

/-- A text that opens a bracket and never closes it. -/
def Unclosed (opener closer : Char) (x : Text) : Prop :=
  ∃ inside, x = opener :: inside ∧ (depthFrom opener closer 0 inside).isSome = true

theorem depthFrom_isSome_left {depth : Nat}
    (h : (depthFrom opener closer depth (x ++ y)).isSome = true) :
    (depthFrom opener closer depth x).isSome = true := by
  induction x generalizing depth with
  | nil => rfl
  | cons c x ih =>
      rw [List.cons_append] at h
      unfold depthFrom at h ⊢
      split_ifs at h ⊢ with hopen hclose
      · exact ih h
      · cases depth with
        | zero => cases h
        | succ depth => exact ih h
      · exact ih h

/-- A part of it from the opener on is one, too. -/
theorem Unclosed.of_prefix (h : Unclosed opener closer (x ++ y)) (hne : x ≠ []) :
    Unclosed opener closer x := by
  obtain ⟨inside, hinside, hdepth⟩ := h
  obtain ⟨c, x, rfl⟩ := List.exists_cons_of_ne_nil hne
  obtain ⟨rfl, rfl⟩ := List.cons.inj hinside
  exact ⟨x, rfl, depthFrom_isSome_left hdepth⟩

/-- No bracket closes it. -/
theorem Unclosed.findEndParen (h : Unclosed opener closer x) (hne : opener ≠ closer)
    (hspace : opener ≠ ' ') : findEndParen x opener closer = none := by
  obtain ⟨inside, rfl, hdepth⟩ := h
  obtain ⟨depth, hdepth⟩ := Option.isSome_iff_exists.mp hdepth
  have hopen : closeFrom opener closer 1 1 inside = none := by
    have hclose := closeFrom_depth hne hdepth 1 []
    rwa [List.append_nil] at hclose
  rw [SwitchPasses.findEndParen, leadingSpaces_cons hspace]
  simp [hopen]

theorem Unclosed.head (h : Unclosed opener closer x) : x.head? = some opener := by
  obtain ⟨inside, rfl, -⟩ := h
  rfl

/-- A char that no cleanup takes or writes. -/
def Unmoved (delim c : Char) : Prop :=
  c ∉ ['\\', '\'', '"', 'n', 'r', 't', 's', '\n', '\r', '\t', ' ', delim]

instance (delim c : Char) : Decidable (Unmoved delim c) := inferInstanceAs (Decidable (c ∉ _))

theorem Unmoved.ne {delim c d : Char} (h : Unmoved delim c)
    (hd : d ∈ ['\\', '\'', '"', 'n', 'r', 't', 's', '\n', '\r', '\t', ' ', delim]) : d ≠ c :=
  fun heq => h (heq ▸ hd)

/-- It stands on neither side of an escape. -/
theorem Unmoved.unescape {delim c next e : Char} (h : Unmoved delim c)
    (he : unescape next (some delim) = some e) : next ≠ c ∧ e ≠ c := by
  unfold SwitchPasses.unescape at he
  split_ifs at he with hself hn hr ht hs
  · obtain rfl := Option.some.inj he
    have hnext : next ≠ c := by
      rcases hself with hself | rfl | rfl | rfl
      · exact h.ne (Option.some.inj hself ▸ by simp)
      all_goals exact h.ne (by simp)
    exact ⟨hnext, hnext⟩
  all_goals
    obtain rfl := Option.some.inj he
    subst next
    exact ⟨h.ne (by simp), h.ne (by simp)⟩

theorem depthFrom_cons_of_ne {c : Char} (hopen : c ≠ opener) (hclose : c ≠ closer) (depth : Nat)
    (x : Text) :
    depthFrom opener closer depth (c :: x) = depthFrom opener closer depth x := by
  conv_lhs => unfold depthFrom
  rw [if_neg hopen, if_neg hclose]

/-- A bracket ahead of texts of one depth. -/
theorem depthFrom_cons_congr (h : ∀ depth, depthFrom opener closer depth x =
    depthFrom opener closer depth y) (c : Char) (depth : Nat) :
    depthFrom opener closer depth (c :: x) = depthFrom opener closer depth (c :: y) := by
  cases depth <;> simp only [depthFrom, h]

/-- A cleanup moves no bracket. -/
theorem depthFrom_cleanupFrom {delim : Char} (hopener : Unmoved delim opener)
    (hcloser : Unmoved delim closer) (inside : Bool) (count : Nat) (stop : Option Nat)
    (cells : List Traced) (depth : Nat) :
    depthFrom opener closer depth (chars (cleanupFrom (some delim) inside count stop cells).1) =
      depthFrom opener closer depth (chars cells) := by
  have hbackslash : '\\' ≠ opener ∧ '\\' ≠ closer := ⟨hopener.ne (by simp), hcloser.ne (by simp)⟩
  have hquote : '\'' ≠ opener ∧ '\'' ≠ closer := ⟨hopener.ne (by simp), hcloser.ne (by simp)⟩
  fun_induction cleanupFrom (some delim) inside count stop cells generalizing depth with
  | case1 => rfl
  | case2 => rfl
  | case3 inside count stop cell hcell next rest e he later ih =>
      -- Two chars are written as one, and neither they nor it is a bracket.
      have hopen := hopener.unescape he
      have hclose := hcloser.unescape he
      rw [chars_cons, chars_cons, chars_cons, hcell, depthFrom_cons_of_ne hopen.2 hclose.2, ih,
        depthFrom_cons_of_ne hbackslash.1 hbackslash.2, depthFrom_cons_of_ne hopen.1 hclose.1]
  | case4 inside count stop cell hcell next rest hnone later ih =>
      rw [chars_cons, chars_cons]
      exact depthFrom_cons_congr ih _ depth
  | case5 inside count stop cell rest hcell hheld ih =>
      rw [ih, chars_cons, hheld.1, depthFrom_cons_of_ne hquote.1 hquote.2]
  | case6 inside count stop cell rest hcell hheld kept later ih =>
      rw [chars_cons, chars_cons]
      exact depthFrom_cons_congr ih _ depth

/-- The end a cleanup writes moves on alone. -/
theorem cleanupFrom_stop_mono (delim : Option Char) (inside : Bool) (count : Nat)
    (stop : Option Nat) (cells : List Traced) {least : Nat} (hcount : least ≤ count)
    (h : ∃ n ∈ stop, least ≤ n) :
    ∃ n ∈ (cleanupFrom delim inside count stop cells).2, least ≤ n := by
  fun_induction cleanupFrom delim inside count stop cells with
  | case1 => exact h
  | case2 inside count stop cell hcell => exact ⟨count + 1, rfl, Nat.le_succ_of_le hcount⟩
  | case3 inside count stop cell hcell next rest e he later ih =>
      exact ih (Nat.le_succ_of_le hcount) ⟨count + 1, rfl, Nat.le_succ_of_le hcount⟩
  | case4 inside count stop cell hcell next rest hnone later ih =>
      exact ih (Nat.le_succ_of_le hcount) ⟨count + 1, rfl, Nat.le_succ_of_le hcount⟩
  | case5 inside count stop cell rest hcell hheld ih =>
      refine ih hcount ?_
      split_ifs
      · exact h
      · exact ⟨count, rfl, hcount⟩
  | case6 inside count stop cell rest hcell hheld kept later ih =>
      refine ih (Nat.le_succ_of_le hcount) ?_
      by_cases hkept : cell.char ≠ ' ' ∨ inside = true
      · exact ⟨count + 1, if_pos hkept, Nat.le_succ_of_le hcount⟩
      · obtain ⟨n, hn, hle⟩ := h
        exact ⟨n, (if_neg hkept).trans hn, hle⟩

/-- A cleanup leaves an unclosed bracket unclosed. -/
theorem Unclosed.cleanup {delim : Char} {cells : List Traced}
    (h : Unclosed opener closer (chars cells)) (hopener : Unmoved delim opener)
    (hcloser : Unmoved delim closer) :
    Unclosed opener closer (chars (cleanup cells (some delim))) := by
  obtain ⟨inside, hchars, hdepth⟩ := h
  obtain ⟨cell, rest, rfl, hcell, rfl⟩ := chars_eq_cons hchars
  have hplain : ¬ (cell.char = '\'' ∧ (false || hasQuote (chars rest)) = true) := fun hquote =>
    hopener.ne (by simp) (hquote.1.symm.trans hcell)
  have hbackslash : cell.char ≠ '\\' := hcell ▸ (hopener.ne (by simp)).symm
  have hspace : cell.char ≠ ' ' := hcell ▸ (hopener.ne (by simp)).symm
  have hskip : skipSpaces (cell :: rest) = cell :: rest := by
    rw [skipSpaces, List.dropWhile_cons_of_neg (by simpa using hspace)]
  have hwritten : cleanupWritten (cell :: rest) (some delim) =
      (cell :: (cleanupFrom (some delim) false 1 (some 1) rest).1,
        (cleanupFrom (some delim) false 1 (some 1) rest).2) := by
    rw [cleanupWritten, hskip]
    conv_lhs => unfold cleanupFrom
    rw [if_neg hbackslash, if_neg hplain]
    simp only [if_pos (Or.inl hspace : cell.char ≠ ' ' ∨ false = true), Nat.zero_add]
  -- The opener is written first, so that the end is behind it.
  obtain ⟨stop, hstop, hone⟩ := cleanupFrom_stop_mono (some delim) false 1 (some 1) rest
    (Nat.le_refl 1) ⟨1, rfl, Nat.le_refl 1⟩
  obtain ⟨stop, rfl⟩ := Nat.exists_eq_add_of_le' hone
  rw [SwitchPasses.cleanup]
  simp only [hwritten, Option.mem_def.mp hstop, Option.getD_some, List.take_succ_cons]
  generalize hlater : (cleanupFrom (some delim) false 1 (some 1) rest).1 = later
  refine ⟨chars (later.take stop), by rw [chars_cons, hcell], ?_⟩
  refine depthFrom_isSome_left (y := chars (later.drop stop)) ?_
  rw [← chars_append, List.take_append_drop, ← hlater, depthFrom_cleanupFrom]
  · exact hdepth
  · exact hopener
  · exact hcloser

/-- What the comma scan does to one entry. -/
theorem escapeBlockCommasFrom_cons (scan : CommaScan) (index : Nat) (cell : Traced)
    (cells : List Traced) :
    ∃ (c : Char) (later : CommaScan), escapeBlockCommasFrom scan index (cell :: cells) =
        { cell with char := c } :: escapeBlockCommasFrom later (index + 1) cells ∧
      (c = cell.char ∨ cell.char = ',' ∧ c ∈ [quotedEscComma, unquotedEscComma]) := by
  refine ⟨_, _, rfl, ?_⟩
  by_cases hcomma : cell.char = ','
  · refine (em _).imp_right fun hhidden => ⟨hcomma, ?_⟩
    split_ifs at hhidden ⊢ <;> simp at hhidden ⊢
  · exact .inl (if_neg fun hhides => hcomma (by simp_all))

/-- The comma scan moves no bracket and ends no text. -/
theorem escapeBlockCommasFrom_keeps (scan : CommaScan) (index : Nat) (cells : List Traced) :
    (∀ depth, depthFrom '[' ']' depth (chars (escapeBlockCommasFrom scan index cells)) =
      depthFrom '[' ']' depth (chars cells)) ∧
    (NulFree cells → NulFree (escapeBlockCommasFrom scan index cells)) := by
  induction cells generalizing scan index with
  | nil => exact ⟨fun depth => rfl, fun hfree => hfree⟩
  | cons cell cells ih =>
      obtain ⟨c, later, hstep, hc⟩ := escapeBlockCommasFrom_cons scan index cell cells
      obtain ⟨hdepth, hfree⟩ := ih later (index + 1)
      rw [hstep]
      constructor
      · intro depth
        rw [chars_cons, chars_cons]
        rcases hc with rfl | ⟨hcomma, hc⟩
        · exact depthFrom_cons_congr hdepth cell.char depth
        · have hhidden : c ≠ '[' ∧ c ≠ ']' :=
            (by decide : ∀ c ∈ [quotedEscComma, unquotedEscComma], c ≠ '[' ∧ c ≠ ']') c hc
          rw [hcomma, depthFrom_cons_of_ne hhidden.1 hhidden.2,
            depthFrom_cons_of_ne (by decide) (by decide), hdepth]
      · intro hcells
        obtain ⟨hcell, hcells⟩ := List.forall_mem_cons.mp hcells
        refine List.forall_mem_cons.mpr ⟨?_, hfree hcells⟩
        rcases hc with rfl | ⟨-, hc⟩
        · exact hcell
        · exact (by decide : ∀ c ∈ [quotedEscComma, unquotedEscComma], c ≠ '\x00') c hc

theorem Unclosed.escapeBlockCommas {cells : List Traced} (h : Unclosed '[' ']' (chars cells)) :
    Unclosed '[' ']' (chars (escapeBlockCommas cells)) := by
  obtain ⟨inside, hchars, hdepth⟩ := h
  obtain ⟨cell, rest, rfl, hcell, rfl⟩ := chars_eq_cons hchars
  obtain ⟨c, later, hstep, hc⟩ := escapeBlockCommasFrom_cons ⟨none, none, false, false⟩ 0 cell rest
  rw [SwitchPasses.escapeBlockCommas, hstep, chars_cons]
  refine ⟨_, ?_, ((escapeBlockCommasFrom_keeps later 1 rest).1 0).symm ▸ hdepth⟩
  rcases hc with rfl | ⟨hcomma, -⟩
  · rw [hcell]
  · rw [hcell] at hcomma
    exact absurd hcomma (by decide)

/-! ### In place -/

/-- A buffer whose first string opens a `[]` block that nothing closes, with a terminator at most
that far in. -/
def Opens (most : Nat) (buffer : CBuffer) : Prop :=
  ∃ (s post : List Traced) (nul : Traced), buffer.cells = s ++ nul :: post ∧
    nul.char = '\x00' ∧ NulFree s ∧ Unclosed '[' ']' (chars s) ∧ s.length ≤ most

variable {most index : Nat} {buffer : CBuffer}

theorem Unclosed.length_pos {cells : List Traced} (h : Unclosed opener closer (chars cells)) :
    0 < cells.length := by
  obtain ⟨inside, hchars, -⟩ := h
  rw [← length_chars, hchars]
  exact Nat.succ_pos _

theorem Opens.mono (h : Opens most buffer) {more : Nat} (hle : most ≤ more) :
    Opens more buffer := by
  obtain ⟨s, post, nul, hcells, hnul, hfree, hopen, hlength⟩ := h
  exact ⟨s, post, nul, hcells, hnul, hfree, hopen, hlength.trans hle⟩

theorem Opens.pos (h : Opens most buffer) : 0 < most := by
  obtain ⟨s, post, nul, -, -, -, hopen, hlength⟩ := h
  exact hopen.length_pos.trans_le hlength

theorem Opens.cStr (h : Opens most buffer) : Unclosed '[' ']' (chars (buffer.cStr 0)) ∧
    NulFree (buffer.cStr 0) := by
  obtain ⟨s, post, nul, hcells, hnul, hfree, hopen, -⟩ := h
  have hstr : buffer.cStr 0 = s := by
    obtain ⟨cells⟩ := buffer
    obtain rfl : cells = s ++ nul :: post := hcells
    exact cStr_start hfree hnul post
  rw [hstr]
  exact ⟨hopen, hfree⟩

theorem Opens.charAt (h : Opens most buffer) : buffer.charAt 0 = '[' := by
  obtain ⟨s, post, nul, hcells, -, -, ⟨inside, hchars, -⟩, -⟩ := h
  obtain ⟨cell, rest, rfl, hcell, -⟩ := chars_eq_cons hchars
  rw [CBuffer.charAt, hcells]
  exact hcell

/-- A terminator behind the opener leaves the block open. -/
theorem Opens.terminate (h : Opens most buffer) (hindex : index ≠ 0) :
    Opens (min most index) (buffer.terminate index) := by
  obtain ⟨s, post, nul, hcells, hnul, hfree, hopen, hlength⟩ := h
  obtain ⟨cells⟩ := buffer
  obtain rfl : cells = s ++ nul :: post := hcells
  rcases lt_trichotomy index s.length with hinside | rfl | hbehind
  · obtain ⟨left, cell, right, rfl, rfl, -⟩ := List.exists_of_modify id hinside
    refine ⟨left, right ++ nul :: post, { cell with char := '\x00' }, ?_, rfl, hfree.append_left,
      ?_, le_min (by rw [List.length_append] at hlength; omega) (Nat.le_refl _)⟩
    · rw [List.append_assoc, List.cons_append, terminate_append]
    · rw [chars_append] at hopen
      exact hopen.of_prefix fun hnil =>
        hindex (List.length_eq_zero_iff.mpr (List.map_eq_nil_iff.mp hnil))
  · exact ⟨s, post, { nul with char := '\x00' }, by rw [terminate_append], rfl, hfree, hopen,
      le_min hlength (Nat.le_refl _)⟩
  · obtain ⟨k, rfl⟩ := Nat.exists_eq_add_of_lt hbehind
    refine ⟨s, post.modify k fun cell => { cell with char := '\x00' }, nul, ?_, hnul, hfree, hopen,
      le_min hlength (by omega)⟩
    rw [CBuffer.terminate, Nat.add_assoc, List.modify, List.modifyTailIdx_add]
    rfl

/-- A write behind the first string leaves it. -/
theorem Opens.overwrite (h : Opens most buffer) (hindex : most < index) (cells : List Traced) :
    Opens most (buffer.overwrite index cells) := by
  obtain ⟨s, post, nul, hcells, hnul, hfree, hopen, hlength⟩ := h
  obtain ⟨k, rfl⟩ := Nat.exists_eq_add_of_lt (hlength.trans_lt hindex)
  refine ⟨s, post.take k ++ cells ++ buffer.cells.drop (s.length + k + 1 + cells.length), nul, ?_,
    hnul, hfree, hopen, hlength⟩
  rw [CBuffer.overwrite]
  simp only [hcells, Nat.add_assoc, List.take_length_add_append, List.take_succ_cons,
    List.append_assoc, List.cons_append]

/-- The cleanup of a string behind the first leaves it. -/
theorem Opens.cleanup_behind (h : Opens most buffer) (hindex : most < index)
    (delim : Option Char) : Opens most (buffer.cleanup index delim).1 := by
  have hbehind : most < index + leadingSpaces (chars (buffer.cStr index)) :=
    Nat.lt_add_right _ hindex
  have hwritten := h.overwrite hbehind (cleanupWritten (buffer.cStr index) delim).1
  rw [CBuffer.cleanup]
  simp only
  cases (cleanupWritten (buffer.cStr index) delim).2 with
  | none => exact hwritten
  | some stop => exact (hwritten.terminate (by omega)).mono (Nat.min_le_left _ _)

theorem Opens.cleanSpans (h : Opens most buffer) (delim : Option Char) {spans : List Span}
    (hspans : ∀ span ∈ spans, most < span.start) :
    Opens most (buffer.cleanSpans 0 delim spans).1 := by
  induction spans generalizing buffer with
  | nil => exact h
  | cons span spans ih =>
      obtain ⟨hspan, hspans⟩ := List.forall_mem_cons.mp hspans
      exact ih (h.cleanup_behind (by omega) delim) hspans

/-- The cleanup of the first string leaves its block open. -/
theorem Opens.cleanup_first {delim : Char} (h : Opens most buffer) (hopener : Unmoved delim '[')
    (hcloser : Unmoved delim ']') : (buffer.cleanup 0 (some delim)).2 = 0 ∧
      Opens most (buffer.cleanup 0 (some delim)).1 := by
  obtain ⟨s, post, nul, hcells, hnul, hfree, hopen, hlength⟩ := h
  obtain ⟨cells⟩ := buffer
  obtain rfl : cells = s ++ nul :: post := hcells
  obtain ⟨lead, junk, stop, hstop, hlead, -, hfit, hclean⟩ :=
    cleanup_inPlace [] post hfree hnul (some delim)
  have hskip : skipSpaces s = s := skipSpaces_trimmed fun c hc => by
    rw [hopen.head] at hc
    obtain rfl := Option.some.inj hc
    decide
  obtain rfl : lead = [] := by rwa [hskip, List.append_left_eq_self] at hlead
  simp only [List.nil_append, List.length_nil] at hclean hfit
  rw [hclean]
  refine ⟨rfl, _, junk ++ post, stop, by simp, hstop, cleanup_nulFree _ hfree,
    hopen.cleanup hopener hcloser, by omega⟩

/-! ### The split -/

/-- Every span cut starts at its token, or further on. -/
theorem charDelimFrom_starts (delim : Char) (limit : Option Nat) (i : Nat) (start : Option Nat)
    (inside : Bool) (text : Text) {least : Nat} (hi : least ≤ i) (hstart : least ≤ start.getD i) :
    ∀ span ∈ (charDelimFrom delim limit i start inside text).spans, least ≤ span.start := by
  have hopen : ∀ (start : Option Nat) (i : Nat), least ≤ start.getD i →
      ∀ span ∈ (start.map (⟨·, i⟩ : Nat → Span)).toList, least ≤ span.start := by
    intro start i hstart span hspan
    cases start with
    | none => cases hspan
    | some begun =>
        obtain rfl := List.mem_singleton.mp hspan
        exact hstart
  fun_induction charDelimFrom delim limit i start inside text with
  | case1 limit i start => exact hopen start i hstart
  | case2 limit i start => exact hopen start i hstart
  | case3 =>
      intro span hspan
      obtain rfl := List.mem_singleton.mp hspan
      exact hi
  | case4 =>
      intro span hspan
      obtain rfl := List.mem_singleton.mp hspan
      exact hstart
  | case5 limit i start inside hlast begun c rest hnul ih =>
      exact ih (Nat.le_add_right_of_le hi) hstart
  | case6 limit i start inside c rest hnul hlast begun hbackslash hquote ih =>
      exact ih (Nat.le_add_right_of_le hi) hstart
  | case7 limit i start inside c rest hnul hlast begun hbackslash hquote hcut later ih =>
      intro span hspan
      rcases List.mem_cons.mp hspan with rfl | hspan
      · exact hstart
      · exact ih (Nat.le_add_right_of_le hi) (Nat.le_add_right_of_le hi) span hspan
  | case8 limit i start inside c rest hnul hlast begun hbackslash hquote hcut later ih =>
      exact ih (Nat.le_add_right_of_le hi) hstart

/-- What the scan cuts first: at a delimiter, where anything else is cut behind. -/
theorem charDelimFrom_first (delim : Char) (limit : Option Nat) (i begun : Nat) (inside : Bool)
    (text : Text) : ∃ stop later,
      (charDelimFrom delim limit i (some begun) inside text).spans = ⟨begun, stop⟩ :: later ∧
      (later ≠ [] → (∃ before after, text = before ++ delim :: after ∧ stop = i + before.length) ∧
        ∀ span ∈ later, stop < span.start) := by
  generalize hstart : some begun = start
  fun_induction charDelimFrom delim limit i start inside text with
  | case1 limit i start =>
      subst hstart
      exact ⟨i, [], rfl, fun hne => absurd rfl hne⟩
  | case2 limit i start =>
      subst hstart
      exact ⟨i, [], rfl, fun hne => absurd rfl hne⟩
  | case3 limit i start inside c rest hnul hlast =>
      rw [← hstart] at hlast
      cases hlast.1
  | case4 limit i start inside hlast held hnul =>
      subst hstart
      exact ⟨i + 1, [], rfl, fun hne => absurd rfl hne⟩
  | case5 limit i start inside hlast held c rest hnul ih =>
      subst hstart
      obtain ⟨stop, later, hspans, hcut⟩ := ih rfl
      refine ⟨stop, later, hspans, fun hne => ?_⟩
      obtain ⟨⟨before, after, rfl, rfl⟩, hlater⟩ := hcut hne
      exact ⟨⟨'\\' :: c :: before, after, rfl, by simp only [List.length_cons]; omega⟩, hlater⟩
  | case6 limit i start inside c rest hnul hlast held hbackslash hquote ih =>
      subst hstart
      obtain ⟨stop, later, hspans, hcut⟩ := ih rfl
      refine ⟨stop, later, hspans, fun hne => ?_⟩
      obtain ⟨⟨before, after, rfl, rfl⟩, hlater⟩ := hcut hne
      exact ⟨⟨c :: before, after, rfl, by simp only [List.length_cons]; omega⟩, hlater⟩
  | case7 limit i start inside c rest hnul hlast held hbackslash hquote hcut later ih =>
      subst hstart
      refine ⟨i, later.spans, rfl, fun _ => ⟨⟨[], rest, by rw [hcut.1]; rfl, rfl⟩, ?_⟩⟩
      exact charDelimFrom_starts delim _ (i + 1) none inside rest (Nat.le_refl _) (Nat.le_refl _)
  | case8 limit i start inside c rest hnul hlast held hbackslash hquote hcut later ih =>
      subst hstart
      obtain ⟨stop, spans, hspans, hcut⟩ := ih rfl
      refine ⟨stop, spans, hspans, fun hne => ?_⟩
      obtain ⟨⟨before, after, rfl, rfl⟩, hlater⟩ := hcut hne
      exact ⟨⟨c :: before, after, rfl, by simp only [List.length_cons]; omega⟩, hlater⟩
/-- What the terminators of a split leave open. -/
theorem Opens.terminateSpans {delim : Char} (h : Opens most buffer) (hdelim : delim ≠ '[')
    (spans : List Span) : Opens most (buffer.terminateSpans 0 delim spans) := by
  induction spans generalizing buffer with
  | nil => exact h
  | cons span spans ih =>
      show Opens most (CBuffer.terminateSpans (if _ then _ else _) 0 delim spans)
      split_ifs with hcut
      · have hindex : 0 + span.stop ≠ 0 := fun hzero =>
          hdelim (hcut.symm.trans ((congrArg _ hzero).trans h.charAt))
        exact ih ((h.terminate hindex).mono (Nat.min_le_left _ _))
      · exact ih h

/-- The chars that the splits of a list of legs cut at. -/
structure CutsLegs (delim : Char) : Prop where
  cutting : Cutting delim
  opener : Unmoved delim '['
  closer : Unmoved delim ']'

theorem cutsLegs_comma : CutsLegs ',' := ⟨cutting_comma, by decide, by decide⟩

theorem cutsLegs_pipe : CutsLegs '|' := ⟨cutting_pipe, by decide, by decide⟩

/-- **A split in place leaves the block open that its text opens with.** -/
theorem Opens.separate {delim : Char} (h : Opens most buffer) (hdelim : CutsLegs delim) :
    ∃ (result : CBuffer) (token : SplitToken) (tokens : List SplitToken) (held quote : Bool),
      buffer.separate 0 delim (some maxPeers) =
        (result, ⟨token :: tokens, delim, held, quote, false⟩) ∧
      token.start = 0 ∧ Opens most result := by
  have hopener : delim ≠ '[' := by
    rintro rfl
    exact absurd hdelim.opener (by decide)
  have hhead : argumentHead (chars (buffer.cStr 0)) = .absent := by
    refine argumentHead_headless (headless_of_head ?_)
    rw [h.cStr.1.head]
    decide
  have hcut : charDelim (chars (buffer.cells.drop 0)) delim (some maxPeers) =
      charDelimFrom delim (some maxPeers) 0 (some 0) false (chars buffer.cells) := by
    obtain ⟨cell, cells, hcells, hcell⟩ : ∃ cell cells, buffer.cells = cell :: cells ∧
        cell.char = '[' := by
      obtain ⟨s, post, nul, hcells, -, -, ⟨inside, hchars, -⟩, -⟩ := h
      obtain ⟨cell, rest, rfl, hcell, -⟩ := chars_eq_cons hchars
      exact ⟨cell, rest ++ nul :: post, hcells, hcell⟩
    rw [List.drop_zero, hcells, chars_cons, hcell, charDelim]
    exact charDelimFrom_begin (by decide) delim (rfl : lastToken (some maxPeers) = false) 0 _
  obtain ⟨stop, later, hspans, hlater⟩ :=
    charDelimFrom_first delim (some maxPeers) 0 0 false (chars buffer.cells)
  -- Where more than one span is cut, the first ends at a terminator ahead of all others.
  obtain ⟨bound, hbound, hterminated, hbehind⟩ : ∃ bound ≤ most,
      Opens bound (buffer.terminateSpans 0 delim (⟨0, stop⟩ :: later)) ∧
        ∀ span ∈ later, bound < span.start := by
    by_cases hone : later = []
    · exact ⟨most, Nat.le_refl _, h.terminateSpans hopener _, by simp [hone]⟩
    · obtain ⟨⟨before, after, htext, hstop⟩, hbehind⟩ := hlater hone
      have hcharAt : buffer.charAt (0 + stop) = delim := by
        have hcells : (chars buffer.cells)[0 + stop]? = some delim := by simp [htext, hstop]
        rw [chars, List.getElem?_map] at hcells
        obtain ⟨cell, hcell, rfl⟩ := Option.map_eq_some_iff.mp hcells
        rw [CBuffer.charAt, hcell]
        rfl
      have hindex : 0 + stop ≠ 0 := fun hzero =>
        hopener (hcharAt.symm.trans ((congrArg _ hzero).trans h.charAt))
      have hfirst := (h.terminate hindex).terminateSpans hopener later
      refine ⟨min most (0 + stop), Nat.min_le_left _ _, ?_, fun span hspan => ?_⟩
      · show Opens _ (CBuffer.terminateSpans (if _ then _ else _) 0 delim later)
        rwa [if_pos hcharAt]
      · have := hbehind span hspan
        omega
  obtain ⟨hstart, hcleaned⟩ := hterminated.cleanup_first hdelim.opener hdelim.closer
  let terminated := buffer.terminateSpans 0 delim (⟨0, stop⟩ :: later)
  let cleaned := terminated.cleanup 0 (some delim)
  let cut := charDelimFrom delim (some maxPeers) 0 (some 0) false (chars buffer.cells)
  have hsplit : buffer.separate 0 delim (some maxPeers) =
      ((cleaned.1.cleanSpans 0 (some delim) later).1,
        ⟨⟨⟨0 + 0, 0 + stop⟩, cleaned.2⟩ :: (cleaned.1.cleanSpans 0 (some delim) later).2, delim,
          cut.heldDelimiter, cut.openQuote, false⟩) := by
    rw [CBuffer.separate, hhead]
    simp only [CBuffer.split, hcut, hspans, if_neg hdelim.cutting.ne_space,
      if_neg (by decide : some maxPeers ≠ some 0)]
    rfl
  exact ⟨_, _, _, _, _, hsplit, hstart, (hcleaned.cleanSpans (some delim) hbehind).mono hbound⟩

/-! ### What is read of it -/

variable {reader : Reader}

/-- The block at the start of a buffer is refused where nothing closes it. -/
theorem blocksOf_unclosed {comma : Char} {leg fuel : Nat} {blockParse : BlockParse}
    {unhide : CBuffer → Nat → CBuffer}
    (h : Unclosed opener closer (chars (buffer.cStr 0))) (hcharAt : buffer.charAt 0 = opener)
    (hne : opener ≠ closer) (hspace : opener ≠ ' ') (hunhide : unhide buffer 0 = buffer)
    (hfuel : 0 < fuel) :
    blocksOf opener closer comma leg blockParse unhide fuel buffer 0 =
      .error (.unclosedBlock leg) := by
  obtain ⟨fuel, rfl⟩ := Nat.exists_eq_add_of_lt hfuel
  have hparse : parseBlock buffer 0 opener closer comma blockParse = none := by
    rw [parseBlock]
    simp only [h.findEndParen hne hspace]
  rw [Nat.zero_add]
  unfold blocksOf
  rw [if_pos hcharAt, hunhide, hparse]

/-- **A leg that opens a block nothing closes is refused.** -/
theorem Opens.leg (h : Opens most buffer) (reader : Reader) (raw : Span) :
    reader.leg buffer 0 raw = .error (.unclosedBlock reader.legs) := by
  have hopen := h.cStr.1
  have hspaces : leadingSpaces (chars (buffer.cStr 0)) = 0 := leadingSpaces_trimmed fun c hc => by
    rw [hopen.head] at hc
    obtain rfl := Option.some.inj hc
    decide
  have hunhide : unhideCommas buffer 0 = buffer := by
    rw [unhideCommas, hopen.findEndParen (by decide) (by decide)]
  have hfuel : 0 < buffer.cells.length := by
    obtain ⟨s, post, nul, hcells, -⟩ := h
    rw [hcells, List.length_append, List.length_cons]
    omega
  rw [Reader.leg, hspaces]
  simp only [Nat.add_zero, blocksOf_unclosed hopen h.charAt (by decide) (by decide) hunhide hfuel]
  rfl

/-- The comma scan leaves it open. -/
theorem Opens.escapeBlockCommas (h : Opens most buffer) :
    Opens most (buffer.overwrite 0 (escapeBlockCommas (buffer.cStr 0))) := by
  have hopen := h.cStr
  obtain ⟨s, post, nul, hcells, hnul, hfree, -, hlength⟩ := h
  obtain ⟨cells⟩ := buffer
  obtain rfl : cells = s ++ nul :: post := hcells
  have hstr : (CBuffer.mk (s ++ nul :: post)).cStr 0 = s := cStr_start hfree hnul post
  rw [hstr] at hopen ⊢
  have hover := overwrite_append [] s (nul :: post) (SwitchPasses.escapeBlockCommas s)
    (escapeBlockCommasFrom_length _ 0 s)
  simp only [List.nil_append, List.length_nil] at hover
  rw [hover]
  refine ⟨_, post, nul, rfl, hnul, (escapeBlockCommasFrom_keeps _ 0 s).2 hfree,
    hopen.1.escapeBlockCommas, ?_⟩
  rw [SwitchPasses.escapeBlockCommas, escapeBlockCommasFrom_length]
  exact hlength

/-- A group is, too. -/
theorem Opens.group (h : Opens most buffer) (reader : Reader) (raw : Span) :
    ∃ e, reader.group buffer 0 raw = .error e := by
  obtain ⟨result, token, tokens, held, quote, hseparate, hstart, hresult⟩ :=
    h.escapeBlockCommas.separate cutsLegs_comma
  rw [Reader.group]
  simp only [hseparate, Bool.false_eq_true, if_false, Reader.readLegs, hstart, hresult.leg]
  exact ⟨_, rfl⟩

/-- **A thread is, too.** -/
theorem thread_unclosed {text s : List Traced} {nul : Traced} {lo : Nat}
    (hnew : CBuffer.new text = ⟨s ++ [nul, nul]⟩) (hnul : nul.char = '\x00') (hfree : NulFree s)
    (hspelled : Spelled 0 lo s) (hchars : (chars text).head? = (chars s).head?)
    (hopen : Unclosed '[' ']' (chars s)) (raw : Span) :
    ∃ e, reader.thread text raw = .error e := by
  have hbare : HeadReads reader.blockParse text [] s :=
    headReads_bare hnew hnul hfree hchars fun c hc => by
      rw [hopen.head] at hc
      obtain rfl := Option.some.inj hc
      decide
  obtain ⟨head, hblocks, -, hdata⟩ := hbare reader.legs
  obtain ⟨nul', hnul', hnew'⟩ := CBuffer.new_spelled hspelled
  have hopens : Opens s.length (CBuffer.new s) :=
    ⟨s, [nul'], nul', by rw [hnew'], hnul', hfree, hopen, Nat.le_refl _⟩
  obtain ⟨result, token, tokens, held, quote, hseparate, hstart, hresult⟩ :=
    hopens.separate cutsLegs_pipe
  have hne : s ≠ [] := by
    rintro rfl
    exact absurd hopen.length_pos (Nat.lt_irrefl 0)
  obtain ⟨e, hgroup⟩ := hresult.group
    { reader with quoteSpansLegs := reader.quoteSpansLegs || held }
      (byteRange head.scanned raw (head.span 0 token.raw))
  refine ⟨e, ?_⟩
  rw [Reader.thread, hblocks]
  simp only [bind, Except.bind, hdata, if_neg hne, hseparate, Bool.false_eq_true, if_false,
    Reader.readGroups, hstart, hgroup]

/-- A thread whose text opens a default block that nothing closes is refused. -/
theorem thread_unclosed_default {text s : List Traced} {nul : Traced}
    (hnew : CBuffer.new text = ⟨s ++ [nul, nul]⟩) (hnul : nul.char = '\x00') (hfree : NulFree s)
    (hchars : (chars text).head? = (chars s).head?) (hopen : Unclosed '{' '}' (chars s))
    (raw : Span) : reader.thread text raw = .error (.unclosedBlock reader.legs) := by
  have hspaces : leadingSpaces (chars text) = 0 := leadingSpaces_trimmed fun c hc => by
    rw [hchars, hopen.head] at hc
    obtain rfl := Option.some.inj hc
    decide
  have hcharAt : (CBuffer.mk (s ++ [nul, nul])).charAt 0 = '{' := by
    have hhead := charAt_head (s := s) hnul [] [nul]
    rwa [hopen.head] at hhead
  have hstr : (CBuffer.mk (s ++ [nul, nul])).cStr 0 = s := cStr_start hfree hnul [nul]
  have habsent : (CBuffer.mk (s ++ [nul, nul])).charAt 0 ≠ '<' := by
    rw [hcharAt]
    decide
  have hblocks : headBlocks text [('<', '>'), ('{', '}')] reader.legs reader.blockParse =
      .error (.unclosedBlock reader.legs) := by
    rw [headBlocks, hnew, hspaces]
    simp only [List.foldlM_cons, bind, Except.bind, pure, Except.pure, blocksOf_absent habsent]
    rw [blocksOf_unclosed (hstr.symm ▸ hopen) hcharAt (by decide) (by decide) rfl (by simp)]
  rw [Reader.thread, hblocks]
  rfl

/-! ### Threads that a separator makes -/

/-- Where a text opens no enterprise block, its threads are read from its start. -/
theorem headBlocks_unopened {text s : List Traced} {nul : Traced}
    (hnew : CBuffer.new text = ⟨s ++ [nul, nul]⟩) (hnul : nul.char = '\x00') (hfree : NulFree s)
    (hchars : (chars text).head? = (chars s).head?)
    (hhead : ∀ c ∈ (chars s).head?, c ≠ ' ' ∧ c ≠ '<') (leg : Nat)
    (blockParse : BlockParse) :
    ∃ head, headBlocks text [('<', '>')] leg blockParse = .ok head ∧ head.blocks = [] ∧
      head.stop = 0 ∧ head.data = 0 ∧ head.scanned = s := by
  have hspaces : leadingSpaces (chars text) = 0 := leadingSpaces_trimmed fun c hc =>
    (hhead c (hchars ▸ hc)).1
  have hspaces' : leadingSpaces (chars s) = 0 := leadingSpaces_trimmed fun c hc => (hhead c hc).1
  have habsent : (CBuffer.mk (s ++ [nul, nul])).charAt 0 ≠ '<' := by
    have hcharAt : (CBuffer.mk (s ++ [nul, nul])).charAt 0 = (chars s).head?.getD '\x00' :=
      charAt_head (s := s) hnul [] [nul]
    rw [hcharAt]
    exact head_ne (by decide) fun c hc => (hhead c hc).2
  have hstr : (CBuffer.mk (s ++ [nul, nul])).cStr 0 = s := cStr_start hfree hnul [nul]
  refine ⟨⟨[], s ++ [nul, nul], 0, 0, s.length⟩, ?_, rfl, rfl, rfl, List.take_left⟩
  rw [headBlocks, hnew, hspaces]
  simp only [List.foldlM_cons, List.foldlM_nil, bind, Except.bind, pure, Except.pure,
    blocksOf_absent habsent, List.append_nil, hstr, hspaces', Nat.zero_add, if_true]

/-- The first thread of a text that holds the delimiter inside the block it opens. -/
theorem find_inside {data : Text} (h : enterpriseDelim <:+: data) (opener : Char) (rest : Text) :
    ∃ found, find (opener :: (data ++ rest)) enterpriseDelim = some found ∧
      (opener :: (data ++ rest)).take found <+: opener :: data ∧
      enterpriseDelim <+: (opener :: (data ++ rest)).drop found := by
  obtain ⟨found, hfound⟩ := Option.isSome_iff_exists.mp
    (Search.isSome_find_iff.mpr (List.infix_cons (a := opener) h))
  have hwhole := Search.find_append_of_some (by decide) hfound rest
  have hfit := Search.find_add_length_le (by decide) hfound
  refine ⟨found, hwhole, ?_, (Search.find_eq_some hwhole).1⟩
  rw [← List.cons_append, List.take_append_of_le_length (Nat.le_of_add_right_le hfit)]
  exact List.take_prefix _ _

/-- **A delimiter of threads inside a block cuts it open, and the switch refuses it**: only an
enterprise block is taken off ahead of the threads. -/
theorem dialList_unclosed {blockParse : BlockParse}
    (hkind : (opener, closer) = ('{', '}') ∨ (opener, closer) = ('[', ']')) {cells : List Traced}
    (hordered : Ordered 0 cells) {data rest : Text}
    (hchars : chars cells = opener :: (data ++ rest)) (hfree : '\x00' ∉ chars cells)
    (hbalanced : Balanced opener closer data) (hthreads : enterpriseDelim <:+: data) (raw : Span)
    (carried : Bool) : ∃ e, dialList cells raw carried blockParse = .error e := by
  obtain ⟨s, nul, hnul, hspelled, hspell, hnew⟩ := CBuffer.new_ordered hordered
  have hascii : opener.toNat < 128 ∧ closer.toNat < 128 ∧ opener ≠ ' ' ∧ opener ≠ '<' ∧
      opener ≠ ':' := by
    rcases hkind with hkind | hkind <;> obtain ⟨rfl, rfl⟩ := Prod.mk.inj hkind <;> decide
  have hs : NulFree s := by
    rw [nulFree_iff, hspell]
    exact nul_notMem_spell hfree
  have hbytes : chars s = opener :: (spell data ++ spell rest) := by
    rw [hspell, hchars, spell_cons, utf8Size_ascii hascii.1, spell_append]
    rfl
  have hhead : (chars cells).head? = (chars s).head? := by rw [hspell, head_spell]
  obtain ⟨found, hfound, htake, hdrop⟩ := find_inside
    (infix_spell (spell_ascii ascii_enterpriseDelim) hthreads) opener (spell rest)
  rw [← hbytes] at hfound htake hdrop
  have hopen : Unclosed opener closer (opener :: spell data) :=
    ⟨_, rfl, Option.isSome_iff_exists.mpr ⟨0, hbalanced.spell hascii.1 hascii.2.1⟩⟩
  -- The first thread ends at the colon found, behind the opener.
  obtain ⟨left, right, rfl, hleft, hright⟩ := chars_eq_append
    (List.take_append_drop found (chars s)).symm
  have hlength : left.length = found := by
    rw [← length_chars, hleft, List.length_take, Nat.min_eq_left]
    exact Nat.le_of_add_right_le (Search.find_add_length_le (by decide) hfound)
  rw [← hleft] at htake
  rw [← hright] at hdrop
  obtain ⟨behind, hbehind⟩ := hdrop
  obtain ⟨cell, right, rfl, hcell, -⟩ := chars_eq_cons (c := ':') hbehind.symm
  have hfirst : Unclosed opener closer (chars left) := by
    obtain ⟨behind, hbehind⟩ := htake
    refine Unclosed.of_prefix (y := behind) (hbehind ▸ hopen) fun hnil => ?_
    rw [chars_append, hnil, List.nil_append, chars_cons, hcell] at hbytes
    exact hascii.2.2.2.2 (List.cons.inj hbytes).1.symm
  obtain ⟨head, hblocks, -, hstop, hdata, hscanned⟩ := headBlocks_unopened hnew hnul hs hhead
    (fun c hc => by
      rw [hbytes] at hc
      obtain rfl := Option.some.inj hc
      exact ⟨hascii.2.2.1, hascii.2.2.2.1⟩) 0 blockParse
  obtain ⟨hspelled, -⟩ := hspelled.append (by rw [hcell]; decide)
  obtain ⟨nul', hnul', hnew'⟩ := CBuffer.new_spelled hspelled
  have hthread : ∀ raw, ∃ e, Reader.thread ⟨blockParse, 0, false⟩ left raw = .error e := by
    intro raw
    rcases hkind with hkind | hkind <;> obtain ⟨rfl, rfl⟩ := Prod.mk.inj hkind
    · exact ⟨_, thread_unclosed_default hnew' hnul' hs.append_left rfl hfirst raw⟩
    · exact thread_unclosed hnew' hnul' hs.append_left hspelled rfl hfirst raw
  have hfind : (find (chars cells) enterpriseDelim).isSome = true := by
    refine Search.isSome_find_iff.mpr ?_
    rw [hchars]
    exact List.infix_cons (hthreads.trans (List.prefix_append _ _).isInfix)
  obtain ⟨spans, hspans⟩ := separateStringString_first hfound (by decide : 2 ≤ maxPeers)
  have hspan : (head.scanned.take (head.span 0 ⟨0, found⟩).stop).drop
      (head.span 0 ⟨0, found⟩).start = left := by
    rw [HeadBlocks.span, if_pos ⟨rfl, rfl⟩, hstop, hdata, Nat.add_zero, hscanned, ← hlength,
      List.take_left, List.drop_zero]
  obtain ⟨e, hthread⟩ := hthread (byteRange head.scanned raw (head.span 0 ⟨0, found⟩))
  refine ⟨e, ?_⟩
  rw [dialList, if_pos hfind, hblocks]
  simp only [bind, Except.bind]
  rw [hdata, List.drop_zero, hscanned, hspans, Reader.readThreads]
  simp only [bind, Except.bind, hspan, hthread]

end SwitchPasses
end EslTokio
