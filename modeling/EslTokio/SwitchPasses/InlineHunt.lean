import EslTokio.SwitchPasses.ArgumentLine
import Mathlib.Algebra.Order.BigOperators.Group.List
import Mathlib.Algebra.Order.Group.Nat

/-!
# The inline action list

`freeswitch-types/src/switch_passes/inline_hunt.rs` and the target of `originate_function.rs`: a
list of applications rendered as one text, and the reader that splits it again.

* `renderInline` — each application escaped once for the split on the delimiter.
* `parseOriginateTarget` — an application, an inline action list, or an extension.
* `ImitatesPrefix` — a list whose own text opens with what the reader takes for a delimiter's
  prefix.
* `readsBack_of_delimiter`, `not_readsBack_of_imitates` — a list comes back under the delimiter it
  was written for exactly when it fits the reader's array, and never when it imitates a prefix.
-/

namespace EslTokio

open Library SwitchPasses

/-- The dialplans with a syntax of their own for an application. -/
inductive DialplanType where
  | inline
  | xml
deriving DecidableEq, Repr

/-- A dialplan application with optional arguments. -/
structure Application where
  name : Text
  args : Option Text
deriving DecidableEq, Repr

/-- Inline (`name:args`) or XML (`&name(args)`) syntax. -/
def Application.toStringWithDialplan (app : Application) : DialplanType → Text
  | .inline =>
      match app.args with
      | some args => app.name ++ ':' :: args
      | none => app.name
  | .xml => '&' :: app.name ++ '(' :: app.args.getD [] ++ [')']

/-- An application with no argument where its argument is empty. -/
def Application.bare (app : Application) : Application :=
  { app with args := app.args.filter (· ≠ []) }

/-- What an originate connects the answered channel to. -/
inductive OriginateTarget where
  | extension (extension : Text)
  | application (app : Application)
  | inlineApplications (apps : List Application)
deriving DecidableEq, Repr

namespace SwitchPasses

/-- The separator an inline action list uses unless one is named. -/
def defaultInlineDelimiter : Char := ','

/-- Reject an inline separator the hunt's split breaks on, or `:`, where it splits an application
from its data. -/
def checkInlineDelimiter (delimiter : Char) : Except OriginateError Unit :=
  if delimiter = ':' ∨ breaksASplit delimiter = true then .error (.invalidInlineDelimiter delimiter)
  else .ok ()

/-- Split an `m:<delim>:` prefix off an inline action list. The four bytes are those of four chars,
since only an ASCII delimiter is taken. -/
def splitInlinePrefix : Text → Option Char × Text
  | 'm' :: ':' :: delimiter :: ':' :: rest =>
      if delimiter.toNat < 128 then (some delimiter, rest)
      else (none, 'm' :: ':' :: delimiter :: ':' :: rest)
  | text => (none, text)

/-- `argv` in `inline_dialplan_hunt`: the most actions its split keeps. -/
def inlineActions : Nat := 128

/-- The actions `inline_dialplan_hunt` splits an action list into, each through its cleanup. -/
def splitInlineActions (text : Text) (delimiter : Char) : List Text :=
  (separate (trace text) delimiter (some inlineActions)).tokens.map fun token => untrace token.text

/-- Applications as one inline action list, each action escaped once for the split on the delimiter.
-/
def renderInline (apps : List Application) (delimiter : Char) : Text :=
  [delimiter].intercalate (apps.map fun app =>
    writeEscaped delimiter (app.toStringWithDialplan .inline))

/-- `originate_function` runs a target as an application: `&` and at least one byte more. -/
def readsAsApplication : Text → Bool
  | '&' :: _ :: _ => true
  | _ => false

/-- Reject a target `originate_function` reads as something else. -/
def checkTargetReadable : OriginateTarget → Except OriginateError Unit
  | .extension extension =>
      if readsAsApplication extension = true then .error .extensionReadsAsApplication else .ok ()
  | .application app =>
      if '(' ∈ app.name ∨ ')' ∈ app.name ∨ ∃ args ∈ app.args, ')' ∈ args then
        .error (.parenthesisInApplication app.name)
      else .ok ()
  | .inlineApplications _ => .ok ()

/-- The char a leading `^^` would pick, where it is none the split can read. -/
def unreadablePick : Text → Option Char
  | '^' :: '^' :: picked :: _ => if picked.toNat < 128 then none else some picked
  | _ => none

/-- One action of a split list: a name, and what follows the first `:`. -/
def readAction (action : Text) : Application :=
  let part := action.dropWhile (· = ' ')
  match Text.splitFirst ':' part with
  | some (name, []) => ⟨name, none⟩
  | some (name, args) => ⟨name, some args⟩
  | none => ⟨part, none⟩

/-- The target argument of an originate, in the order `originate_function` decides it. -/
def parseOriginateTarget (text : Text) (dialplan : Option DialplanType) :
    Except OriginateError OriginateTarget :=
  if readsAsApplication text = true then do
    let rest := text.drop 1
    let rest ← if rest.getLast? = some ')' then .ok rest.dropLast
      else .error (.parseError "missing closing paren".toList)
    let (name, args) ← match Text.splitFirst '(' rest with
      | some parts => .ok parts
      | none => .error (.parseError "missing opening paren".toList)
    let target := .application ⟨name, if args = [] then none else some args⟩
    checkTargetReadable target
    return target
  else if dialplan = some .inline then do
    let (delimiter, text) := splitInlinePrefix text
    let delimiter := delimiter.getD defaultInlineDelimiter
    checkInlineDelimiter delimiter
    match unreadablePick text with
    | some picked => .error (.invalidInlineDelimiter picked)
    | none => return .inlineApplications ((splitInlineActions text delimiter).map readAction)
  else return .extension text

/-! ### A split adds no char -/

/-- What a cleanup writes of a text: an escape becomes the char it stands for, a quote may go, and
every other char stays. -/
inductive Cleaned (delim : Option Char) : Text → Text → Prop
  | nil : Cleaned delim [] []
  | escape {next e : Char} {text written : Text} (h : unescape next delim = some e)
      (hrest : Cleaned delim text written) : Cleaned delim ('\\' :: next :: text) (e :: written)
  | quote {text written : Text} (hrest : Cleaned delim text written) :
      Cleaned delim ('\'' :: text) written
  | keep (c : Char) {text written : Text} (hrest : Cleaned delim text written) :
      Cleaned delim (c :: text) (c :: written)

theorem cleaned_cleanupFrom (delim : Option Char) (inside : Bool) (count : Nat) (stop : Option Nat)
    (cells : List Traced) :
    Cleaned delim (chars cells) (chars (cleanupFrom delim inside count stop cells).1) := by
  fun_induction cleanupFrom delim inside count stop cells with
  | case1 => exact .nil
  | case2 => exact .keep _ .nil
  | case3 inside count stop cell hcell next rest e he later ih =>
      rw [chars_cons, chars_cons, hcell, chars_cons]
      exact .escape he ih
  | case4 inside count stop cell hcell next rest hnone later ih => exact .keep _ ih
  | case5 inside count stop cell rest hcell hquote ih =>
      rw [chars_cons, hquote.1]
      exact .quote ih
  | case6 inside count stop cell rest hcell hquote kept later ih => exact .keep _ ih

/-- An escape stands for its own char, or is one of the four with a letter. -/
theorem unescape_cases {next e : Char} {delim : Option Char} (h : unescape next delim = some e) :
    e = next ∨ (next ∈ ['n', 'r', 't', 's'] ∧ e ∈ ['\n', '\r', '\t', ' ']) := by
  unfold unescape at h
  split_ifs at h with hself hn hr ht hs
  · exact .inl (Option.some.inj h).symm
  all_goals
    obtain rfl := Option.some.inj h
    exact .inr (by simp [*])

/-- A char that no escape of a cleanup stands for, its own apart. -/
def Lasting (x : Char) : Prop := x ∉ ['\n', '\r', '\t', ' ']

theorem Cleaned.count_le {x : Char} (hx : Lasting x) {delim : Option Char} {text written : Text}
    (h : Cleaned delim text written) : written.count x ≤ text.count x := by
  induction h with
  | nil => exact Nat.le_refl _
  | @escape next e text written he hrest ih =>
      rw [List.count_cons, List.count_cons, List.count_cons]
      rcases unescape_cases he with rfl | ⟨-, hletter⟩
      · omega
      · have hne : (e == x) = false := by
          rw [beq_eq_false_iff_ne]
          rintro rfl
          exact hx hletter
        simp only [hne, Bool.false_eq_true, if_false]
        omega
  | quote hrest ih =>
      rw [List.count_cons]
      exact Nat.le_add_right_of_le ih
  | keep c hrest ih =>
      rw [List.count_cons, List.count_cons]
      exact Nat.add_le_add_right ih _

/-- A cleanup adds no char. -/
theorem count_cleanup_le {x : Char} (hx : Lasting x) (delim : Option Char) (raw : List Traced) :
    (chars (cleanup raw delim)).count x ≤ (chars raw).count x := by
  have htake : (chars (cleanup raw delim)).count x ≤ (chars (cleanupWritten raw delim).1).count x :=
    ((List.take_sublist _ _).map _).count_le x
  have hskip : (chars (skipSpaces raw)).count x ≤ (chars raw).count x :=
    ((List.dropWhile_sublist _).map _).count_le x
  have hcleaned := cleaned_cleanupFrom delim false 0 none (skipSpaces raw)
  exact htake.trans ((hcleaned.count_le hx).trans hskip)

/-- The spans of a scan share no char. -/
theorem Scan.count_le {delim : Char} {left s : List Traced} {spans spans' : List Span}
    (h : Scan delim left s spans spans') (x : Char) :
    (spans.map fun span => (chars (slice (left ++ s) span)).count x).sum ≤ (chars s).count x := by
  induction h with
  | done left gap => exact Nat.zero_le _
  | last left gap p hstop =>
      have hslice : slice (left ++ (gap ++ p))
          ⟨(left ++ gap).length, (left ++ gap ++ p).length⟩ = p := by
        have := slice_append (left ++ gap) p []
        simpa using this
      simp only [List.map_singleton, List.sum_singleton, hslice, chars_append, List.count_append]
      exact Nat.le_add_left _ _
  | @cut left gap p cell rest spans spans' hcell hrest ih =>
      have htext : left ++ (gap ++ p ++ cell :: rest) = left ++ gap ++ p ++ [cell] ++ rest := by
        simp
      have hslice : slice (left ++ gap ++ p ++ [cell] ++ rest)
          ⟨(left ++ gap).length, (left ++ gap ++ p).length⟩ = p := by
        have := slice_append (left ++ gap) p (cell :: rest)
        simpa using this
      rw [htext, List.map_cons, List.sum_cons, hslice]
      simp only [chars_append, chars_cons, List.count_append, List.count_cons] at ih ⊢
      omega

/-- The cleaned spans of a pure cut hold no char more often than the text. -/
theorem count_pureCut_le {x : Char} (hx : Lasting x) {delim : Char} (hascii : delim.toNat < 128)
    {cells : List Traced} (hordered : Ordered 0 cells) (hfree : NulFree cells)
    (limit : Option Nat) :
    ((pureCut (chars cells) delim limit).spans.map fun span =>
      (untrace (cleanup (slice cells span) (cleanupDelim delim))).count x).sum ≤
      (chars cells).count x := by
  refine le_trans ?_ ((scan_pureCut hascii hfree limit).scan.count_le x)
  refine List.sum_le_sum fun span _ => ?_
  rw [untrace_whole ((hordered.slice span).cleanup _).whole]
  exact count_cleanup_le hx _ _

theorem argumentHead_eq_picked {text : Text} {sep : Char} (h : argumentHead text = .picked sep) :
    ∃ c rest, text = '^' :: '^' :: sep :: c :: rest ∧ sep ≠ '\x00' ∧ sep.toNat < 128 := by
  unfold argumentHead at h
  simp only at h
  split_ifs at h with hunreadable hpicked
  obtain ⟨hfirst, hsecond, hthird, hfourth⟩ := hpicked
  match text with
  | [] => exact absurd hfirst (by decide)
  | [_] => exact absurd (show '\x00' = '^' from hsecond) (by decide)
  | [_, _] => exact absurd rfl hthird
  | [_, _, _] => exact absurd rfl hfourth
  | a :: b :: d :: c :: rest =>
      obtain rfl : a = '^' := hfirst
      obtain rfl : b = '^' := hsecond
      obtain rfl : d = sep := Head.picked.inj h
      refine ⟨c, rest, rfl, hthird, ?_⟩
      by_contra hnot
      exact hunreadable ⟨rfl, rfl, hthird, Nat.le_of_not_lt hnot⟩

/-- An ASCII char at the head of the bytes is one at the head of the text. -/
theorem chars_expand_eq_cons {cells : List Traced} {d : Char} {text : Text} (hd : d.toNat < 128)
    (h : chars (expand cells) = d :: text) :
    ∃ cell rest, cells = cell :: rest ∧ cell.char = d ∧ chars (expand rest) = text := by
  cases cells with
  | nil => cases h
  | cons cell rest =>
      rw [expand_cons, chars_append, chars_bytesOf, List.cons_append] at h
      obtain ⟨hcell, hrest⟩ := List.cons.inj h
      rw [further_ascii (by rwa [hcell]), List.replicate_zero, List.nil_append] at hrest
      exact ⟨cell, rest, rfl, hcell, hrest⟩

/-- The buffer of a text opens with a head only if the text does. -/
theorem picked_of_expand {cells : List Traced} {sep : Char}
    (h : argumentHead (chars (expand cells)) = .picked sep) :
    ∃ first second third rest, cells = first :: second :: third :: rest ∧ first.char = '^' ∧
      second.char = '^' ∧ third.char = sep ∧ rest ≠ [] ∧ sep ≠ '\x00' ∧ sep.toNat < 128 := by
  obtain ⟨c, later, htext, hnul, hascii⟩ := argumentHead_eq_picked h
  obtain ⟨first, cells, rfl, hfirst, htext⟩ := chars_expand_eq_cons (by decide) htext
  obtain ⟨second, cells, rfl, hsecond, htext⟩ := chars_expand_eq_cons (by decide) htext
  obtain ⟨third, cells, rfl, hthird, htext⟩ := chars_expand_eq_cons hascii htext
  refine ⟨first, second, third, cells, rfl, hfirst, hsecond, hthird, ?_, hnul, hascii⟩
  rintro rfl
  cases htext

/-- **No char stands in the tokens of a split more often than in its text**, whatever head the text
opens with. -/
theorem count_separate_le {x : Char} (hx : Lasting x) {text : Text} (hfree : '\x00' ∉ text)
    {delim : Char}
    (hascii : delim.toNat < 128) (hnul : delim ≠ '\x00') {limit : Option Nat}
    (hlimit : limit ≠ some 0) :
    (((separate (trace text) delim limit).tokens.map fun token => untrace token.text).map
      (List.count x)).sum ≤ text.count x := by
  have hordered : Ordered 0 (trace text) := ordered_traceFrom 0 text
  have hchars : chars (trace text) = text := chars_traceFrom 0 text
  have hnulFree : NulFree (trace text) := (nulFree_iff _).mpr (by rwa [hchars])
  obtain ⟨nul, hstop, hcells⟩ := hordered.whole.withOrigins
  have hstr : (CBuffer.withOrigins (trace text)).1.cStr 0 = expand (trace text) := by
    rw [hcells]
    exact cStr_start (nulFree_expand hnulFree) hstop [nul]
  have hplain : (((separateOn (trace text) delim limit).tokens.map fun token =>
      untrace token.text).map
      (List.count x)).sum ≤ text.count x := by
    rw [separateOn_pure hordered hnulFree hascii hnul hlimit, List.map_map, List.map_map]
    exact (count_pureCut_le hx hascii hordered hnulFree limit).trans_eq (by rw [hchars])
  cases hhead : argumentHead (chars (expand (trace text))) with
  | picked sep =>
      obtain ⟨first, second, third, rest, htrace, hfirst, hsecond, hthird, hrest, hsepNul, hsep⟩ :=
        picked_of_expand hhead
      rw [htrace] at hordered hnulFree hchars ⊢
      have hsuffix := List.sublist_append_right [first, second, third] rest
      have hlater : Ordered 0 rest := hordered.sublist hsuffix
      have hlaterFree : NulFree rest := fun cell hcell => hnulFree cell (hsuffix.subset hcell)
      obtain ⟨htokens, -, -⟩ :=
        separate_picked hsep hsepNul hlimit hordered hfirst hsecond hthird hrest
        hlaterFree delim
      rw [htokens, List.map_map]
      refine (count_pureCut_le hx hsep hlater hlaterFree limit).trans ?_
      rw [← hchars]
      exact (hsuffix.map _).count_le x
  | unreadable =>
      rw [separate, readBack]
      simp only [CBuffer.separate, hstr, hhead]
      exact hplain
  | absent =>
      rw [separate, readBack]
      simp only [CBuffer.separate, hstr, hhead]
      exact hplain

/-- A scan on a char cuts no more tokens than its limit; only one that may cut another begins a
token. -/
theorem length_charDelimFrom_le (delim : Char) (limit : Option Nat) (i : Nat) (start : Option Nat)
    (inside : Bool) (text : Text) :
    ∀ most ∈ limit, 1 ≤ most → (start ≠ none → 2 ≤ most) →
      (charDelimFrom delim limit i start inside text).spans.length ≤ most := by
  have hopen : ∀ {start : Option Nat} {i most : Nat}, 1 ≤ most →
      ((start.map (⟨·, i⟩ : Nat → Span)).toList).length ≤ most := by
    intro start i most hmost
    cases start with
    | none => exact Nat.zero_le _
    | some begun => exact hmost
  -- A token that has begun, or begins here, leaves room for another.
  have hroom : ∀ {limit start : Option Nat} {most : Nat}, most ∈ limit → (start ≠ none → 2 ≤ most) →
      ¬(start = none ∧ lastToken limit = true) → 2 ≤ most := by
    intro limit start most hlimit hstart hnot
    by_cases hnone : start = none
    · obtain rfl : limit = some most := hlimit
      have hlast : ¬most ≤ 1 := fun h => hnot ⟨hnone, decide_eq_true h⟩
      omega
    · exact hstart hnone
  fun_induction charDelimFrom delim limit i start inside text with
  | case1 limit i start inside => exact fun most _ hmost _ => hopen hmost
  | case2 limit i start inside rest => exact fun most _ hmost _ => hopen hmost
  | case3 => exact fun most _ hmost _ => hmost
  | case4 => exact fun most _ hmost _ => hmost
  | case5 limit i start inside hnot begun head rest hnul ih =>
      exact fun most hlimit hmost hstart => ih most hlimit hmost fun _ => hroom hlimit hstart hnot
  | case6 limit i start inside c rest hnul hnot begun hbackslash hquote ih =>
      exact fun most hlimit hmost hstart => ih most hlimit hmost fun _ => hroom hlimit hstart hnot
  | case7 limit i start inside c rest hnul hnot begun hbackslash hquote hcut later ih =>
      intro most hlimit hmost hstart
      have htwo := hroom hlimit hstart hnot
      obtain rfl : limit = some most := hlimit
      have hlater : later.spans.length ≤ most - 1 :=
        ih (most - 1) rfl (by omega) (fun h : none ≠ none => absurd rfl h)
      show later.spans.length + 1 ≤ most
      omega
  | case8 limit i start inside c rest hnul hnot begun hbackslash hquote hcut later ih =>
      exact fun most hlimit hmost hstart => ih most hlimit hmost fun _ => hroom hlimit hstart hnot

/-! ### The tokens of a rendered list -/

/-- A name of ASCII letters, digits and underscores. -/
def PlainName (name : Text) : Prop := name ≠ [] ∧ ∀ c ∈ name, c.isAlphanum = true ∨ c = '_'

/-- An application with a plain name and no terminator in its arguments. -/
structure PlainApplication (app : Application) : Prop where
  name : PlainName app.name
  free : ∀ args ∈ app.args, '\x00' ∉ args

/-- A char of a plain name is none of those the readers look for. -/
theorem PlainName.ne {name : Text} (h : PlainName name) {c : Char} (hc : c ∈ name) {d : Char}
    (hd : d.isAlphanum = false) (hunderscore : d ≠ '_') : c ≠ d := by
  rintro rfl
  rcases h.2 c hc with halpha | heq
  · rw [halpha] at hd
    cases hd
  · exact hunderscore heq

theorem PlainApplication.text_cons {app : Application} (h : PlainApplication app) :
    ∃ c rest, app.toStringWithDialplan .inline = c :: rest ∧ c ∈ app.name := by
  obtain ⟨name, args⟩ := app
  obtain ⟨c, rest, rfl⟩ := List.exists_cons_of_ne_nil h.name.1
  cases args with
  | none => exact ⟨c, rest, rfl, List.mem_cons_self⟩
  | some args => exact ⟨c, rest ++ ':' :: args, rfl, List.mem_cons_self⟩

theorem PlainApplication.text_free {app : Application} (h : PlainApplication app) :
    '\x00' ∉ app.toStringWithDialplan .inline := by
  have hname : '\x00' ∉ app.name := fun hmem => h.name.ne hmem (by decide) (by decide) rfl
  obtain ⟨name, args⟩ := app
  cases args with
  | none => exact hname
  | some args =>
      have hargs : '\x00' ∉ args := h.free args rfl
      simpa [Application.toStringWithDialplan] using ⟨hname, hargs⟩

/-- An action is read as the application it was written for. -/
theorem PlainApplication.readAction {app : Application} (h : PlainApplication app) :
    readAction (app.toStringWithDialplan .inline) = app.bare := by
  obtain ⟨c, rest, htext, hc⟩ := h.text_cons
  have hcolon : ':' ∉ app.name := fun hmem => h.name.ne hmem (by decide) (by decide) rfl
  have hpart : (app.toStringWithDialplan .inline).dropWhile (· = ' ') =
      app.toStringWithDialplan .inline := by
    rw [htext, List.dropWhile_cons_of_neg]
    simpa using h.name.ne hc (by decide) (by decide)
  have hnone : ∀ name : Text, ':' ∉ name → Text.splitFirst ':' name = none := by
    intro name hname
    cases hsplit : Text.splitFirst ':' name with
    | none => rfl
    | some parts =>
        obtain ⟨-, heq⟩ := Text.splitFirst_some hsplit
        exact absurd (by rw [heq]; simp) hname
  obtain ⟨name, args⟩ := app
  simp only [SwitchPasses.readAction, hpart]
  cases args with
  | none =>
      simp only [Application.toStringWithDialplan, hnone name hcolon]
      rfl
  | some args =>
      simp only [Application.toStringWithDialplan, Text.splitFirst_append hcolon args]
      cases args with
      | nil => rfl
      | cons d args => rfl

theorem checkInlineDelimiter_ok (delimiter : Char) :
    checkInlineDelimiter delimiter = .ok () ↔ delimiter ≠ ':' ∧ breaksASplit delimiter = false := by
  unfold checkInlineDelimiter
  split
  · rename_i hbad
    refine ⟨nofun, ?_⟩
    rintro ⟨hcolon, hbreaks⟩
    rcases hbad with heq | heq
    · exact absurd heq hcolon
    · rw [hbreaks] at heq
      cases heq
  · rename_i hgood
    rw [not_or, Bool.not_eq_true] at hgood
    exact ⟨fun _ => hgood, fun _ => rfl⟩

/-- A list is its first action, and the rest behind a delimiter. -/
theorem renderInline_cons (app : Application) (apps : List Application) (delimiter : Char) :
    renderInline (app :: apps) delimiter =
      writeEscaped delimiter (app.toStringWithDialplan .inline) ++
        (if apps = [] then [] else delimiter :: renderInline apps delimiter) := by
  rw [renderInline, List.map_cons]
  cases apps with
  | nil => simp [List.intercalate_singleton]
  | cons next apps =>
      rw [List.map_cons, List.intercalate_cons_cons, if_neg (List.cons_ne_nil _ _), renderInline,
        List.map_cons, List.append_assoc]
      rfl

/-- A char of a plain name is written as it is, or behind a backslash where it is the delimiter. -/
theorem escapeChar_name {name : Text} (hname : PlainName name) {c : Char} (hc : c ∈ name)
    (sep : Char) :
    escapeChar sep c = if c = sep then ['\\', c] else [c] := by
  have hspace := hname.ne hc (by decide : (' ' : Char).isAlphanum = false) (by decide)
  have hn := hname.ne hc (by decide : ('\n' : Char).isAlphanum = false) (by decide)
  have hr := hname.ne hc (by decide : ('\r' : Char).isAlphanum = false) (by decide)
  have ht := hname.ne hc (by decide : ('\t' : Char).isAlphanum = false) (by decide)
  have hbackslash := hname.ne hc (by decide : ('\\' : Char).isAlphanum = false) (by decide)
  have hquote := hname.ne hc (by decide : ('\'' : Char).isAlphanum = false) (by decide)
  simp [escapeChar, takesABackslash, hspace, hn, hr, ht, hbackslash, hquote]

/-- A list opens with a char of its first name or a backslash. -/
theorem head_renderInline {app : Application} (h : PlainApplication app) (apps : List Application)
    (delimiter : Char) :
    ∃ c rest, renderInline (app :: apps) delimiter = c :: rest ∧ (c ∈ app.name ∨ c = '\\') := by
  obtain ⟨c, rest, htext, hc⟩ := h.text_cons
  have hspace := h.name.ne hc (by decide : (' ' : Char).isAlphanum = false) (by decide)
  have htab := h.name.ne hc (by decide : ('\x0b' : Char).isAlphanum = false) (by decide)
  rw [renderInline_cons, htext, writeEscaped, writeEscapedFrom,
    if_neg (fun hhold => hspace hhold.1),
    if_neg (fun htab' => htab htab'.1), escapeChar_name h.name hc]
  split
  · exact ⟨'\\', _, rfl, .inr rfl⟩
  · exact ⟨c, _, rfl, .inl hc⟩

/-- A list opens with no `^` and no `&`. -/
theorem renderInline_opens {app : Application} (h : PlainApplication app) (apps : List Application)
    (delimiter : Char) :
    Headless (renderInline (app :: apps) delimiter) ∧
      unreadablePick (renderInline (app :: apps) delimiter) = none ∧
      readsAsApplication (renderInline (app :: apps) delimiter) = false := by
  obtain ⟨c, rest, htext, hc⟩ := head_renderInline h apps delimiter
  have hne : ∀ d : Char, d.isAlphanum = false → d ≠ '_' → d ≠ '\\' → c ≠ d := by
    intro d halpha hunderscore hbackslash
    rcases hc with hmem | rfl
    · exact h.name.ne hmem halpha hunderscore
    · exact Ne.symm hbackslash
  have hcaret : c ≠ '^' := hne '^' (by decide) (by decide) (by decide)
  have hand : c ≠ '&' := hne '&' (by decide) (by decide) (by decide)
  rw [htext]
  refine ⟨?_, ?_, ?_⟩
  · rintro ⟨hfirst, -⟩
    exact hcaret (Option.some.inj hfirst)
  · unfold unreadablePick
    split
    · rename_i heq
      exact absurd (List.cons.inj heq).1 hcaret
    · rfl
  · unfold readsAsApplication
    split
    · rename_i heq
      exact absurd (List.cons.inj heq).1 hand
    · rfl

section Tokens

variable {delimiter : Char} {apps : List Application}

/-- Each action of a list is one token of the split. -/
theorem joint_actions (hdelimiter : breaksASplit delimiter = false)
    (happs : ∀ app ∈ apps, PlainApplication app) :
    ∀ x ∈ apps.map fun app => writeEscaped delimiter (app.toStringWithDialplan .inline),
      Joint delimiter x := by
  intro x hx
  obtain ⟨app, happ, rfl⟩ := List.mem_map.mp hx
  obtain ⟨c, rest, htext, -⟩ := (happs app happ).text_cons
  exact (joint_writeEscaped (Escaping.of_unbroken hdelimiter).1 (happs app happ).text_free
    (by rw [htext]; exact List.cons_ne_nil _ _)).1

/-- **A list within the reader's array is split into its actions.** -/
theorem splitInlineActions_renderInline (hdelimiter : breaksASplit delimiter = false)
    (hne : apps ≠ [])
    (happs : ∀ app ∈ apps, PlainApplication app) (hlength : apps.length ≤ inlineActions) :
    splitInlineActions (renderInline apps delimiter) delimiter =
      apps.map (·.toStringWithDialplan .inline) := by
  obtain ⟨hescaping, hcutting, hascii⟩ := Escaping.of_unbroken hdelimiter
  obtain ⟨app, rest, rfl⟩ := List.exists_cons_of_ne_nil hne
  have hhead := (renderInline_opens (happs app List.mem_cons_self) rest delimiter).1
  have hroom : Allows (some inlineActions) ((app :: rest).map fun app =>
      writeEscaped delimiter (app.toStringWithDialplan .inline)).length := by
    intro most hmost
    obtain rfl := Option.some.inj hmost
    rwa [List.length_map]
  obtain ⟨htokens, -, -⟩ := separate_joined (.inr hcutting) hascii
    (by simp) (joint_actions hdelimiter happs) hroom hhead
  rw [splitInlineActions, renderInline, htokens, List.map_map]
  refine List.map_congr_left fun app happ => ?_
  obtain ⟨c, rest, htext, -⟩ := (happs app happ).text_cons
  exact (joint_writeEscaped hescaping (happs app happ).text_free
    (by rw [htext]; exact List.cons_ne_nil _ _)).2

/-- The reader's array holds no more. -/
theorem length_splitInlineActions (hdelimiter : breaksASplit delimiter = false) (hne : apps ≠ [])
    (happs : ∀ app ∈ apps, PlainApplication app) :
    (splitInlineActions (renderInline apps delimiter) delimiter).length ≤ inlineActions := by
  obtain ⟨hescaping, hcutting, hascii⟩ := Escaping.of_unbroken hdelimiter
  obtain ⟨app, rest, rfl⟩ := List.exists_cons_of_ne_nil hne
  have hhead := (renderInline_opens (happs app List.mem_cons_self) rest delimiter).1
  have hordered : Ordered 0 (trace (renderInline (app :: rest) delimiter)) := ordered_traceFrom 0 _
  have hchars : chars (trace (renderInline (app :: rest) delimiter)) = renderInline
      (app :: rest) delimiter :=
    chars_traceFrom 0 _
  have hfree : NulFree (trace (renderInline (app :: rest) delimiter)) := by
    rw [nulFree_iff, hchars]
    exact joint_free hcutting.ne_nul (joint_actions hdelimiter happs)
  have hspace : delimiter ≠ ' ' := hcutting.ne_space
  rw [splitInlineActions, List.length_map, separate_eq_separateOn hordered hfree (by rwa [hchars]),
    separateOn_pure hordered hfree hascii hcutting.ne_nul (by decide), List.length_map, pureCut,
    if_neg hspace]
  exact length_charDelimFrom_le _ _ _ _ _ _ inlineActions rfl (by decide) (fun h => absurd rfl h)

end Tokens

/-! ### What reads as a prefix -/

/-- What the split on commas reads as it is written. -/
def commaEscaped : List Char := ['\\', '\'', ',', '\n', '\r', '\t']

/-- A list whose own text opens with an `m:<delim>:` prefix: its first application is `m`, and the
argument opens with an ASCII char that is written as it is and a `:`. -/
def ImitatesPrefix (apps : List Application) : Prop :=
  ∃ c rest later, apps = ⟨['m'], some (c :: ':' :: rest)⟩ :: later ∧ c.toNat < 128 ∧
    c ∉ commaEscaped

theorem escapeChar_comma {c : Char} (hc : c ∉ commaEscaped) (hspace : c ≠ ' ') :
    escapeChar ',' c = [c] := by
  simp only [commaEscaped, List.mem_cons, List.not_mem_nil, or_false, not_or] at hc
  obtain ⟨hbackslash, hquote, hcomma, hn, hr, ht⟩ := hc
  simp [escapeChar, takesABackslash, hspace, hn, hr, ht, hbackslash, hquote, hcomma]

/-- What is escaped for commas is a backslash and a char other than `:`. -/
theorem escapeChar_commaEscaped {c : Char} (hc : c ∈ commaEscaped) :
    ∃ e, escapeChar ',' c = ['\\', e] ∧ e ≠ ':' := by
  simp only [commaEscaped, List.mem_cons, List.not_mem_nil, or_false] at hc
  rcases hc with rfl | rfl | rfl | rfl | rfl | rfl
  all_goals exact ⟨_, rfl, by decide⟩

/-- Spaces held back come out as spaces, the last one perhaps escaped. -/
theorem writeEscapedFrom_held (sep : Char) (kept : Nat) (verticalTabLast : Bool) (text : Text)
    {j : Nat} (hj : j ≤ kept) :
    ∃ e ∈ [' ', '\\'], (writeEscapedFrom sep true (kept + 1) verticalTabLast text)[j]? =
      some e := by
  induction text generalizing kept j with
  | nil =>
      rw [writeEscapedFrom]
      rcases Nat.lt_or_eq_of_le hj with hlt | rfl
      · refine ⟨' ', by decide, ?_⟩
        rw [List.getElem?_append_left (by simpa using hlt), List.getElem?_replicate, if_pos hlt]
      · refine ⟨'\\', by decide, ?_⟩
        rw [List.getElem?_append_right (by simp), List.length_replicate, Nat.sub_self]
        rfl
  | cons c text ih =>
      rw [writeEscapedFrom]
      split
      · exact ih (kept + 1) (Nat.le_succ_of_le hj)
      · refine ⟨' ', by decide, ?_⟩
        rw [List.append_assoc, List.append_assoc,
          List.getElem?_append_left (by simpa using Nat.lt_succ_of_le hj),
          List.getElem?_replicate, if_pos (Nat.lt_succ_of_le hj)]

theorem getElem?_of_append {x more whole : Text} {j : Nat} {e : Char} (h : x[j]? = some e)
    (hwhole : x ++ more = whole) : whole[j]? = some e := by
  rw [← hwhole, List.getElem?_append_left (List.getElem?_eq_some_iff.mp h).1, h]

/-- A char other than a space is written at once. -/
theorem writeEscapedFrom_started {c : Char} (hspace : c ≠ ' ') (sep : Char) (spaces : Nat)
    (verticalTabLast : Bool) (text : Text) :
    writeEscapedFrom sep true spaces verticalTabLast (c :: text) =
      List.replicate spaces ' ' ++ escapeChar sep c ++ writeEscapedFrom sep true 0
        (c = '\x0b') text := by
  rw [writeEscapedFrom, if_neg (fun h => hspace h.1), if_neg (fun h => Bool.noConfusion h.2),
    List.append_nil]

/-- A `:` at the head of what is written is one at the head of the text. -/
theorem colon_of_written {verticalTabLast : Bool} {text more tail : Text}
    (hmore : more.head? ≠ some ':')
    (h : writeEscapedFrom ',' true 0 verticalTabLast text ++ more = ':' :: tail) :
    ∃ rest, text = ':' :: rest := by
  cases text with
  | nil =>
      rw [writeEscapedFrom] at h
      cases verticalTabLast with
      | true => exact absurd (List.cons.inj h).1 (by decide)
      | false =>
          rw [if_neg Bool.false_ne_true, List.nil_append] at h
          rw [h] at hmore
          exact absurd rfl hmore
  | cons c text =>
      by_cases hspace : c = ' '
      · subst hspace
        obtain ⟨e, he, hget⟩ := writeEscapedFrom_held ',' 0 verticalTabLast text (Nat.le_refl 0)
        rw [writeEscapedFrom, if_pos ⟨rfl, rfl, by decide⟩] at h
        obtain rfl : ':' = e := Option.some.inj (getElem?_of_append hget h)
        exact absurd he (by decide)
      · rw [writeEscapedFrom_started hspace, List.replicate_zero, List.nil_append] at h
        by_cases hescaped : c ∈ commaEscaped
        · obtain ⟨e, heq, -⟩ := escapeChar_commaEscaped hescaped
          rw [heq] at h
          exact absurd (List.cons.inj h).1 (by decide)
        · rw [escapeChar_comma hescaped hspace] at h
          exact ⟨text, by rw [(List.cons.inj h).1]⟩

/-- A char and a `:` at the head of what is written are those of the text, and the char is written
as it is. -/
theorem imitation_of_written {verticalTabLast : Bool} {text more tail : Text} {c : Char}
    (hmore : more = [] ∨ ∃ next later, more = ',' :: next :: later ∧ next ≠ ':')
    (h : writeEscapedFrom ',' true 0 verticalTabLast text ++ more = c :: ':' :: tail) :
    ∃ rest, text = c :: ':' :: rest ∧ c ∉ commaEscaped := by
  have hhead : more.head? ≠ some ':' := by
    rcases hmore with rfl | ⟨next, later, rfl, -⟩
    · exact nofun
    · exact fun heq => absurd (Option.some.inj heq) (by decide)
  cases text with
  | nil =>
      rw [writeEscapedFrom] at h
      cases verticalTabLast with
      | true => exact absurd (List.cons.inj (List.cons.inj h).2).1 (by decide)
      | false =>
          rw [if_neg Bool.false_ne_true, List.nil_append] at h
          rcases hmore with rfl | ⟨next, later, rfl, hnext⟩
          · cases h
          · exact absurd (List.cons.inj (List.cons.inj h).2).1 hnext
  | cons d text =>
      by_cases hspace : d = ' '
      · subst hspace
        rw [writeEscapedFrom, if_pos ⟨rfl, rfl, by decide⟩] at h
        cases text with
        | nil => exact absurd (List.cons.inj (List.cons.inj h).2).1 (by decide)
        | cons e text =>
            by_cases hagain : e = ' '
            · subst hagain
              rw [writeEscapedFrom, if_pos ⟨rfl, rfl, by decide⟩] at h
              obtain ⟨e, he, hget⟩ := writeEscapedFrom_held ',' 1 verticalTabLast text
                (Nat.le_refl 1)
              obtain rfl : ':' = e := Option.some.inj (getElem?_of_append hget h)
              exact absurd he (by decide)
            · rw [writeEscapedFrom_started hagain] at h
              by_cases hescaped : e ∈ commaEscaped
              · obtain ⟨letter, heq, -⟩ := escapeChar_commaEscaped hescaped
                rw [heq] at h
                exact absurd (List.cons.inj (List.cons.inj h).2).1 (by decide)
              · rw [escapeChar_comma hescaped hagain] at h
                obtain rfl : ' ' = c := (List.cons.inj h).1
                obtain rfl : e = ':' := (List.cons.inj (List.cons.inj h).2).1
                exact ⟨text, rfl, by decide⟩
      · rw [writeEscapedFrom_started hspace, List.replicate_zero, List.nil_append] at h
        by_cases hescaped : d ∈ commaEscaped
        · obtain ⟨letter, heq, hletter⟩ := escapeChar_commaEscaped hescaped
          rw [heq] at h
          exact absurd (List.cons.inj (List.cons.inj h).2).1 hletter
        · rw [escapeChar_comma hescaped hspace] at h
          obtain ⟨rfl, hrest⟩ := List.cons.inj h
          obtain ⟨rest, rfl⟩ := colon_of_written hhead hrest
          exact ⟨rest, rfl, hescaped⟩

/-- The first char of a name is written as it is for commas. -/
theorem writeEscaped_comma {name : Text} (hname : PlainName name) {c : Char} (hc : c ∈ name)
    (rest : Text) :
    writeEscaped ',' (c :: rest) = c :: writeEscapedFrom ',' true 0 false rest := by
  have hspace := hname.ne hc (by decide : (' ' : Char).isAlphanum = false) (by decide)
  have htab := hname.ne hc (by decide : ('\x0b' : Char).isAlphanum = false) (by decide)
  have hcomma := hname.ne hc (by decide : (',' : Char).isAlphanum = false) (by decide)
  rw [writeEscaped, writeEscapedFrom, if_neg (fun h => hspace h.1), if_neg (fun h => htab h.1),
    escapeChar_name hname hc, if_neg hcomma, decide_eq_false htab]
  rfl

/-- Behind an action stands nothing, or a comma and a char other than `:`. -/
theorem renderInline_behind {later : List Application}
    (hlater : ∀ app ∈ later, PlainApplication app) :
    (if later = [] then [] else ',' :: renderInline later ',') = [] ∨
      ∃ next rest, (if later = [] then [] else ',' :: renderInline later ',') = ',' ::
        next :: rest ∧
        next ≠ ':' := by
  cases later with
  | nil => exact .inl rfl
  | cons app later =>
      have happ := hlater app List.mem_cons_self
      obtain ⟨next, rest, htext, hnext⟩ := head_renderInline happ later ','
      refine .inr ⟨next, rest, by rw [if_neg (List.cons_ne_nil _ _), htext], ?_⟩
      rcases hnext with hmem | rfl
      · exact happ.name.ne hmem (by decide) (by decide)
      · decide

/-- A list of plain applications for commas opens with a prefix only if it imitates one. -/
theorem splitInlinePrefix_renderInline {apps : List Application} (hne : apps ≠ [])
    (happs : ∀ app ∈ apps, PlainApplication app) (himitates : ¬ImitatesPrefix apps) :
    splitInlinePrefix (renderInline apps ',') = (none, renderInline apps ',') := by
  obtain ⟨⟨name, args⟩, later, rfl⟩ := List.exists_cons_of_ne_nil hne
  obtain ⟨hfirst, hlater⟩ := List.forall_mem_cons.mp happs
  have hopens : ∀ c rest, c.toNat < 128 → renderInline (⟨name, args⟩ :: later) ',' ≠
      'm' :: ':' :: c :: ':' :: rest := by
    intro c rest hascii heq
    obtain ⟨n, names, rfl⟩ := List.exists_cons_of_ne_nil hfirst.name.1
    have hmore := renderInline_behind hlater
    have hhead : (if later = [] then [] else ',' :: renderInline later ',').head? ≠ some ':' := by
      rcases hmore with hnil | ⟨next, rest, hcons, -⟩
      · rw [hnil]
        exact nofun
      · rw [hcons]
        exact fun heq => absurd (Option.some.inj heq) (by decide)
    obtain ⟨tail, htail⟩ : ∃ tail, (⟨n :: names, args⟩ : Application).toStringWithDialplan .inline =
        n :: tail ∧ (tail = names ∧ args = none ∨ ∃ a, args = some a ∧
        tail = names ++ ':' :: a) := by
      cases args with
      | none => exact ⟨names, rfl, .inl ⟨rfl, rfl⟩⟩
      | some a => exact ⟨_, rfl, .inr ⟨a, rfl, rfl⟩⟩
    obtain ⟨htext, htail⟩ := htail
    rw [renderInline_cons, htext, writeEscaped_comma hfirst.name List.mem_cons_self,
      List.cons_append] at heq
    obtain ⟨rfl, hwritten⟩ := List.cons.inj heq
    obtain ⟨after, rfl⟩ := colon_of_written hhead hwritten
    -- The `:` is no char of the name, so the name ends before it.
    have hnames : ∀ d ∈ names, d ≠ ':' := fun d hd =>
      hfirst.name.ne (List.mem_cons_of_mem _ hd) (by decide) (by decide)
    cases names with
    | cons d names =>
        have hd : d = ':' := by
          rcases htail with ⟨htail, -⟩ | ⟨a, -, htail⟩
          · exact (List.cons.inj htail).1.symm
          · exact (List.cons.inj htail).1.symm
        exact hnames d List.mem_cons_self hd
    | nil =>
        rcases htail with ⟨htail, -⟩ | ⟨a, rfl, htail⟩
        · cases htail
        · obtain rfl : after = a := (List.cons.inj htail).2
          rw [writeEscapedFrom_started (by decide),
            escapeChar_comma (by decide) (by decide)] at hwritten
          obtain ⟨args, rfl, hescaped⟩ := imitation_of_written hmore (List.cons.inj hwritten).2
          exact himitates ⟨c, args, later, rfl, hascii, hescaped⟩
  unfold splitInlinePrefix
  split
  · rename_i c rest heq
    split
    · rename_i hascii
      exact absurd heq (hopens c rest hascii)
    · rw [heq]
  · rfl

/-- A list that imitates a prefix is read without its first four chars. -/
theorem renderInline_imitates {apps : List Application} (h : ImitatesPrefix apps) :
    ∃ c rest, c.toNat < 128 ∧ renderInline apps ',' = 'm' :: ':' :: c :: ':' :: rest := by
  obtain ⟨c, args, later, rfl, hascii, hescaped⟩ := h
  have hname : PlainName ['m'] := ⟨List.cons_ne_nil _ _, by decide⟩
  have hcolon : escapeChar ',' ':' = [':'] := rfl
  have hwritten : ∃ rest, writeEscapedFrom ',' true 0 false (c :: ':' :: args) = c ::
      ':' :: rest := by
    by_cases hspace : c = ' '
    · subst hspace
      rw [writeEscapedFrom, if_pos ⟨rfl, rfl, by decide⟩,
        writeEscapedFrom_started (by decide), hcolon]
      exact ⟨_, rfl⟩
    · rw [writeEscapedFrom_started hspace, writeEscapedFrom_started (by decide),
        escapeChar_comma hescaped hspace, hcolon]
      exact ⟨_, rfl⟩
  obtain ⟨rest, hrest⟩ := hwritten
  have htext : (⟨['m'], some (c :: ':' :: args)⟩ : Application).toStringWithDialplan .inline =
      'm' :: ':' :: c :: ':' :: args := rfl
  rw [renderInline_cons, htext, writeEscaped_comma hname List.mem_cons_self,
    writeEscapedFrom_started (by decide), hcolon, decide_eq_false (by decide), hrest]
  exact ⟨c, _, hascii, rfl⟩

/-! ### Reading a list -/

/-- An action list that is no application is read by the split on the delimiter its prefix names. -/
theorem parseOriginateTarget_inline {text : Text} (happlication : readsAsApplication text = false)
    (read : List Application) :
    parseOriginateTarget text (some .inline) = .ok (.inlineApplications read) ↔
      checkInlineDelimiter ((splitInlinePrefix text).1.getD defaultInlineDelimiter) = .ok () ∧
      unreadablePick (splitInlinePrefix text).2 = none ∧
      read = (splitInlineActions (splitInlinePrefix text).2
        ((splitInlinePrefix text).1.getD defaultInlineDelimiter)).map readAction := by
  rw [parseOriginateTarget, if_neg (by rw [happlication]; exact Bool.false_ne_true), if_pos rfl]
  cases hcheck : checkInlineDelimiter ((splitInlinePrefix text).1.getD defaultInlineDelimiter) with
  | error e => simp [hcheck, bind, Except.bind]
  | ok _ =>
      cases hpick : unreadablePick (splitInlinePrefix text).2 with
      | some picked => simp [hcheck, hpick, bind, Except.bind]
      | none => simp [hcheck, hpick, bind, Except.bind, pure, Except.pure, eq_comm]

/-- A list of applications, an empty argument counting as none, is what the reader makes of a text.
-/
def ReadsBack (text : Text) (apps : List Application) : Prop :=
  ∃ read, parseOriginateTarget text (some .inline) = .ok (.inlineApplications read) ∧
    read.map (·.bare) = apps.map (·.bare)

/-- A list read under the delimiter it was written for comes back exactly when it fits the array. -/
theorem readsBack_of_delimiter {text : Text} {delimiter : Char} {apps : List Application}
    (hne : apps ≠ [])
    (happs : ∀ app ∈ apps, PlainApplication app)
    (hdelimiter : checkInlineDelimiter delimiter = .ok ())
    (happlication : readsAsApplication text = false)
    (hnamed : (splitInlinePrefix text).1.getD defaultInlineDelimiter = delimiter)
    (hlist : (splitInlinePrefix text).2 = renderInline apps delimiter) :
    ReadsBack text apps ↔ apps.length ≤ inlineActions := by
  obtain ⟨-, hbreaks⟩ := (checkInlineDelimiter_ok delimiter).mp hdelimiter
  have hpick : unreadablePick (renderInline apps delimiter) = none := by
    obtain ⟨app, later, rfl⟩ := List.exists_cons_of_ne_nil hne
    exact (renderInline_opens (happs app List.mem_cons_self) later delimiter).2.1
  have hread : ReadsBack text apps ↔
      ((splitInlineActions (renderInline apps delimiter) delimiter).map readAction).map (·.bare) =
        apps.map (·.bare) := by
    simp only [ReadsBack, parseOriginateTarget_inline happlication, hnamed, hlist,
      hdelimiter, hpick, true_and, exists_eq_left]
  rw [hread]
  constructor
  · intro heq
    have hlength := length_splitInlineActions hbreaks hne happs
    have hsame := congrArg List.length heq
    simp only [List.length_map] at hsame
    omega
  · intro hlength
    rw [splitInlineActions_renderInline hbreaks hne happs hlength, List.map_map, List.map_map]
    refine List.map_congr_left fun app happ => ?_
    simp only [Function.comp_apply, (happs app happ).readAction]
    simp [Application.bare]

/-! ### A list that imitates a prefix is not read back -/

/-- How often `m` stands in an application. -/
def marks (app : Application) : Nat := app.name.count 'm' + (app.args.getD []).count 'm'

theorem marks_bare (app : Application) : marks app.bare = marks app := by
  obtain ⟨name, args⟩ := app
  cases args with
  | none => rfl
  | some args =>
      cases args with
      | nil => rfl
      | cons c args => rfl

theorem marks_text (app : Application) :
    (app.toStringWithDialplan .inline).count 'm' = marks app := by
  obtain ⟨name, args⟩ := app
  cases args with
  | none => simp [Application.toStringWithDialplan, marks]
  | some args => simp [Application.toStringWithDialplan, marks, List.count_append]

/-- An application read from an action holds no `m` the action does not. -/
theorem marks_readAction_le (action : Text) : marks (readAction action) ≤ action.count 'm' := by
  have hpart : (action.dropWhile (· = ' ')).count 'm' ≤ action.count 'm' :=
    (List.dropWhile_sublist _).count_le 'm'
  refine le_trans ?_ hpart
  unfold readAction
  simp only
  split
  · rename_i name hsplit
    rw [(Text.splitFirst_some hsplit).2]
    simp [marks, List.count_append]
  · rename_i name args _ hsplit
    rw [(Text.splitFirst_some hsplit).2]
    simp [marks, List.count_append]
  · simp [marks]

theorem count_escapeChar (c : Char) : (escapeChar ',' c).count 'm' = [c].count 'm' := by
  unfold escapeChar
  split_ifs with hspace hn hr ht htakes
  · rw [hspace]
    rfl
  · rw [hn]
    rfl
  · rw [hr]
    rfl
  · rw [ht]
    rfl
  · rw [List.count_cons_of_ne (by decide)]
  · rfl

/-- The escape for commas writes an `m` for an `m`. -/
theorem count_writeEscapedFrom (started : Bool) (spaces : Nat) (verticalTabLast : Bool)
    (text : Text) :
    (writeEscapedFrom ',' started spaces verticalTabLast text).count 'm' = text.count 'm' := by
  have hspaces : ∀ n, (List.replicate n ' ').count 'm' = 0 := fun n =>
    List.count_eq_zero.mpr fun hmem => absurd (List.eq_of_mem_replicate hmem) (by decide)
  induction text generalizing started spaces verticalTabLast with
  | nil =>
      cases spaces with
      | zero =>
          cases verticalTabLast with
          | false => rfl
          | true => rfl
      | succ kept =>
          rw [writeEscapedFrom, List.count_append, hspaces]
          rfl
  | cons c text ih =>
      rw [writeEscapedFrom]
      split
      · rename_i hhold
        rw [ih, hhold.1]
        rfl
      · have hguard : (if c = '\x0b' ∧ started = false then ['\'', '\''] else []).count
            'm' = 0 := by
          split
          · rfl
          · rfl
        rw [List.count_append, List.count_append, List.count_append, hspaces, hguard,
          count_escapeChar, ih, Nat.zero_add, ← List.count_append]
        rfl

/-- A list for commas holds the `m`s of its applications. -/
theorem count_renderInline (apps : List Application) :
    (renderInline apps ',').count 'm' = (apps.map marks).sum := by
  induction apps with
  | nil => rfl
  | cons app apps ih =>
      rw [renderInline_cons, List.count_append, writeEscaped, count_writeEscapedFrom, marks_text,
        List.map_cons, List.sum_cons]
      split
      · rename_i hnil
        rw [hnil]
        rfl
      · rw [List.count_cons_of_ne (by decide), ih]

/-- A list that imitates a prefix comes back without the `m` the reader took for one. -/
theorem not_readsBack_of_imitates {apps : List Application} (hne : apps ≠ [])
    (happs : ∀ app ∈ apps, PlainApplication app) (h : ImitatesPrefix apps) :
    ¬ReadsBack (renderInline apps ',') apps := by
  rintro ⟨read, hparse, hread⟩
  have happlication : readsAsApplication (renderInline apps ',') = false := by
    obtain ⟨app, later, rfl⟩ := List.exists_cons_of_ne_nil hne
    exact (renderInline_opens (happs app List.mem_cons_self) later ',').2.2
  obtain ⟨c, rest, hascii, htext⟩ := renderInline_imitates h
  obtain ⟨hcheck, -, hactions⟩ := (parseOriginateTarget_inline happlication read).mp hparse
  have hopens : splitInlinePrefix (renderInline apps ',') = (some c, rest) := by
    rw [htext, splitInlinePrefix, if_pos hascii]
  rw [hopens] at hcheck hactions
  have hbreaks := ((checkInlineDelimiter_ok c).mp hcheck).2
  have hcutting := (Escaping.of_unbroken hbreaks).2.1
  have hfree : '\x00' ∉ rest := by
    have hall := joint_free (by decide : (',' : Char) ≠ '\x00') (joint_actions (by decide) happs)
    intro hmem
    refine hall ?_
    rw [← renderInline, htext]
    simp [hmem]
  have hsplit : ((splitInlineActions rest c).map (List.count 'm')).sum ≤ rest.count 'm' :=
    count_separate_le (by unfold Lasting; decide) hfree hascii hcutting.ne_nul (by decide)
  have hmarks : ∀ l : List Application, ((l.map (·.bare)).map marks).sum = (l.map marks).sum := by
    intro l
    rw [List.map_map]
    exact congrArg List.sum (List.map_congr_left fun app _ => marks_bare app)
  have hsame : (read.map marks).sum = (apps.map marks).sum := by
    rw [← hmarks read, hread, hmarks apps]
  have hfewer : (read.map marks).sum ≤ ((splitInlineActions rest c).map (List.count 'm')).sum := by
    rw [hactions, List.map_map]
    exact List.sum_le_sum fun action _ => marks_readAction_le action
  have hwhole : rest.count 'm' + 1 ≤ (apps.map marks).sum := by
    rw [← count_renderInline, htext]
    simp only [List.count_cons, beq_self_eq_true, if_true]
    omega
  omega

end SwitchPasses
end EslTokio
