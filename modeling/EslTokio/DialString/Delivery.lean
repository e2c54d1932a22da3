import EslTokio.DialString.Carriage
import EslTokio.DialString.ModuleText
import EslTokio.SwitchPasses.Crossing

/-!
# Dial strings arrive

An endpoint a configuration load accepts, rendered for a target, is dialled as written: the pass
ahead of the dial string, then those of the dial string, leave one leg with the variables and the
module text of the endpoint, and the parse for the same target gives the endpoint back.

* `Endpoint.Dialable` — what a load accepts and no pass of the target reads as its own;
  `Deliverable` — with a block that splits on commas.
* `Variables.crosses`, `Endpoint.Uncrossed` — whether two pairs meet at a separator.
* **`Endpoint.dials_displayFor`** — what the switch reads of a render.
* `Endpoint.parseFor_displayFor` — the round trip at every target, whatever separates the block.
* **`Endpoint.displayFor_retargets`** — a parsed dial string can be rendered for another target, and
  is one endpoint's alone.
-/

namespace EslTokio

open Library SwitchPasses

/-! ### Escaped dollars -/

/-- A guard anywhere makes expansion read escapes. -/
theorem hasEscapedData_of_within {x : Text} (h : ['\\', '\''] <:+: x) :
    hasEscapedData x = true := by
  by_contra hplain
  rw [Bool.not_eq_true] at hplain
  obtain ⟨before, after, rfl⟩ := h
  rw [List.append_assoc] at hplain
  induction before with
  | nil => exact (hasEscapedData_escape hplain).2 rfl
  | cons c before ih => exact ih (hasEscapedData_cons_false hplain)

theorem guard_infix_escapeText (field : EscapedField) {text : Text}
    {target : DialStringTarget} (h : protectsDollars text target = true) :
    ['\\', '\''] <:+: escapeText text target field := by
  rw [escapeText_eq, h, wireText]
  generalize wire target.carrier.expands true (passes target field) (field.atoms text) = written
  split_ifs
  · exact ⟨['\''], written ++ ['\''], by simp [quoted, dollarGuard]⟩
  · exact ⟨[], written, rfl⟩

/-- A field in a text that holds its render. -/
theorem Written.of_within {target : DialStringTarget} {text whole : Text} (hfree : '\x00' ∉ text)
    (hunexpanded : target.Unexpanded text) {field : EscapedField}
    (hwithin : escapeText text target field <:+: whole) :
    Written target (hasEscapedData whole) text :=
  ⟨hfree, hunexpanded, fun h =>
      hasEscapedData_of_within ((guard_infix_escapeText field h).trans hwithin)⟩

namespace Variables

variable {vars : Variables} {target : DialStringTarget}

theorem writePair_within {pair : Text × Text} (h : pair ∈ vars.pairs) :
    vars.writePair target pair <:+: vars.writeFor target := by
  have hjoined : vars.writePair target pair <:+:
      [vars.separator.getD ','].intercalate (vars.pairs.map (vars.writePair target)) :=
    Search.infix_intercalate_of_mem (List.mem_map_of_mem h)
  rw [writeFor, List.append_assoc]
  exact (hjoined.trans (List.prefix_append _ _).isInfix).trans (List.suffix_append _ _).isInfix

/-- No key and no value names a variable the carrier would expand. -/
def Unexpanded (vars : Variables) (target : DialStringTarget) : Prop :=
  ∀ pair ∈ vars.pairs, target.Unexpanded pair.1 ∧ target.Unexpanded pair.2

/-- Only the dialplan expands. -/
theorem unexpanded_eslApi (vars : Variables) (hcarrier : target.carrier = .eslApi) :
    vars.Unexpanded target := by
  have hnone : ∀ text, target.Unexpanded text := fun text hdialplan =>
    absurd (hcarrier.symm.trans hdialplan) (by decide)
  exact fun pair _ => ⟨hnone pair.1, hnone pair.2⟩

/-- The fields of a block, in a text that holds the block. -/
theorem Admitted.written (h : vars.Admitted) (hunexpanded : vars.Unexpanded target) {whole : Text}
    (hwithin : vars.writeFor target <:+: whole) :
    ∀ pair ∈ vars.pairs, Written target (hasEscapedData whole) pair.1 ∧
      Written target (hasEscapedData whole) pair.2 := by
  intro pair hpair
  obtain ⟨hfree, hfree'⟩ := h.free pair hpair
  obtain ⟨hkey, hvalue⟩ := hunexpanded pair hpair
  have hpairWithin : vars.writePair target pair <:+: whole := (writePair_within hpair).trans hwithin
  rw [writePair, escapeValue] at hpairWithin
  exact ⟨.of_within hfree hkey ((List.prefix_append _ _).isInfix.trans hpairWithin),
    .of_within hfree' hvalue
      ((List.suffix_append_of_suffix (List.suffix_cons _ _)).isInfix.trans hpairWithin)⟩

/-- No render of a block holds a NUL. -/
theorem Admitted.free_writeFor (h : vars.Admitted) (hcarrier : target.carrier = .eslApi) :
    '\x00' ∉ vars.writeFor target := by
  have hpair : ∀ pair ∈ vars.pairs, '\x00' ∉ vars.writePair target pair := by
    intro pair hpair
    obtain ⟨hfree, hfree'⟩ := h.free pair hpair
    rw [writePair, escapeValue, wireText_split hcarrier,
      wireText_split hcarrier, List.mem_append, List.mem_cons]
    rintro (hkey | hequals | hvalue)
    · exact nulFree_fieldText hfree _ _ hkey
    · exact absurd hequals (by decide)
    · exact nulFree_fieldText hfree' _ _ hvalue
  have hsep : vars.separator.getD ',' ≠ '\x00' := (separator_getD h.chosen).1.cutting.ne_nul
  have hjoined : '\x00' ∉ [vars.separator.getD ','].intercalate
      (vars.pairs.map (vars.writePair target)) := by
    rw [← List.singleton_infix_iff]
    intro hwithin
    obtain ⟨x, hx, hwithin⟩ := Search.infix_intercalate (List.cons_ne_nil _ _)
      (fun hmem => hsep (List.mem_singleton.mp hmem)) hwithin
    obtain ⟨pair, hmem, rfl⟩ := List.mem_map.mp hx
    exact hpair pair hmem ((List.singleton_infix_iff _ _).mp hwithin)
  have hbrackets : '\x00' ≠ vars.scope.delimiters.1 ∧ '\x00' ≠ vars.scope.delimiters.2 := by
    cases vars.scope <;> decide
  have hhead : '\x00' ∉ vars.separator.elim [] fun sep => ['^', '^', sep] := by
    cases hseparator : vars.separator with
    | none => exact List.not_mem_nil
    | some sep =>
        rw [hseparator] at hsep
        have hne : '\x00' ≠ sep := Ne.symm hsep
        simp [hne]
  rw [writeFor]
  simp only [List.mem_cons, List.mem_append, not_or]
  exact ⟨⟨⟨hbrackets.1, hhead⟩, hjoined⟩, hbrackets.2, List.not_mem_nil⟩

/-- A render opens with a bracket. -/
theorem head_writeFor (vars : Variables) (target : DialStringTarget) :
    ∃ inside, vars.writeFor target = vars.scope.delimiters.1 :: inside := by
  rw [writeFor, List.append_assoc, List.cons_append]
  exact ⟨_, rfl⟩

/-- Whether the separator reads as part of the delimiter of threads, where a target's pass leaves
quotes or takes them, and no enterprise block is taken off ahead of the threads. -/
def crosses (vars : Variables) (quotes : Bool) : Bool :=
  vars.separator = some '_' && vars.scope ≠ .enterprise && SwitchPasses.crosses quotes vars.pairs

/-- The char the switch splits the pairs of a block at; those of a leg had their commas hidden. -/
def splitter (vars : Variables) : Char :=
  vars.separator.getD (if vars.scope = .channel then unquotedEscComma else ',')

/-- Whether the block that arrives holds the delimiter of threads. -/
theorem Admitted.threads_passed (h : vars.Admitted) (quotes : Bool) :
    enterpriseDelim <:+: blockText vars.scope vars.separator quotes (blockPasses vars.scope)
        vars.pairs ↔
      vars.separator = some '_' ∧ SwitchPasses.crosses quotes vars.pairs = true := by
  obtain ⟨level, hlevel⟩ : ∃ level, blockPasses vars.scope = level + 1 :=
    ⟨1 + legSplitPasses vars.scope, by rw [blockPasses]; omega⟩
  rw [hlevel]
  exact threads_blockText h.fills h.chosen quotes level

/-- One whose pairs do not meet holds it in an enterprise block alone. -/
theorem Admitted.enterprise_of_threads (h : vars.Admitted) {quotes : Bool}
    (hcrosses : vars.crosses quotes = false) (hwithin : enterpriseDelim <:+: blockText vars.scope
      vars.separator quotes (blockPasses vars.scope) vars.pairs) : vars.scope = .enterprise := by
  obtain ⟨hsep, hmeets⟩ := (h.threads_passed quotes).mp hwithin
  by_contra hother
  rw [crosses, hmeets, hsep] at hcrosses
  simp [hother] at hcrosses

end Variables

namespace Endpoint

variable {ep : Endpoint} {target : DialStringTarget}

/-- The variables a render writes: a block without pairs is left out. -/
def block (ep : Endpoint) : Option Variables := ep.vars.filter fun vars => vars.isEmpty = false

/-- Whether the module text is written as it is. -/
def isVerbatim : Endpoint → Bool
  | .error _ | .sofiaContact _ | .groupCall _ => true
  | _ => false

/-- The module text as a render writes it. -/
def writeModule (ep : Endpoint) (target : DialStringTarget) : Text :=
  if ep.isVerbatim = true then ep.moduleText else escapeText ep.moduleText target .endpoint

theorem block_eq_some {vars : Variables} : ep.block = some vars ↔ ep.vars = some vars ∧
    vars.pairs ≠ [] := by
  rw [block, Option.filter_eq_some_iff]
  simp [Variables.isEmpty]

/-- A render is a block, if there is one, and the module text. -/
theorem writeFor_eq (ep : Endpoint) (hargument : target.argvSeparator = none) :
    ep.writeFor target = (ep.block.elim [] fun vars => vars.writeFor target) ++
      ep.writeModule target := by
  have hvars : writeVariables ep.vars target = ep.block.elim [] fun vars =>
      vars.writeFor target := by
    rw [block]
    cases ep.vars with
    | none => rfl
    | some vars =>
        have hdisplay : vars.displayFor target = vars.writeFor target := by
          rw [Variables.displayFor, DialStringTarget.writeArgument, hargument]
        show (if vars.isEmpty = true then [] else vars.displayFor target) = _
        rw [Option.filter_some, hdisplay]
        cases vars.isEmpty <;> rfl
  cases ep with
  | error ep => rfl
  | sofiaContact ep | groupCall ep => exact congrArg (· ++ _) hvars
  | _ => exact congrArg (· ++ escapeText _ target .endpoint) hvars

/-- What a load accepts of an endpoint, and no pass of a target reads as its own. -/
structure Dialable (ep : Endpoint) (target : DialStringTarget) : Prop where
  accepted : ep.checkDeliverable = .ok ()
  free : '\x00' ∉ ep.moduleText
  vars : ∀ vars ∈ ep.vars, vars.Accepted
  unexpanded : ∀ vars ∈ ep.vars, vars.Unexpanded target
  module : ep.isExpression = false → target.Unexpanded ep.moduleText

/-- Such an endpoint whose block splits on commas. -/
structure Deliverable (ep : Endpoint) (target : DialStringTarget) : Prop
    extends Dialable ep target where
  commas : ∀ vars ∈ ep.vars, vars.separator = none

theorem Dialable.dialled (h : ep.Dialable target) : Dialled ep.moduleText :=
  Endpoint.dialled h.accepted h.free

theorem Deliverable.loaded (h : ep.Deliverable target) {vars : Variables}
    (hvars : ep.vars = some vars) : vars.Loaded :=
  ⟨h.vars vars hvars, h.commas vars hvars⟩

theorem inert_of_verbatim (h : ep.Dialable target) (hverbatim : ep.isVerbatim = true) :
    Inert ep.moduleText := by
  cases ep with
  | error ep => exact ep.inert
  | sofiaContact ep => exact (reference h.accepted rfl).inert
  | groupCall ep => exact (reference h.accepted rfl).inert
  | _ => cases hverbatim

/-- Expansion leaves a module text that is written as it is. -/
theorem expands_verbatim (h : ep.Dialable target) (hverbatim : ep.isVerbatim = true)
    (all : Bool) :
    Expands all ep.moduleText ep.moduleText := by
  have hexpression : ep.isExpression = true → Expands all ep.moduleText ep.moduleText := by
    intro hexpression
    obtain ⟨body, htext, hwhole⟩ := (reference h.accepted hexpression).whole
    rw [htext]
    exact .reference hwhole
  cases ep with
  | error ep =>
      exact .of_plain all (fun hmem => ep.inert '\\' hmem (by decide)) ep.dollar_notMem
  | sofiaContact ep => exact hexpression rfl
  | groupCall ep => exact hexpression rfl
  | _ => cases hverbatim

/-- What the pass of a target leaves of the module text. -/
theorem delivers_module (h : ep.Dialable target) {edge : DialStringTarget} {all : Bool}
    (hwritten : ep.isVerbatim = false → Written edge all ep.moduleText) :
    Delivers edge all (ep.writeModule edge)
      (fieldText edge.keepsQuotes 2 (EscapedField.endpoint.atoms ep.moduleText)) := by
  rw [writeModule]
  split_ifs with hverbatim
  · have hinert := inert_of_verbatim h hverbatim
    have hrendered : ∀ atom ∈ EscapedField.endpoint.atoms ep.moduleText,
        atom.Rendered 2 := fun atom =>
      EscapedField.rendered_atoms h.free
    have hthrough := blankThrough_fieldText hrendered
    have htakes := takes_fieldText_blank hrendered
    rw [← fieldText_false, fieldText_inert hinert, fieldText_inert hinert] at htakes
    rw [fieldText_inert hinert] at hthrough ⊢
    exact ⟨fun _ _ => ⟨hthrough, htakes⟩, fun _ => rfl, fun _ => expands_verbatim h hverbatim all⟩
  · exact delivers_field .endpoint (hwritten (by simpa using hverbatim))

/-- Where nothing is expanded every module text is written with all its escapes. -/
theorem writeModule_split (h : ep.Dialable target) {edge : DialStringTarget}
    (hcarrier : edge.carrier = .eslApi) :
    ep.writeModule edge = fieldText true (passes edge .endpoint)
      (EscapedField.endpoint.atoms ep.moduleText) := by
  rw [writeModule]
  split_ifs with hverbatim
  · rw [fieldText_inert (inert_of_verbatim h hverbatim)]
  · exact wireText_split hcarrier .endpoint ep.moduleText

/-- A dial string behind the pass of a target. -/
def passed (ep : Endpoint) (target : DialStringTarget) : Text :=
  (ep.block.elim [] fun vars => vars.passed target) ++
    fieldText target.keepsQuotes 2 (EscapedField.endpoint.atoms ep.moduleText)

end Endpoint

namespace DialStringTarget

theorem edge_argvSeparator (target : DialStringTarget) : target.edge.argvSeparator = none := by
  rw [edge]
  cases hseparator : target.argvSeparator with
  | none => rwa [Option.isSome_none, if_neg Bool.false_ne_true]
  | some sep =>
      obtain ⟨carrier, blockParse, argument, valid⟩ := target
      cases argument with
      | char sep =>
          obtain rfl : carrier = .eslApi := (valid.1 sep rfl).1
          rfl
      | blank | consumed => cases hseparator

theorem edge_carrier (target : DialStringTarget) : target.edge.carrier = target.carrier := by
  rw [edge]
  split_ifs with hseparator
  · obtain ⟨carrier, blockParse, argument, valid⟩ := target
    cases carrier <;> rfl
  · rfl

theorem Unexpanded.edge {target : DialStringTarget} {text : Text} (h : target.Unexpanded text) :
    target.edge.Unexpanded text := fun hcarrier => h (target.edge_carrier ▸ hcarrier)

end DialStringTarget

namespace Endpoint

variable {ep : Endpoint} {target : DialStringTarget}

/-- **What the pass of a target leaves of a dial string.** -/
theorem delivers_writeFor (h : ep.Dialable target) :
    Delivers target.edge (hasEscapedData (ep.writeFor target.edge)) (ep.writeFor target.edge)
      (ep.passed target.edge) := by
  have hwrite := ep.writeFor_eq target.edge_argvSeparator
  generalize hwhole : ep.writeFor target.edge = whole at hwrite ⊢
  have hmodule : Delivers target.edge (hasEscapedData whole) (ep.writeModule target.edge)
      (fieldText target.edge.keepsQuotes 2 (EscapedField.endpoint.atoms ep.moduleText)) := by
    refine delivers_module h fun hverbatim => ?_
    have hexpression : ep.isExpression = false := by cases ep <;> first | rfl | cases hverbatim
    have hescaped : escapeText ep.moduleText target.edge .endpoint =
        ep.writeModule target.edge := by
      rw [writeModule, hverbatim, if_neg Bool.false_ne_true]
    have hwithin : escapeText ep.moduleText target.edge .endpoint <:+: whole := by
      rw [hescaped, hwrite]
      exact (List.suffix_append _ _).isInfix
    exact .of_within h.free (h.module hexpression).edge hwithin
  rw [passed]
  cases hblock : ep.block with
  | none =>
      rw [hblock] at hwrite
      have hbare : ep.writeModule target.edge = whole := hwrite.symm
      rw [hbare] at hmodule
      exact hmodule
  | some vars =>
      obtain ⟨hvars, hne⟩ := block_eq_some.mp hblock
      have haccepted := h.vars vars hvars
      have hunexpanded : vars.Unexpanded target.edge := fun pair hpair =>
        ⟨(h.unexpanded vars hvars pair hpair).1.edge, (h.unexpanded vars hvars pair hpair).2.edge⟩
      have hwritten : vars.writeFor target.edge <:+: whole := by
        rw [hwrite, hblock]
        exact (List.prefix_append _ _).isInfix
      have hconveys := conveys_block haccepted.chosen (haccepted.written hunexpanded hwritten)
      rw [hblock] at hwrite
      have hjoined : vars.writeFor target.edge ++ ep.writeModule target.edge = whole := hwrite.symm
      have hdelivers := hconveys.deliver hmodule
      rw [hjoined] at hdelivers
      exact hdelivers

/-- The argument split leaves a render whole. -/
theorem splittable_writeFor (h : ep.Dialable target) (hcarrier : target.carrier = .eslApi) :
    Splittable (ep.writeFor target.edge) := by
  have hedge : target.edge.carrier = .eslApi := target.edge_carrier.trans hcarrier
  obtain ⟨level, hlevel⟩ : ∃ level, passes target.edge .endpoint = level + 1 :=
    ⟨target.edge.argumentPasses + 1, by rw [passes_eq]; rfl⟩
  have hmodule := writeModule_split h hedge
  rw [hlevel] at hmodule
  have hdialled := h.dialled
  have hne : ep.writeModule target.edge ≠ [] :=
    hmodule ▸ EscapedField.fieldText_ne_nil _ hdialled.ne h.free true level
  have hfree : '\x00' ∉ ep.writeModule target.edge :=
    hmodule ▸ nulFree_fieldText h.free true (level + 1)
  have htrimmed : Trimmed (ep.writeModule target.edge) :=
    hmodule ▸ EscapedField.trimmed_fieldText _ hdialled.ne
      h.free true level
  rw [ep.writeFor_eq target.edge_argvSeparator]
  cases hblock : ep.block with
  | none =>
      refine ⟨hne, hfree, htrimmed, headless_of_head fun hhead => ?_⟩
      rw [Option.elim_none, List.nil_append, hmodule] at hhead
      exact hdialled.head_notMem true level '^' hhead (by decide)
  | some vars =>
      have hfree' := (h.vars vars (block_eq_some.mp hblock).1).free_writeFor hedge
      obtain ⟨inside, hwrite⟩ := vars.head_writeFor target.edge
      rw [Option.elim_some]
      rw [hwrite] at hfree' ⊢
      have hopener : vars.scope.delimiters.1 ≠ ' ' ∧ vars.scope.delimiters.1 ≠ '^' := by
        cases vars.scope <;> decide
      refine ⟨List.cons_ne_nil _ _, ?_, Trimmed.behind hopener.1 hne htrimmed,
        headless_of_head fun hhead => ?_⟩
      · exact fun hmem => (List.mem_append.mp hmem).elim hfree' hfree
      · exact hopener.2 (Option.some.inj hhead)

/-- An endpoint opens with no white space. -/
theorem head_writeFor (h : ep.Dialable target)
    (hcarrier : target.carrier = .eslApi) :
    ∀ c ∈ (ep.writeFor target.edge).head?, c ∉ strippedWhitespace := by
  have hsplit := splittable_writeFor h hcarrier
  intro c hc hmem
  have hspace := hsplit.trimmed.head c hc
  have hstructural : ∀ c ∈ strippedWhitespace, c ≠ ' ' → Structural c ∧
      c ∉ ['s', 'l', 'u', '$', 'e', 'p', 'a'] := by
    decide
  obtain ⟨hc', hletter⟩ := hstructural c hmem hspace
  rw [ep.writeFor_eq target.edge_argvSeparator] at hc
  cases hblock : ep.block with
  | none =>
      have hmodule := writeModule_split h (target.edge_carrier.trans hcarrier)
      rw [hblock, Option.elim_none, List.nil_append, hmodule] at hc
      obtain ⟨first, hfirst, hhead⟩ := head_moduleText ep
      have hsame := (EscapedField.head_fieldText h.free hc' hc).symm.trans hhead
      exact hletter (Option.some.inj hsame ▸ hfirst)
  | some vars =>
      obtain ⟨inside, hwrite⟩ := vars.head_writeFor target.edge
      rw [hblock, Option.elim_some, hwrite] at hc
      obtain rfl : vars.scope.delimiters.1 = c := Option.some.inj hc
      revert hmem
      cases vars.scope <;> decide

/-- A dial string is one token of the blank split. -/
theorem joint_blank (h : ep.Dialable target) (hcarrier : target.carrier = .eslApi)
    (hargument : target.argument = .blank) :
    Joint ' ' (ep.displayFor target) ∧ Headless (ep.displayFor target) ∧
      ∀ c ∈ (ep.displayFor target).head?, c ∉ strippedWhitespace := by
  have hedge : target.edge = target := by
    simp [DialStringTarget.edge, DialStringTarget.argvSeparator, hargument]
  have hdisplay : ep.displayFor target = ep.writeFor target := by
    simp [displayFor, DialStringTarget.writeArgument, DialStringTarget.argvSeparator, hargument]
  have hsplittable := splittable_writeFor h hcarrier
  have hhead := head_writeFor h hcarrier
  have hthrough := ((delivers_writeFor h).split (target.edge_carrier.trans hcarrier)
    (hedge.symm ▸ hargument)).1
  rw [hedge] at hsplittable hhead hthrough
  rw [hdisplay]
  exact ⟨⟨hsplittable.ne, hsplittable.free, hsplittable.trimmed, hthrough⟩,
    hsplittable.headless, hhead⟩

/-- A dial string is one token of the split on a separator. -/
theorem joint_separator (h : ep.Dialable target) {sep : Char}
    (hargument : target.argument = .char sep) :
    Joint sep (ep.displayFor target) := by
  obtain ⟨hcarrier, husable⟩ := target.valid.1 sep hargument
  have hedge : target.edge = target.inner := by
    simp [DialStringTarget.edge, DialStringTarget.argvSeparator, hargument]
  have hdisplay : ep.displayFor target = writeEscaped sep (ep.writeFor target.inner) := by
    simp [displayFor, DialStringTarget.writeArgument, DialStringTarget.argvSeparator, hargument]
  have hsplittable := splittable_writeFor h hcarrier
  rw [hedge] at hsplittable
  rw [hdisplay]
  exact (joint_writeEscaped (ApiSeparator.escaping (.inr husable)) hsplittable.free
    hsplittable.ne).1

/-- A render of an endpoint arrives at every target. -/
theorem arrives_displayFor (h : ep.Dialable target) :
    Arrives target (ep.displayFor target) (ep.passed target.edge) :=
  (delivers_writeFor h).arrives (splittable_writeFor h)

/-- The blocks of a render, as the switch reads them. -/
def blocks (ep : Endpoint) : List Block :=
  (ep.block.map fun vars => blockOf vars.scope vars.pairs).toList

/-- A `[]` block is read as the pairs of its variables, where they make no threads. -/
theorem reads_leg {vars : Variables} (hadmitted : vars.Admitted) (hscope : vars.scope = .channel)
    {endpoint : Text} (htrailing : Trailing endpoint) {cells : List Traced}
    (hordered : Ordered 0 cells) {target : DialStringTarget}
    (hchars : chars cells = vars.passed target ++
      fieldText target.keepsQuotes 2 (EscapedField.endpoint.atoms endpoint))
    (hthreads : ¬ enterpriseDelim <:+: blockText vars.scope vars.separator target.keepsQuotes
      (blockPasses vars.scope) vars.pairs) (blockParse : BlockParse) (raw : Span) (carried : Bool) :
    ReadsLeg (dialList cells raw carried blockParse)
      [separatedBlock vars.scope vars.separator (kept vars.splitter vars.pairs)] endpoint := by
  have hchosen := hadmitted.chosen
  have hfills := hadmitted.fillsLeg hscope
  rw [Variables.passed, List.cons_append, List.append_assoc, List.singleton_append] at hchars
  rw [Variables.splitter, if_pos hscope]
  rw [hscope] at hchars hchosen hthreads ⊢
  cases hseparator : vars.separator with
  | none =>
      rw [hseparator] at hchars
      exact dialList_channel hfills htrailing hordered hchars raw carried
  | some sep =>
      rw [hseparator] at hchars hchosen hthreads
      exact dialList_named hfills hchosen htrailing hordered hchars hthreads raw carried

/-- A block ahead of an endpoint is read as the pairs of its variables, where they make no
threads. -/
theorem reads_block {vars : Variables} (hadmitted : vars.Admitted) {endpoint : Text}
    (hdialled : Dialled endpoint) {cells : List Traced} (hordered : Ordered 0 cells)
    {target : DialStringTarget}
    (hchars : chars cells = vars.passed target ++
      fieldText target.keepsQuotes 2 (EscapedField.endpoint.atoms endpoint))
    (hthreads : ¬ enterpriseDelim <:+: blockText vars.scope vars.separator target.keepsQuotes
      (blockPasses vars.scope) vars.pairs) (blockParse : BlockParse) (raw : Span) (carried : Bool) :
    ReadsLeg (dialList cells raw carried blockParse)
      [separatedBlock vars.scope vars.separator (kept vars.splitter vars.pairs)] endpoint := by
  by_cases hscope : vars.scope = .channel
  · exact reads_leg hadmitted hscope hdialled.toTrailing hordered hchars hthreads blockParse raw
      carried
  · have hpasses : blockPasses vars.scope = 2 := by
      cases hkind : vars.scope with
      | channel => exact absurd hkind hscope
      | enterprise | default => rfl
    rw [Variables.passed, List.cons_append, List.append_assoc, List.singleton_append] at hchars
    rw [Variables.splitter, if_neg hscope]
    rw [hpasses] at hchars hthreads
    exact dialList_head hadmitted.fills hscope hadmitted.chosen hdialled hordered hchars hthreads
      raw carried

/-- Nor do they where commas separate them. -/
theorem reads_loaded {vars : Variables} (hloaded : vars.Loaded) {endpoint : Text}
    (hdialled : Dialled endpoint) {cells : List Traced}
    (hordered : Ordered 0 cells) {target : DialStringTarget}
    (hchars : chars cells = vars.passed target ++
      fieldText target.keepsQuotes 2 (EscapedField.endpoint.atoms endpoint))
    (blockParse : BlockParse) (raw : Span) (carried : Bool) :
    ReadsLeg (dialList cells raw carried blockParse) [blockOf vars.scope vars.pairs] endpoint := by
  have hthreads : ¬ enterpriseDelim <:+: blockText vars.scope vars.separator target.keepsQuotes
      (blockPasses vars.scope) vars.pairs := by
    rw [hloaded.commas]
    exact threads_pairsText (by decide) hloaded.fills.sendable
  have hreads := reads_block hloaded.toAdmitted hdialled hordered hchars hthreads blockParse raw
    carried
  rwa [kept_eq hloaded.length, hloaded.commas] at hreads

/-- A block ahead of an endpoint is read as the pairs of its variables, where no two of them meet at
its separator. -/
theorem carries_block {vars : Variables} (hadmitted : vars.Admitted) {endpoint : Text}
    (hdialled : Dialled endpoint) {cells : List Traced}
    (hordered : Ordered 0 cells) {target : DialStringTarget}
    (hchars : chars cells = vars.passed target ++
      fieldText target.keepsQuotes 2 (EscapedField.endpoint.atoms endpoint))
    (hcrosses : vars.crosses target.keepsQuotes = false) (blockParse : BlockParse) (raw : Span)
    (carried : Bool) :
    CarriesLeg (dialList cells raw carried blockParse)
      [separatedBlock vars.scope vars.separator (kept vars.splitter vars.pairs)] endpoint := by
  by_cases hwithin : enterpriseDelim <:+: blockText vars.scope vars.separator
      target.keepsQuotes (blockPasses vars.scope) vars.pairs
  · -- An enterprise block is taken off ahead of the split, so that nothing of it is cut.
    have hscope := hadmitted.enterprise_of_threads hcrosses hwithin
    have hfills := hadmitted.fills
    have hchosen := hadmitted.chosen
    rw [Variables.passed, List.cons_append, List.append_assoc, List.singleton_append] at hchars
    rw [Variables.splitter, if_neg (by rw [hscope]; decide)]
    rw [hscope] at hfills hchosen hchars hwithin ⊢
    exact dialList_enterprise hfills hchosen hdialled hordered hchars hwithin raw carried
  · have hreads := reads_block hadmitted hdialled hordered hchars hwithin blockParse raw carried
    exact hreads.carries

/-- No two pairs of an endpoint's block meet at its separator. -/
def Uncrossed (ep : Endpoint) (target : DialStringTarget) : Prop :=
  ∀ vars ∈ ep.vars, vars.crosses target.edge.keepsQuotes = false

/-- The blocks of a render and their separators, as the switch reads them. -/
def separatedBlocks (ep : Endpoint) : List Block :=
  (ep.block.map fun vars => separatedBlock vars.scope vars.separator vars.pairs).toList

/-- The text that arrives is one leg. -/
theorem carries_passed (h : ep.Dialable target) (huncrossed : ep.Uncrossed target)
    {cells : List Traced} (hordered : Ordered 0 cells)
    (hchars : chars cells = ep.passed target.edge) (raw : Span) (carried : Bool) :
    CarriesLeg (dialList cells raw carried target.blockParse) ep.separatedBlocks ep.moduleText := by
  have hdialled := h.dialled
  rw [passed] at hchars
  rw [separatedBlocks]
  cases hblock : ep.block with
  | none =>
      rw [hblock] at hchars
      exact (dialList_bare hdialled hordered hchars raw carried).carries
  | some vars =>
      obtain ⟨hvars, hne⟩ := block_eq_some.mp hblock
      rw [hblock, Option.elim_some] at hchars
      have haccepted := h.vars vars hvars
      have hcarries := carries_block haccepted.toAdmitted hdialled hordered hchars
        (huncrossed vars hvars) target.blockParse raw carried
      rwa [kept_eq haccepted.length] at hcarries

/-- The text that arrives is read as one leg. -/
theorem reads_passed (h : ep.Deliverable target) {cells : List Traced} (hordered : Ordered 0 cells)
    (hchars : chars cells = ep.passed target.edge) (raw : Span) (carried : Bool) :
    ReadsLeg (dialList cells raw carried target.blockParse) ep.blocks ep.moduleText := by
  have hdialled := h.dialled
  rw [passed] at hchars
  rw [blocks]
  cases hblock : ep.block with
  | none =>
      rw [hblock] at hchars
      exact dialList_bare hdialled hordered hchars raw carried
  | some vars =>
      obtain ⟨hvars, hne⟩ := block_eq_some.mp hblock
      rw [hblock, Option.elim_some] at hchars
      rw [Option.map_some, Option.toList_some]
      exact reads_loaded (h.loaded hvars) hdialled hordered hchars target.blockParse raw carried

/-- **A dial string is dialled as written**: the switch reads one leg, with the variables of the
endpoint and its module text. -/
theorem dials_displayFor (h : ep.Deliverable target) :
    ReadsLeg (read (ep.displayFor target) target) ep.blocks ep.moduleText := by
  obtain ⟨cells, raw, carried, hordered, hchars, hread⟩ := (arrives_displayFor h.toDialable).read
  rw [hread]
  exact reads_passed h hordered hchars raw carried

end Endpoint

/-! ### Round trips -/

/-- One leg with at most one block is what a parse reads. -/
theorem readLeg_of_carries {text endpoint : Text} {target : DialStringTarget} {block : Option Block}
    (h : CarriesLeg (read text target) block.toList endpoint) :
    readLeg text target = .ok (block, endpoint) := by
  obtain ⟨list, thread, leg, hread, hthreads, hgroups, hall, rfl⟩ := h.single
  unfold readLeg
  simp only [hread, hthreads, hgroups, hall]
  cases block <;> rfl

namespace Endpoint

theorem kind_canonical (ep : Endpoint) (vars : Option Variables) :
    (ep.canonical.setVariables vars).kind = ep.kind := by
  cases ep with
  | loopback ep =>
      obtain ⟨extension, context, dialplan, own⟩ := ep
      cases context <;> cases dialplan <;> rfl
  | _ => rfl

theorem checkExpanded_canonical (ep : Endpoint) (vars : Option Variables)
    (carrier : DialStringCarrier) :
    (ep.canonical.setVariables vars).checkExpanded carrier = ep.checkExpanded carrier := by
  have hexpression : (ep.canonical.setVariables vars).isExpression = ep.isExpression := by
    cases ep with
    | loopback ep =>
        obtain ⟨extension, context, dialplan, own⟩ := ep
        cases context <;> cases dialplan <;> rfl
    | _ => rfl
  cases carrier with
  | dialplan => rfl
  | eslApi => rw [checkExpanded, checkExpanded, hexpression, kind_canonical]

/-- The blocks of a render install the variables it was made of. -/
theorem installedVariables_block {target : DialStringTarget} {ep : Endpoint}
    (h : ep.Dialable target) :
    installedVariables (ep.block.map fun vars =>
      separatedBlock vars.scope vars.separator vars.pairs) =
        .ok (ep.block.map Variables.unseparated) := by
  cases hblock : ep.block with
  | none => rfl
  | some vars =>
      obtain ⟨hvars, hne⟩ := block_eq_some.mp hblock
      have hisEmpty : vars.unseparated.isEmpty = false := List.isEmpty_eq_false_iff.mpr hne
      show (do
        let read ← Variables.fromBlock (separatedBlock vars.scope vars.separator vars.pairs)
        return if read.isEmpty then none else some read) = _
      rw [fromBlock_separatedBlock (h.vars vars hvars).toAdmitted]
      show Except.ok (if vars.unseparated.isEmpty = true then none else some vars.unseparated) = _
      rw [hisEmpty, if_neg Bool.false_ne_true, Option.map_some]

/-- The leg a parse reads of a render. -/
theorem parseLeg_displayFor {target : DialStringTarget} {ep : Endpoint}
    (h : ep.Dialable target) (huncrossed : ep.Uncrossed target) {α : Type}
    (bare : Text → Except OriginateError α) :
    parseLeg (ep.displayFor target) target bare =
      (do return (ep.block.map Variables.unseparated, ← bare ep.moduleText)) := by
  obtain ⟨argument, later, hcuts⟩ := (arrives_displayFor h).parsed
  obtain ⟨cells, raw, carried, hordered, hchars, hread⟩ :=
    (arrives_displayFor h).read_argument hcuts
  have hcarries : CarriesLeg (read argument later) ep.separatedBlocks ep.moduleText := by
    rw [hread]
    exact carries_passed h huncrossed hordered hchars raw carried
  have hleg := readLeg_of_carries hcarries
  rw [parseLeg]
  simp only [hcuts.cut, bind, Except.bind, hleg, installedVariables_block h]

theorem setVariables_canonical {ep : Endpoint} {own : Variables} (vars : Variables)
    (h : ep.vars = some own) :
    (ep.canonical.setVariables none).setVariables (some vars) =
    ep.canonical.setVariables (some vars) ∧
      (ep.canonical.setVariables (some vars)).vars = some vars := by
  cases ep with
  | error ep => cases h
  | loopback ep =>
      obtain ⟨extension, context, dialplan, own⟩ := ep
      cases context <;> cases dialplan <;> exact ⟨rfl, rfl⟩
  | _ => exact ⟨rfl, rfl⟩

/-- **The parse for a target gives back what was rendered for it**, an endpoint as its own text
names it and a block without its separator, and refuses an expression where nothing would expand it.
-/
theorem parseFor_displayFor {target : DialStringTarget} {ep : Endpoint}
    (h : ep.Dialable target) (huncrossed : ep.Uncrossed target) :
    parseFor (ep.displayFor target) target = (do
      ep.checkExpanded target.carrier
      return ep.canonical.setVariables (ep.block.map Variables.unseparated)) := by
  have hbare : parseBare ep.moduleText = .ok (ep.canonical.setVariables none) :=
    parseBare_of_parsed (parsed_canonical h.accepted)
  have hleg : parseLeg (ep.displayFor target) target parseBare =
      .ok (ep.block.map Variables.unseparated, ep.canonical.setVariables none) := by
    rw [parseLeg_displayFor h huncrossed, hbare]
    rfl
  rw [parseFor, hleg]
  show (do
    (ep.canonical.setVariables none).checkExpanded target.carrier
    if (ep.block.map Variables.unseparated).isSome = true then
      let ep' := (ep.canonical.setVariables none).setVariables
        (ep.block.map Variables.unseparated)
      if ep'.vars.isNone = true then .error (.variablesNotSupported ep'.kind) else return ep'
    else return ep.canonical.setVariables none) = _
  rw [checkExpanded_canonical]
  cases hblock : ep.block with
  | none => rfl
  | some vars =>
      obtain ⟨htwice, hvars⟩ :=
        setVariables_canonical vars.unseparated (block_eq_some.mp hblock).1
      simp only [Option.map_some, Option.isSome_some, if_true, htwice, hvars, Option.isNone_some,
        Bool.false_eq_true, if_false]

/-- A block that splits on commas has no separator to drop, nor one that two pairs could meet at. -/
theorem Deliverable.separators {target : DialStringTarget} {ep : Endpoint}
    (h : ep.Deliverable target) :
    ep.Uncrossed target ∧ ep.block.map Variables.unseparated = ep.block := by
  constructor
  · intro vars hvars
    rw [Variables.crosses, h.commas vars hvars]
    rfl
  · cases hblock : ep.block with
    | none => rfl
    | some vars =>
        exact congrArg some (h.loaded (block_eq_some.mp hblock).1).unseparated

/-! ### One text, one endpoint -/

theorem writeVariables_block (ep : Endpoint) (target : DialStringTarget) :
    writeVariables ep.block target = writeVariables ep.vars target := by
  rw [block]
  cases ep.vars with
  | none => rfl
  | some vars =>
      rw [Option.filter_some]
      cases hempty : vars.isEmpty with
      | true => simp [writeVariables, hempty]
      | false => rfl

/-- An endpoint as it is read back is rendered as it was. -/
theorem displayFor_canonical (ep : Endpoint) (target : DialStringTarget) :
    (ep.canonical.setVariables ep.block).displayFor target = ep.displayFor target := by
  have hwrite : ∀ target, (ep.canonical.setVariables ep.block).writeFor target =
      ep.writeFor target := by
    intro target
    have hvars := ep.writeVariables_block target
    cases ep with
    | error ep => rfl
    | loopback ep =>
        obtain ⟨extension, context, dialplan, own⟩ := ep
        cases context <;> cases dialplan <;> exact congrArg (· ++ _) hvars
    | _ => exact congrArg (· ++ _) hvars
  rw [displayFor, displayFor, DialStringTarget.writeArgument, DialStringTarget.writeArgument]
  cases target.argvSeparator with
  | none => exact hwrite target
  | some sep => exact congrArg (writeEscaped sep) (hwrite target.inner)

theorem setVariables_setVariables (ep : Endpoint) (vars later : Option Variables) :
    (ep.setVariables vars).setVariables later = ep.setVariables later := by
  cases ep <;> rfl

/-- **A dial string is one endpoint's, and can be rendered for another target**: what a parse gives
is rendered for every target as the endpoint itself, and no two endpoints share a text. -/
theorem displayFor_retargets {target : DialStringTarget} {ep : Endpoint}
    (h : ep.Deliverable target) :
    (ep.checkExpanded target.carrier = .ok () →
      ∃ parsed, parseFor (ep.displayFor target) target = .ok parsed ∧
        ∀ other, parsed.displayFor other = ep.displayFor other) ∧
    ∀ other : Endpoint, other.Deliverable target →
      other.displayFor target = ep.displayFor target →
        other.canonical.setVariables other.block = ep.canonical.setVariables ep.block := by
  obtain ⟨huncrossed, hunseparated⟩ := h.separators
  constructor
  · intro hexpanded
    refine ⟨ep.canonical.setVariables ep.block, ?_, ep.displayFor_canonical⟩
    rw [parseFor_displayFor h.toDialable huncrossed, hexpanded, hunseparated]
    rfl
  · intro other hother htext
    obtain ⟨hcrossed, hseparated⟩ := hother.separators
    have hleg := parseLeg_displayFor hother.toDialable hcrossed Except.ok
    rw [htext, parseLeg_displayFor h.toDialable huncrossed, hunseparated, hseparated] at hleg
    obtain ⟨hblock, hmodule⟩ := Prod.mk.inj (Except.ok.inj hleg)
    have hbare : other.canonical.setVariables none = ep.canonical.setVariables none := by
      have hread := parseBare_of_parsed (parsed_canonical hother.accepted)
      rw [← hmodule, parseBare_of_parsed (parsed_canonical h.accepted)] at hread
      exact (Except.ok.inj hread).symm
    rw [← other.canonical.setVariables_setVariables none, hbare, setVariables_setVariables, hblock]

/-- One variable whose value a comma, a bar and an edge space would cut. -/
def cutVariable (scope : VariablesType) : Variables :=
  ⟨scope, IndexMap.empty.insert "k".toList "a, b| ".toList, none⟩

theorem cutVariable_loaded (scope : VariablesType) : (cutVariable scope).Loaded := by
  cases scope <;> exact ⟨⟨⟨by decide +kernel, by decide, by decide⟩, by decide⟩, rfl⟩

/-- A user of a domain, behind channel variables. -/
def cutUser : Endpoint := .user ⟨"1001".toList, some "pbx".toList, some (cutVariable .channel)⟩

theorem cutUser_deliverable (target : DialStringTarget) : cutUser.Deliverable target := by
  refine ⟨⟨by decide +kernel, by decide, ?_, ?_, fun _ _ => by decide +kernel⟩, ?_⟩
  · rintro vars hvars
    obtain rfl := Option.some.inj hvars
    exact (cutVariable_loaded .channel).toAccepted
  · rintro vars hvars pair hpair
    obtain rfl := Option.some.inj hvars
    obtain rfl := List.mem_singleton.mp hpair
    exact ⟨fun _ => by decide +kernel, fun _ => by decide +kernel⟩
  · rintro vars hvars
    obtain rfl := Option.some.inj hvars
    rfl

theorem displayFor_retargets_cutUser :
    ∃ parsed, parseFor (cutUser.displayFor (.new .dialplan .pairSplitCleans))
      (.new .dialplan .pairSplitCleans) = .ok parsed ∧
      ∀ other, parsed.displayFor other = cutUser.displayFor other :=
  (displayFor_retargets (cutUser_deliverable (.new .dialplan .pairSplitCleans))).1 rfl

end Endpoint
end EslTokio
