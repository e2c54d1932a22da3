import EslTokio.Command.Originate
import EslTokio.DialString.Configured
import EslTokio.SwitchPasses.SlotLine
import Mathlib.Data.List.TakeWhile

/-!
# The originate line

`freeswitch-types/src/commands/originate/mod.rs` and `switch_passes/originate_function.rs`: the line
an originate is written as, on blanks or on a separator of its own, and the parse of such a line,
which reads the arguments behind the endpoint by their position.

* `Slots.read` — the arguments by position, `undef` for one that is absent.
* `Originate.writeWith`, `parseWith` — the line and its parse.
* `Originate.Sendable` — an originate a load accepts, and what it may carry.
* **`Originate.parseWith_writeWith`** — the round trip, whatever separates the arguments.
* **`Originate.arguments_arrive`** — the same of an extension or an application, text by text.
-/

namespace EslTokio

open Library SwitchPasses

/-! ### Positions -/

/-- An originate's arguments after the endpoint, as the switch reads them. -/
structure Slots where
  target : Text
  dialplan : Option Dialplan
  context : Option Text
  cidName : Option Text
  cidNum : Option Text
  timeout : Option Text
deriving DecidableEq, Repr

/-- The `undef` placeholder, in any case, read as the absent value it stands for. -/
def undefToNone (value : Text) : Option Text := if Text.eqIgnoreCase value undef = true then
    none else some value

/-- The tokens after the endpoint, read strictly by position. -/
def Slots.read (args : List Text) : Except OriginateError Slots :=
  match args.map undefToNone with
  | [] => .error (.parseError "missing target in originate".toList)
  | none :: _ => .error (.undefPositional "target")
  | some target :: later =>
      let slot := fun index : Nat => later[index]?.join
      if 5 < later.length then .error (.parseError "originate takes at most seven arguments".toList)
      else .ok ⟨target, (slot 0).map Dialplan.fromName, slot 1, slot 2, slot 3, slot 4⟩

/-- A target with no argument where an argument is empty. -/
def OriginateTarget.bare : OriginateTarget → OriginateTarget
  | .extension text => .extension text
  | .application app => .application app.bare
  | .inlineApplications apps => .inlineApplications (apps.map Application.bare)

/-- The dialplan type of a dialplan that is not set by a name of its own. -/
def Dialplan.asTyped : Dialplan → Option DialplanType
  | .typed dialplan => some dialplan
  | .named _ => none

namespace Originate

/-- Dialplan, context, caller id and timeout through the last one set, an absent one before that
`none`. -/
def positionalTail {Endpoint : Type} (originate : Originate Endpoint) : List (Option Text) :=
  let dialplan := match originate.target, originate.dialplan with
    | .inlineApplications _, none => some DialplanType.inline.wireName
    | _, dialplan => dialplan.map Dialplan.name
  let slots := [dialplan, originate.context, originate.cidName, originate.cidNum,
    originate.timeout.map Text.ofNat]
  (slots.reverse.dropWhile Option.isNone).reverse

/-- One argument with its delimiter. A trailing separator adds no argument; quotes keep a final
empty one. -/
def writeSlot (sep : Option Char) (last : Bool) (text : Text) : Text :=
  match sep with
  | none => ' ' :: originateQuote text
  | some sep => if text = [] ∧ last = true then [sep, '\'', '\''] else sep :: writeEscaped sep text

/-- Arguments with their delimiters, an absent one written `undef`. -/
def writeSlots (sep : Option Char) : List (Option Text) → Text
  | [] => []
  | argument :: later => writeSlot sep later.isEmpty (argument.getD undef) ++ writeSlots sep later

def dialTarget (blockParse : BlockParse) : DialStringTarget := .new .eslApi blockParse

/-- The target of the dial string on a line with this separator. -/
def argvTarget (blockParse : BlockParse) :
    Option Char → Except InvalidArgvSeparator DialStringTarget
  | some sep => (dialTarget blockParse).withArgvSeparator sep
  | none => .ok (dialTarget blockParse)

/-- The line of an originate, or none for a separator no dial string takes. -/
def writeWith (originate : Originate Endpoint) (blockParse : BlockParse) : Option Text :=
  match argvTarget blockParse originate.argvSeparator with
  | .error _ => none
  | .ok target => some ("originate ".toList ++
      (originate.argvSeparator.elim [] fun sep => ['^', '^', sep]) ++
      originate.endpoint.displayFor target ++
        writeSlots originate.argvSeparator (some originate.targetText :: originate.positionalTail))

/-- `u64::from_str` of the timeout's slot. -/
def readTimeout : Option Text → Except OriginateError (Option Nat)
  | none => .ok none
  | some value =>
      match Text.parseUnsigned 64 value with
      | some secs => .ok (some secs)
      | none => .error (.invalidTimeout value)

/-- Parse a line written for a switch running a revision of the block parser. -/
def parseWith (text : Text) (blockParse : BlockParse) :
    Except OriginateError (Originate Endpoint) := do
  let line := stripWhitespace (("originate".toList.isPrefixOf? text).getD text)
  let cut ← splitLine line ' '
  -- `^^ ` names the blank split itself.
  let sep := if cut.delimiter ≠ ' ' then some cut.delimiter else none
  let dialTarget ← (argvTarget blockParse sep).mapError .invalidArgvSeparator
  match cut.arguments with
  | [] => .error (.parseError "empty originate".toList)
  | argument :: later =>
      let endpoint ← Endpoint.parseFor (byteSlice line argument.raw) dialTarget
      let slots ← Slots.read (later.map (·.text))
      let target ← parseOriginateTarget slots.target (slots.dialplan.bind Dialplan.asTyped)
      let timeout ← readTimeout slots.timeout
      checkNotEmpty target
      let inlineDelimiter := match target with
        | .inlineApplications _ => (splitInlinePrefix slots.target).1
        | .extension _ | .application _ => none
      return ⟨endpoint, target, slots.dialplan, slots.context, slots.cidName, slots.cidNum, timeout,
        inlineDelimiter, sep⟩

end Originate

/-! ### The slots -/

theorem eqIgnoreCase_undef : Text.eqIgnoreCase undef undef = true := by decide

/-- An argument that is absent or not `undef` is read as it was written. -/
theorem undefToNone_getD {argument : Option Text}
    (h : ∀ text ∈ argument, Text.eqIgnoreCase text undef = false) :
    undefToNone (argument.getD undef) = argument := by
  cases argument with
  | none => rw [Option.getD_none, undefToNone, if_pos eqIgnoreCase_undef]
  | some text => rw [Option.getD_some, undefToNone, h text rfl, if_neg Bool.false_ne_true]

/-- Slots through the last one set, and absent ones behind it. -/
theorem dropTrailing_append (slots : List (Option Text)) :
    ∃ behind, slots = (slots.reverse.dropWhile Option.isNone).reverse ++ behind ∧ ∀ slot ∈ behind,
      slot = none := by
  refine ⟨(slots.reverse.takeWhile Option.isNone).reverse, ?_, fun slot hslot => ?_⟩
  · rw [← List.reverse_append, List.takeWhile_append_dropWhile, List.reverse_reverse]
  · have hnone := List.mem_takeWhile_imp (List.mem_reverse.mp hslot)
    exact Option.isNone_iff_eq_none.mp hnone

/-- Slots through the last one set are read as all of them. -/
theorem getElem?_dropTrailing (slots : List (Option Text)) (index : Nat) :
    ((slots.reverse.dropWhile Option.isNone).reverse)[index]?.join = slots[index]?.join := by
  obtain ⟨behind, hslots, hnone⟩ := dropTrailing_append slots
  generalize (slots.reverse.dropWhile Option.isNone).reverse = kept at hslots ⊢
  subst hslots
  by_cases hindex : index < kept.length
  · rw [List.getElem?_append_left hindex]
  · have hle := Nat.le_of_not_lt hindex
    rw [List.getElem?_eq_none hle, List.getElem?_append_right hle]
    cases hslot : behind[index - kept.length]? with
    | none => rfl
    | some slot => rw [hnone slot (List.mem_of_getElem? hslot)]; rfl

theorem Slots.read_written {target : Text} {tail : List (Option Text)}
    (htarget : Text.eqIgnoreCase target undef = false)
    (htail : ∀ argument ∈ tail, ∀ text ∈ argument, Text.eqIgnoreCase text undef = false)
    (hlength : tail.length ≤ 5) :
    Slots.read ((some target :: tail).map (·.getD undef)) =
      .ok ⟨target, (tail[0]?.join).map Dialplan.fromName, tail[1]?.join, tail[2]?.join,
        tail[3]?.join,
        tail[4]?.join⟩ := by
  have hread : ((some target :: tail).map (·.getD undef)).map undefToNone =
      some target :: tail := by
    rw [List.map_map]
    conv_rhs => rw [← List.map_id (some target :: tail)]
    refine List.map_congr_left fun argument hargument => undefToNone_getD fun text htext => ?_
    rcases List.mem_cons.mp hargument with rfl | hmem
    · obtain rfl := Option.some.inj htext
      exact htarget
    · exact htail argument hmem text htext
  unfold Slots.read
  rw [hread]
  simp only [Nat.not_lt.mpr hlength, if_false]

namespace Originate

variable {o : Originate Endpoint}

/-- The dialplan of an originate on the wire: inline applications run under the inline one. -/
def wireDialplan (o : Originate Endpoint) : Option Dialplan :=
  match o.target, o.dialplan with
  | .inlineApplications _, none => some (.typed .inline)
  | _, dialplan => dialplan

/-- The positional arguments behind the target. -/
def slotTexts (o : Originate Endpoint) : List (Option Text) :=
  [o.wireDialplan.map Dialplan.name, o.context, o.cidName, o.cidNum, o.timeout.map Text.ofNat]

theorem positionalTail_eq (o : Originate Endpoint) :
    o.positionalTail = (o.slotTexts.reverse.dropWhile Option.isNone).reverse := by
  have hdialplan : (match o.target, o.dialplan with
      | .inlineApplications _, none => some DialplanType.inline.wireName
      | _, dialplan => dialplan.map Dialplan.name) = o.wireDialplan.map Dialplan.name := by
    rw [wireDialplan]
    cases o.target <;> cases o.dialplan <;> rfl
  rw [positionalTail, slotTexts, ← hdialplan]

theorem eqIgnoreCase_ofNat (n : Nat) : Text.eqIgnoreCase (Text.ofNat n) undef = false := by
  rw [Text.eqIgnoreCase, decide_eq_false_iff_not]
  obtain ⟨c, rest, hdigits⟩ := List.exists_cons_of_ne_nil (Text.ofNat_ne_nil n)
  have hdigit : c.isDigit = true := Text.isDigit_of_mem_ofNat (hdigits ▸ List.mem_cons_self)
  intro heq
  rw [hdigits, List.map_cons] at heq
  have hlower : c.toLower = 'u' := (List.cons.inj heq).1
  have hdigits : ∀ c : Char, c.isDigit = true → c.toLower ≠ 'u' := by
    intro c
    induction c using char_cases with
    | hascii n hn => revert n; decide
    | hother c hc =>
        rw [toLower_of_not_ascii hc]
        rintro - rfl
        exact absurd hc (by decide)
  exact hdigits c hdigit hlower

/-- Every argument behind the target but `undef` is read as it was written. -/
structure Positioned (o : Originate Endpoint) : Prop where
  target : Text.eqIgnoreCase o.targetText undef = false
  named : ∀ dialplan ∈ o.wireDialplan, Text.eqIgnoreCase dialplan.name undef = false ∧
    Dialplan.fromName dialplan.name = dialplan
  context : ∀ text ∈ o.context, Text.eqIgnoreCase text undef = false
  cidName : ∀ text ∈ o.cidName, Text.eqIgnoreCase text undef = false
  cidNum : ∀ text ∈ o.cidNum, Text.eqIgnoreCase text undef = false

/-- **Every positional argument keeps its own position**, however many earlier ones are absent. -/
theorem Positioned.read (h : o.Positioned) :
    Slots.read ((some o.targetText :: o.positionalTail).map (·.getD undef)) =
      .ok ⟨o.targetText, o.wireDialplan, o.context, o.cidName, o.cidNum,
        o.timeout.map Text.ofNat⟩ := by
  obtain ⟨behind, hslots, -⟩ := dropTrailing_append o.slotTexts
  rw [← positionalTail_eq] at hslots
  have htail : ∀ argument ∈ o.positionalTail, ∀ text ∈ argument,
      Text.eqIgnoreCase text undef = false := by
    intro argument hargument text htext
    have hmem : argument ∈ o.slotTexts := hslots ▸ List.mem_append_left behind hargument
    rw [slotTexts] at hmem
    simp only [List.mem_cons, List.not_mem_nil, or_false] at hmem
    rcases hmem with rfl | rfl | rfl | rfl | rfl
    · obtain ⟨dialplan, hdialplan, rfl⟩ := Option.map_eq_some_iff.mp htext
      exact (h.named dialplan hdialplan).1
    · exact h.context text htext
    · exact h.cidName text htext
    · exact h.cidNum text htext
    · obtain ⟨secs, -, rfl⟩ := Option.map_eq_some_iff.mp htext
      exact eqIgnoreCase_ofNat secs
  have hlength : o.positionalTail.length ≤ 5 := by
    have hcount := congrArg List.length hslots
    rw [List.length_append] at hcount
    have hfive : o.slotTexts.length = 5 := rfl
    omega
  have hnamed : (o.wireDialplan.map Dialplan.name).map Dialplan.fromName = o.wireDialplan := by
    cases hdialplan : o.wireDialplan with
    | none => rfl
    | some dialplan => rw [Option.map_some, Option.map_some, (h.named dialplan hdialplan).2]
  rw [Slots.read_written h.target htail hlength]
  simp only [positionalTail_eq, getElem?_dropTrailing]
  show Except.ok (Slots.mk o.targetText ((o.wireDialplan.map Dialplan.name).map Dialplan.fromName)
      o.context o.cidName
    o.cidNum (o.timeout.map Text.ofNat)) = _
  rw [hnamed]

/-! ### What a load accepts -/

theorem fromName_typed (dialplan : DialplanType) :
    Dialplan.fromName dialplan.wireName = .typed dialplan := by
  cases dialplan <;> decide

/-- A dialplan is named as it is read back. -/
theorem fromName_name (name : Text) :
    Dialplan.fromName (Dialplan.fromName name).name = Dialplan.fromName name := by
  by_cases hinline : Text.eqIgnoreCase name "inline".toList = true
  · have hread : Dialplan.fromName name = .typed .inline := by
      rw [Dialplan.fromName, if_pos hinline]
    rw [hread]
    exact fromName_typed .inline
  · by_cases hxml : Text.eqIgnoreCase name "xml".toList = true
    · have hread : Dialplan.fromName name = .typed .xml := by
        rw [Dialplan.fromName, if_neg hinline, if_pos hxml]
      rw [hread]
      exact fromName_typed .xml
    · have hread : Dialplan.fromName name = .named name := by
        rw [Dialplan.fromName, if_neg hinline, if_neg hxml]
      rw [hread]
      exact hread

theorem wireDialplan_cases (o : Originate Endpoint) :
    o.wireDialplan = o.dialplan ∨ o.wireDialplan = some (.typed .inline) := by
  rw [wireDialplan]
  cases o.target <;> cases o.dialplan <;> simp

theorem checkNotUndef_ok {field : String} {value : Option Text}
    (h : checkNotUndef field value = .ok ()) :
    ∀ text ∈ value, Text.eqIgnoreCase text undef = false := by
  intro text htext
  by_contra hundef
  rw [checkNotUndef, if_pos ⟨text, htext, by simpa using hundef⟩] at h
  cases h

/-- What a configuration load makes sure of. -/
structure Loads (o : Originate Endpoint) : Prop where
  expanded : o.endpoint.checkExpanded .eslApi = .ok ()
  fits : checkDialplanFits o.target o.dialplan = .ok ()
  positioned : o.Positioned
  nonempty : o.target ≠ .inlineApplications []
  readable : checkTargetReadable o.target = .ok ()
  delimiter : o.inlineDelimiter = none
  separator : ∀ sep ∈ o.argvSeparator, usableArgvSeparator sep = true

theorem usable_of_withArgvSeparator {target later : DialStringTarget} {sep : Char}
    (h : target.withArgvSeparator sep = .ok later) : usableArgvSeparator sep = true := by
  unfold DialStringTarget.withArgvSeparator at h
  split at h
  · cases h
  · split at h
    · assumption
    · cases h

/-- A dialplan of a configuration is named as it is read back. -/
theorem named_of_raw {raw : Option (DialplanType ⊕ Text)}
    (h : checkNotUndef "dialplan"
      ((raw.map (Sum.elim .typed .fromName)).map Dialplan.name) = .ok ()) :
    ∀ dialplan ∈ raw.map (Sum.elim .typed .fromName),
      Text.eqIgnoreCase dialplan.name undef = false ∧
      Dialplan.fromName dialplan.name = dialplan := by
  intro dialplan hdialplan
  refine ⟨checkNotUndef_ok h _ (Option.mem_map_of_mem Dialplan.name hdialplan), ?_⟩
  obtain ⟨spelled, -, rfl⟩ := Option.map_eq_some_iff.mp hdialplan
  cases spelled with
  | inl typed => exact fromName_typed typed
  | inr name => exact fromName_name name

theorem loads_of_tryFrom {raw : OriginateRaw Endpoint}
    (h : tryFrom (fun ep : Endpoint => ep.checkExpanded .eslApi) raw = .ok o) : o.Loads := by
  unfold tryFrom at h
  obtain ⟨⟨⟩, hexpanded, h⟩ := bind_ok_iff.mp h
  obtain ⟨⟨⟩, hfits, h⟩ := bind_ok_iff.mp h
  obtain ⟨⟨⟩, hdialplan, h⟩ := bind_ok_iff.mp h
  obtain ⟨⟨⟩, hempty, h⟩ := bind_ok_iff.mp h
  obtain ⟨⟨⟩, hcontext, h⟩ := bind_ok_iff.mp h
  obtain ⟨⟨⟩, hname, h⟩ := bind_ok_iff.mp h
  obtain ⟨⟨⟩, hnum, h⟩ := bind_ok_iff.mp h
  obtain ⟨⟨⟩, htarget, h⟩ := bind_ok_iff.mp h
  obtain ⟨⟨⟩, hreadable, h⟩ := bind_ok_iff.mp h
  generalize hwhole : (⟨raw.endpoint, raw.target,
    raw.dialplan.map (Sum.elim .typed .fromName), raw.context,
    raw.cidName, raw.cidNum, raw.timeoutSecs, none, none⟩ : Originate Endpoint) = whole at htarget h
  have hnamed : ∀ dialplan ∈ whole.wireDialplan, Text.eqIgnoreCase dialplan.name undef = false ∧
      Dialplan.fromName dialplan.name = dialplan := by
    rcases wireDialplan_cases whole with hsame | hinline
    · rw [hsame, ← hwhole]
      exact named_of_raw hdialplan
    · rintro dialplan hmem
      obtain rfl := Option.some.inj (hinline.symm.trans hmem)
      exact ⟨by decide, fromName_typed .inline⟩
  have hloads : ∀ sep : Option Char, (∀ c ∈ sep, usableArgvSeparator c = true) →
      Loads { whole with argvSeparator := sep } := by
    intro sep hsep
    have hpositioned : Positioned { whole with argvSeparator := sep } := by
      refine ⟨checkNotUndef_ok htarget _ rfl, hnamed, ?_, ?_, ?_⟩ <;> subst hwhole
      · exact checkNotUndef_ok hcontext
      · exact checkNotUndef_ok hname
      · exact checkNotUndef_ok hnum
    subst hwhole
    exact ⟨hexpanded, hfits, hpositioned, checkNotEmpty_ok hempty, hreadable, rfl, hsep⟩
  split at h
  · next sep _ =>
      unfold withArgvSeparator at h
      split at h
      · cases h
      · next later hlater =>
          obtain rfl := Except.ok.inj h
          refine hloads (some sep) fun c hc => ?_
          obtain rfl := Option.some.inj hc
          exact usable_of_withArgvSeparator hlater
  · obtain rfl := Except.ok.inj h
    have hsame : { whole with argvSeparator := none } = whole := by rw [← hwhole]
    rw [← hsame]
    exact hloads none fun c hc => by cases hc

/-! ### What may be sent -/

/-- An originate that is loaded, of an endpoint a load accepts, with variables no two of which meet
at their separator, arguments that hold no terminator and actions the reader's array has room for.
-/
structure Sendable (o : Originate Endpoint) : Prop where
  configured : ∃ raw, tryFrom (fun ep : Endpoint => ep.checkExpanded .eslApi) raw = .ok o
  accepted : o.endpoint.checkDeliverable = .ok ()
  vars : ∀ vars ∈ o.endpoint.vars, vars.Accepted
  uncrossed : ∀ vars ∈ o.endpoint.vars, vars.crosses o.argvSeparator.isSome = false
  module : '\x00' ∉ o.endpoint.moduleText
  free : ∀ argument ∈ some o.targetText :: o.positionalTail, ∀ text ∈ argument, '\x00' ∉ text
  timeout : ∀ secs ∈ o.timeout, secs < 2 ^ 64
  actions : ∀ apps, o.target = .inlineApplications apps →
    (∀ app ∈ apps, PlainApplication app) ∧ apps.length ≤ inlineActions ∧ ¬ImitatesPrefix apps

theorem Sendable.loads (h : o.Sendable) : o.Loads := by
  obtain ⟨raw, hraw⟩ := h.configured
  exact loads_of_tryFrom hraw

/-- An originate as its own line names it. -/
def asRead (o : Originate Endpoint) : Originate Endpoint :=
  { o with
    endpoint := o.endpoint.canonical.setVariables (o.endpoint.block.map Variables.unseparated)
    target := o.target.bare
    dialplan := o.wireDialplan }

theorem readTimeout_ofNat {timeout : Option Nat} (h : ∀ secs ∈ timeout, secs < 2 ^ 64) :
    readTimeout (timeout.map Text.ofNat) = .ok timeout := by
  cases timeout with
  | none => rfl
  | some secs =>
      have hparse : Text.parseUnsigned 64 (Text.ofNat secs) = some secs :=
        Text.parseUnsigned_ofNat (h secs rfl)
      rw [Option.map_some, readTimeout, hparse]

/-- An application is read as it is written. -/
theorem parseOriginateTarget_application {app : Application}
    (h : checkTargetReadable (.application app) = .ok ()) (dialplan : Option DialplanType) :
    parseOriginateTarget (app.toStringWithDialplan .xml) dialplan = .ok
      (.application app.bare) := by
  obtain ⟨name, args⟩ := app
  have hparens : ¬('(' ∈ name ∨ ')' ∈ name ∨ ∃ text ∈ args, ')' ∈ text) := by
    intro hparens
    rw [checkTargetReadable, if_pos hparens] at h
    cases h
  have hbare : (if args.getD [] = [] then none else some (args.getD [])) =
      (Application.bare ⟨name, args⟩).args := by
    cases args with
    | none => rfl
    | some args => cases args <;> rfl
  have hreadable : checkTargetReadable (.application (Application.bare ⟨name, args⟩)) = .ok () := by
    rw [checkTargetReadable, if_neg]
    rintro (hname | hname | ⟨text, htext, hmem⟩)
    · exact hparens (.inl hname)
    · exact hparens (.inr (.inl hname))
    · exact hparens (.inr (.inr ⟨text, (Option.filter_eq_some_iff.mp htext).1, hmem⟩))
  have hopens : readsAsApplication (Application.toStringWithDialplan ⟨name, args⟩ .xml) = true := by
    cases name <;> rfl
  have hdrop : (Application.toStringWithDialplan ⟨name, args⟩ .xml).drop 1 =
      name ++ '(' :: args.getD [] ++ [')'] := rfl
  have hsplit : Text.splitFirst '(' (name ++ '(' :: args.getD []) = some (name, args.getD []) :=
    Text.splitFirst_append (fun hmem => hparens (.inl hmem)) _
  have hread : (⟨name, (Application.bare ⟨name, args⟩).args⟩ : Application) = Application.bare
      ⟨name, args⟩ := rfl
  rw [parseOriginateTarget, if_pos hopens]
  simp only [hdrop, List.getLast?_concat, if_pos, List.dropLast_concat, bind, Except.bind,
    hsplit, hbare, hread, hreadable]
  rfl

/-- An action list is read as it is written. -/
theorem parseOriginateTarget_renderInline {apps : List Application} (hne : apps ≠ [])
    (happs : ∀ app ∈ apps, PlainApplication app) (hlength : apps.length ≤ inlineActions)
    (himitates : ¬ImitatesPrefix apps) :
    parseOriginateTarget (renderInline apps defaultInlineDelimiter) (some .inline) =
      .ok (.inlineApplications (apps.map Application.bare)) := by
  have hcheck : checkInlineDelimiter defaultInlineDelimiter = .ok () := by decide
  have hbreaks := ((checkInlineDelimiter_ok defaultInlineDelimiter).mp hcheck).2
  have hopens := splitInlinePrefix_renderInline hne happs himitates
  obtain ⟨app, later, rfl⟩ := List.exists_cons_of_ne_nil hne
  obtain ⟨-, hpick, happlication⟩ :=
    renderInline_opens (happs app List.mem_cons_self) later defaultInlineDelimiter
  rw [parseOriginateTarget_inline happlication]
  change splitInlinePrefix (renderInline (app :: later) defaultInlineDelimiter) = _ at hopens
  rw [hopens]
  refine ⟨hcheck, hpick, ?_⟩
  show _ = (splitInlineActions (renderInline (app :: later) defaultInlineDelimiter)
      defaultInlineDelimiter).map readAction
  rw [splitInlineActions_renderInline hbreaks hne happs hlength, List.map_map]
  exact List.map_congr_left fun app happ => (happs app happ).readAction.symm

/-- The target of a line is read as it is written. -/
theorem Sendable.target (h : o.Sendable) :
    parseOriginateTarget o.targetText (o.wireDialplan.bind Dialplan.asTyped) =
      .ok o.target.bare := by
  have hfits := h.loads.fits
  have hreadable := h.loads.readable
  cases htarget : o.target with
  | extension extension =>
      have htext : o.targetText = extension := by rw [targetText, htarget]
      have hdialplan : o.wireDialplan = o.dialplan := by rw [wireDialplan, htarget]
      have happlication : ¬readsAsApplication extension = true := by
        intro happlication
        rw [htarget, checkTargetReadable, if_pos happlication] at hreadable
        cases hreadable
      have hinline : ¬o.dialplan.bind Dialplan.asTyped = some .inline := by
        intro hinline
        obtain ⟨dialplan, hsome, htyped⟩ := Option.bind_eq_some_iff.mp hinline
        obtain rfl : dialplan = .typed .inline := by
          cases dialplan with
          | typed dialplan => exact congrArg Dialplan.typed (Option.some.inj htyped)
          | named name => cases htyped
        rw [htarget, checkDialplanFits, hsome] at hfits
        simp at hfits
      rw [htext, hdialplan, parseOriginateTarget, if_neg happlication, if_neg hinline]
      rfl
  | application app =>
      have htext : o.targetText = app.toStringWithDialplan .xml := by rw [targetText, htarget]
      rw [htext]
      exact parseOriginateTarget_application (htarget ▸ hreadable) _
  | inlineApplications apps =>
      obtain ⟨happs, hlength, himitates⟩ := h.actions apps htarget
      have hne : apps ≠ [] := fun hnil => h.loads.nonempty (by rw [htarget, hnil])
      have htext : o.targetText = renderInline apps defaultInlineDelimiter := by
        rw [targetText, htarget, h.loads.delimiter]
      have hdialplan : o.wireDialplan.bind Dialplan.asTyped = some .inline := by
        rw [wireDialplan, htarget]
        cases hsome : o.dialplan with
        | none => rfl
        | some dialplan =>
            rw [htarget, checkDialplanFits, hsome] at hfits
            by_cases hinline : dialplan = .typed .inline
            · rw [hinline]
              rfl
            · simp [hinline] at hfits
      rw [htext, hdialplan]
      exact parseOriginateTarget_renderInline hne happs hlength himitates

/-! ### The line -/

theorem argvTarget_ok (blockParse : BlockParse) {sep : Option Char}
    (h : ∀ c ∈ sep, usableArgvSeparator c = true) :
    ∃ target, argvTarget blockParse sep = .ok target ∧ target.carrier = .eslApi ∧
      target.argument = sep.elim .blank .char := by
  cases sep with
  | none => exact ⟨dialTarget blockParse, rfl, rfl, rfl⟩
  | some c =>
      have hok : argvTarget blockParse (some c) = .ok _ := dif_pos (h c rfl)
      exact ⟨_, hok, rfl, rfl⟩

/-- The endpoint of an originate can be sent to any API target. -/
theorem Sendable.dialable (h : o.Sendable) {target : DialStringTarget}
    (hcarrier : target.carrier = .eslApi) :
    o.endpoint.Dialable target := by
  have hunexpanded : ∀ text, target.Unexpanded text := by
    intro text hdialplan
    rw [hcarrier] at hdialplan
    cases hdialplan
  exact ⟨h.accepted, h.module, h.vars, fun _ _ _ _ => ⟨hunexpanded _, hunexpanded _⟩,
    fun _ => hunexpanded _⟩

/-- Quotes stay in its first argument where a separator cuts the line. -/
theorem keepsQuotes_edge {target : DialStringTarget} (hcarrier : target.carrier = .eslApi)
    {sep : Option Char} (hargument : target.argument = sep.elim .blank .char) :
    target.edge.keepsQuotes = sep.isSome := by
  cases sep with
  | none =>
      have hedge : target.edge = target := by
        simp [DialStringTarget.edge, DialStringTarget.argvSeparator, hargument]
      simp [hedge, DialStringTarget.keepsQuotes, hcarrier, hargument]
  | some sep =>
      have hedge : target.edge = target.inner := by
        simp [DialStringTarget.edge, DialStringTarget.argvSeparator, hargument]
      simp [hedge, DialStringTarget.keepsQuotes, (inner_eslApi hcarrier).1]

/-! ### Cutting the line -/

theorem writeSlots_blank (first : Text) (args : List (Option Text)) :
    first ++ writeSlots none args = [' '].intercalate (first :: args.map fun text =>
      originateQuote (text.getD undef)) := by
  induction args generalizing first with
  | nil => rw [writeSlots, List.append_nil, List.map_nil, List.intercalate_singleton]
  | cons text later ih =>
      rw [List.map_cons, List.intercalate_cons_cons, ← ih, writeSlots]
      simp [writeSlot]

/-- The slots of a line on a separator; quotes keep a final empty one. -/
theorem writeSlots_separator {sep : Char} (hsep : sep ≠ ' ') (first : Text)
    (args : List (Option Text)) (last : Option Text) :
    first ++ writeSlots (some sep) (args ++ [last]) = [sep].intercalate (first ::
      ((args.map fun text => writeEscaped sep (text.getD undef)) ++
        [escapeArgument (last.getD undef) sep])) := by
  induction args generalizing first with
  | nil =>
      rw [List.nil_append, writeSlots, writeSlots, List.append_nil, List.map_nil, List.nil_append,
        List.intercalate_cons_cons, List.intercalate_singleton, writeSlot]
      simp only [List.isEmpty_nil, and_true]
      split_ifs with hempty
      · simp [hempty, escapeArgument]
      · rw [escapeArgument_eq hempty, if_neg fun h => hsep h.1]
        simp
  | cons text later ih =>
      have hmore : (later ++ [last]).isEmpty = false := by simp
      rw [List.cons_append, writeSlots, hmore, List.map_cons, List.cons_append,
        List.intercalate_cons_cons, ← ih]
      simp [writeSlot]

theorem edged_behind {before last : Text}
    (hhead : ∀ c ∈ (before ++ last).head?, c ∉ strippedWhitespace)
    (hlast : Edged last) (hne : last ≠ []) : Edged (before ++ last) := by
  refine ⟨hhead, fun c hc => hlast.last c ?_⟩
  rwa [List.getLast?_append_of_ne_nil _ hne] at hc

theorem suffix_intercalate (sep : Char) (xs : List Text) (last : Text) :
    ∃ before, [sep].intercalate (xs ++ [last]) = before ++ last := by
  induction xs with
  | nil => exact ⟨[], by simp⟩
  | cons x xs ih =>
      obtain ⟨before, hbefore⟩ := ih
      refine ⟨x ++ sep :: before, ?_⟩
      rw [List.cons_append, intercalate_cons_concat, hbefore]
      simp

/-- A line of blanks is cut into the endpoint and the arguments. -/
theorem cut_blanks {first : Text} (hfirst : Joint ' ' first) (hheadless : Headless first)
    (hhead : ∀ c ∈ first.head?, c ∉ strippedWhitespace) {args : List (Option Text)}
    (hne : args ≠ []) (hfree : ∀ text ∈ args, '\x00' ∉ text.getD undef) :
    Edged (first ++ writeSlots none args) ∧
      ∃ cut, splitLine (first ++ writeSlots none args) ' ' = .ok cut ∧
      LineCut (first ++ writeSlots none args) ' ' first (args.map (·.getD undef)) cut := by
  have hquoted := fun text htext => joint_originateQuote (hfree text htext)
  have hxs : ∀ x ∈ args.map fun text => originateQuote (text.getD undef), Joint ' ' x := by
    intro x hx
    obtain ⟨text, htext, rfl⟩ := List.mem_map.mp hx
    exact (hquoted text htext).1
  have hwritten : (args.map fun text => originateQuote (text.getD undef)).map (written none false) =
      args.map (·.getD undef) := by
    rw [List.map_map]
    exact List.map_congr_left fun text htext => (hquoted text htext).2.2
  have hcut := splitLine_blanks hfirst hxs hheadless
  rw [hwritten] at hcut
  rw [writeSlots_blank]
  refine ⟨?_, hcut⟩
  obtain ⟨init, last, rfl⟩ := (List.eq_nil_or_concat args).resolve_left hne
  obtain ⟨hlast, hedged, -⟩ := hquoted last (by simp)
  have hopens : ∀ c ∈ ([' '].intercalate (first :: (init.concat last).map fun text =>
      originateQuote (text.getD undef))).head?, c ∉ strippedWhitespace := by
    rw [← writeSlots_blank, List.head?_append_of_ne_nil _ hfirst.ne]
    exact hhead
  rw [List.concat_eq_append, List.map_append, List.map_singleton, ← List.cons_append] at hopens ⊢
  obtain ⟨before, hbefore⟩ := suffix_intercalate ' '
    (first :: init.map fun text => originateQuote (text.getD undef))
      (originateQuote (last.getD undef))
  rw [hbefore] at hopens ⊢
  exact edged_behind hopens hedged hlast.ne

/-- A line that names its separator is cut into the endpoint and the arguments. -/
theorem cut_separator {sep : Char} (husable : usableArgvSeparator sep = true) {first : Text}
    (hfirst : Joint sep first)
    {args : List (Option Text)} (hne : args ≠ [])
    (hfree : ∀ text ∈ args, '\x00' ∉ text.getD undef) :
    Edged ('^' :: '^' :: sep :: (first ++ writeSlots (some sep) args)) ∧
      ∃ cut, splitLine ('^' :: '^' :: sep :: (first ++ writeSlots (some sep) args)) ' ' = .ok cut ∧
        LineCut ('^' :: '^' :: sep :: (first ++ writeSlots (some sep) args)) sep first
          (args.map (·.getD undef)) cut := by
  have hbreaks : breaksASplit sep = false := by
    rw [usableArgvSeparator, Bool.and_eq_true, Bool.and_eq_true, Bool.not_eq_true'] at husable
    exact husable.1.1
  obtain ⟨hescaping, hcutting, hascii⟩ := Escaping.of_unbroken hbreaks
  obtain ⟨init, last, rfl⟩ := (List.eq_nil_or_concat args).resolve_left hne
  rw [List.concat_eq_append] at hfree ⊢
  obtain ⟨hlast, hedged, hread⟩ := joint_escapeArgument hescaping (hfree last (by simp))
  have hmiddle : ∀ text ∈ init, Slot sep (writeEscaped sep (text.getD undef)) ∧
      written (cleanupDelim sep) false (writeEscaped sep (text.getD undef)) = text.getD undef := by
    intro text htext
    by_cases hempty : text.getD undef = []
    · rw [hempty]
      exact ⟨.inl rfl, written_nil _ _⟩
    · obtain ⟨hjoint, hread⟩ :=
        joint_writeEscaped hescaping (hfree text (List.mem_append_left _ htext)) hempty
      exact ⟨.inr hjoint, hread⟩
  have hxs : ∀ x ∈ init.map fun text => writeEscaped sep (text.getD undef), Slot sep x := by
    intro x hx
    obtain ⟨text, htext, rfl⟩ := List.mem_map.mp hx
    exact (hmiddle text htext).1
  have hwritten : ((init.map fun text => writeEscaped sep (text.getD undef)) ++
      [escapeArgument (last.getD undef) sep]).map (written (cleanupDelim sep) false) =
        (init ++ [last]).map (·.getD undef) := by
    rw [List.map_append, List.map_map, List.map_singleton, hread, List.map_append,
      List.map_singleton]
    exact congrArg (· ++ _) (List.map_congr_left fun text htext => (hmiddle text htext).2)
  have hcut := splitLine_slots hcutting hascii hfirst hxs hlast
  rw [hwritten] at hcut
  rw [writeSlots_separator hcutting.ne_space]
  refine ⟨?_, hcut⟩
  rw [← List.cons_append]
  obtain ⟨before, hbefore⟩ := suffix_intercalate sep
    (first :: init.map fun text => writeEscaped sep (text.getD undef))
      (escapeArgument (last.getD undef) sep)
  rw [hbefore, ← List.cons_append, ← List.cons_append, ← List.cons_append]
  refine edged_behind (fun c hc => ?_) hedged hlast.ne
  obtain rfl : '^' = c := Option.some.inj hc
  decide

/-! ### The round trip -/

theorem nul_notMem_arguments (h : o.Sendable) :
    ∀ text ∈ some o.targetText :: o.positionalTail, '\x00' ∉ text.getD undef := by
  intro argument hargument
  cases argument with
  | none => rw [Option.getD_none]; decide
  | some text => exact h.free _ hargument text rfl

/-- The line a load can send, and its cut. -/
theorem Sendable.cut (h : o.Sendable) {blockParse : BlockParse} {target : DialStringTarget}
    (htarget : argvTarget blockParse o.argvSeparator = .ok target)
    (hcarrier : target.carrier = .eslApi)
    (hargument : target.argument = o.argvSeparator.elim .blank .char) :
    ∃ line cut, o.writeWith blockParse = some ("originate ".toList ++ line) ∧ Edged line ∧
      splitLine line ' ' = .ok cut ∧
        LineCut line (o.argvSeparator.getD ' ') (o.endpoint.displayFor target)
          ((some o.targetText :: o.positionalTail).map (·.getD undef)) cut := by
  have hdialable := h.dialable hcarrier
  have hfree := nul_notMem_arguments h
  have hne : some o.targetText :: o.positionalTail ≠ [] := List.cons_ne_nil _ _
  rw [writeWith, htarget]
  cases hseparator : o.argvSeparator with
  | none =>
      rw [hseparator] at hargument
      obtain ⟨hfirst, hheadless, hhead⟩ :=
        Endpoint.joint_blank hdialable hcarrier hargument
      obtain ⟨hedged, cut, hcut, hline⟩ := cut_blanks hfirst hheadless hhead hne hfree
      refine ⟨_, cut, ?_, hedged, hcut, hline⟩
      simp only [Option.elim_none, List.append_nil, List.append_assoc]
  | some sep =>
      rw [hseparator] at hargument
      have husable := h.loads.separator sep hseparator
      have hfirst := Endpoint.joint_separator hdialable hargument
      obtain ⟨hedged, cut, hcut, hline⟩ := cut_separator husable hfirst hne hfree
      refine ⟨_, cut, ?_, hedged, hcut, hline⟩
      simp only [Option.elim_some, List.append_assoc, List.cons_append, List.nil_append]

/-- The blank ahead of the line is stripped with its command. -/
theorem stripWhitespace_behind {line : Text} (h : Edged line) :
    stripWhitespace (' ' :: line) = line := by
  have hstrip := stripWhitespace_edged h
  rw [stripWhitespace] at hstrip ⊢
  rw [List.dropWhile_cons_of_pos (by decide)]
  exact hstrip

/-- A loaded originate is parsed back from its own line. -/
theorem Sendable.parsed (h : o.Sendable) (blockParse : BlockParse) :
    ∃ line, o.writeWith blockParse = some line ∧ parseWith line blockParse = .ok o.asRead := by
  obtain ⟨target, htarget, hcarrier, hargument⟩ := argvTarget_ok blockParse h.loads.separator
  obtain ⟨line, cut, hwrite, hedged, hcut, hline⟩ := h.cut htarget hcarrier hargument
  refine ⟨_, hwrite, ?_⟩
  obtain ⟨argument, later, harguments, hfirst, hlater⟩ := hline.arguments
  have hstrip : stripWhitespace (("originate".toList.isPrefixOf? ("originate ".toList ++ line)).getD
      ("originate ".toList ++ line)) = line := by
    have hcommand : "originate".toList.isPrefixOf? ("originate ".toList ++ line) = some
        (' ' :: line) :=
      List.isPrefixOf?_eq_some_iff_append_eq.mpr rfl
    rw [hcommand]
    exact stripWhitespace_behind hedged
  have hsep : (if cut.delimiter ≠ ' ' then some cut.delimiter else none) = o.argvSeparator := by
    rw [hline.delimiter]
    cases hseparator : o.argvSeparator with
    | none => rfl
    | some sep =>
        have husable := h.loads.separator sep hseparator
        have hspace : sep ≠ ' ' := by
          rintro rfl
          exact absurd husable (by decide)
        exact if_pos hspace
  have huncrossed : o.endpoint.Uncrossed target := fun vars hvars => by
    rw [keepsQuotes_edge hcarrier hargument]
    exact h.uncrossed vars hvars
  have hendpoint : Endpoint.parseFor (byteSlice line argument.raw) target =
      .ok (o.endpoint.canonical.setVariables (o.endpoint.block.map Variables.unseparated)) := by
    rw [hfirst, Endpoint.parseFor_displayFor (h.dialable hcarrier) huncrossed, hcarrier,
      h.loads.expanded]
    rfl
  have hempty : checkNotEmpty o.target.bare = .ok () := by
    rw [checkNotEmpty, if_neg]
    intro hnil
    refine h.loads.nonempty ?_
    cases hkind : o.target with
    | inlineApplications apps =>
        rw [hkind] at hnil
        have happs := List.map_eq_nil_iff.mp (OriginateTarget.inlineApplications.inj hnil)
        rw [happs]
    | extension text => rw [hkind] at hnil; cases hnil
    | application app => rw [hkind] at hnil; cases hnil
  unfold parseWith
  simp only [hstrip, hcut, bind, Except.bind, hsep, htarget, Except.mapError, harguments,
    hendpoint, hlater, h.loads.positioned.read, h.target, readTimeout_ofNat h.timeout, hempty]
  have hdelimiter : o.inlineDelimiter = none := h.loads.delimiter
  rw [asRead, hdelimiter]
  cases hkind : o.target with
  | extension text => rfl
  | application app => rfl
  | inlineApplications apps =>
      obtain ⟨happs, -, himitates⟩ := h.actions apps hkind
      have hne : apps ≠ [] := fun hnil => h.loads.nonempty (by rw [hkind, hnil])
      have htext : o.targetText = renderInline apps defaultInlineDelimiter := by
        rw [targetText, hkind, hdelimiter]
      have hopens : splitInlinePrefix o.targetText =
          (none, renderInline apps defaultInlineDelimiter) :=
        htext ▸ splitInlinePrefix_renderInline hne happs himitates
      show Except.ok _ = _
      simp only [OriginateTarget.bare, hopens]

/-- **A loaded originate is parsed back from its own line**, whatever separates its arguments: every
argument from its own position, the applications, and the endpoint with its variables. -/
theorem parseWith_writeWith (h : o.Sendable) (blockParse : BlockParse) :
    ∃ line, o.writeWith blockParse = some line ∧ parseWith line blockParse = .ok o.asRead :=
  h.parsed blockParse

deriving instance DecidableEq for Originate

/-- Inline applications for a user behind variables, a caller name with a quote, and no dialplan. -/
def hold (sep : Option Char) : OriginateRaw Endpoint :=
  ⟨Endpoint.cutUser, .inlineApplications [⟨"echo".toList, some "a,b".toList⟩], none, none,
    some "O'N x".toList, none, some 30, sep⟩

/-- The originate a load makes of it. -/
def held (sep : Option Char) : Originate Endpoint :=
  ⟨Endpoint.cutUser, .inlineApplications [⟨"echo".toList, some "a,b".toList⟩], none, none,
    some "O'N x".toList, none, some 30, none, sep⟩

theorem parseWith_writeWith_held :
    (∃ line, (held none).writeWith .pairSplitCleans = some line ∧
      parseWith line .pairSplitCleans = .ok (held none).asRead) ∧
    ∃ line, (held (some '~')).writeWith .pairSplitCleans = some line ∧
      parseWith line .pairSplitCleans = .ok (held (some '~')).asRead := by
  have hactions : ∀ apps, (held none).target = .inlineApplications apps →
      (∀ app ∈ apps, PlainApplication app) ∧ apps.length ≤ inlineActions ∧
      ¬ImitatesPrefix apps := by
    rintro apps happs
    obtain rfl := OriginateTarget.inlineApplications.inj happs
    refine ⟨List.forall_mem_singleton.mpr
      ⟨⟨by decide, by decide +kernel⟩, by decide +kernel⟩, by decide, ?_⟩
    rintro ⟨c, rest, later, himitates, -⟩
    have hname := congrArg (fun apps : List Application => apps.map (·.name.length)) himitates
    cases hname
  have hvars : ∀ vars ∈ Endpoint.cutUser.vars, vars.Accepted := by
    rintro vars hvars
    obtain rfl := Option.some.inj hvars
    exact (Endpoint.cutVariable_loaded .channel).toAccepted
  have huncrossed : ∀ quotes, ∀ vars ∈ Endpoint.cutUser.vars, vars.crosses quotes = false := by
    rintro quotes vars hvars
    obtain rfl := Option.some.inj hvars
    rfl
  have hload : ∀ sep : Option Char, (sep = none ∨ sep = some '~') →
      tryFrom (fun ep : Endpoint => ep.checkExpanded .eslApi) (hold sep) = .ok (held sep) := by
    rintro sep (rfl | rfl) <;> decide +kernel
  have hfree : ∀ argument ∈ some (held none).targetText :: (held none).positionalTail,
      ∀ text ∈ argument,
      '\x00' ∉ text := by decide +kernel
  have hsendable : ∀ sep : Option Char, (sep = none ∨ sep = some '~') → (held sep).Sendable :=
    fun sep hsep =>
    ⟨⟨hold sep, hload sep hsep⟩,
      (by decide +kernel : Endpoint.cutUser.checkDeliverable = .ok ()), hvars, huncrossed _,
      (by decide : '\x00' ∉ Endpoint.cutUser.moduleText), hfree,
      (by decide : ∀ secs ∈ some 30, secs < 2 ^ 64), hactions⟩
  exact ⟨parseWith_writeWith (hsendable none (.inl rfl)) .pairSplitCleans,
    parseWith_writeWith (hsendable (some '~') (.inr rfl)) .pairSplitCleans⟩

end Originate

/-! ### Extensions and applications -/

/-- The texts a caller sets of a target. -/
def OriginateTarget.texts : OriginateTarget → List Text
  | .extension text => [text]
  | .application app => app.name :: app.args.toList
  | .inlineApplications apps => apps.flatMap fun app => app.name :: app.args.toList

namespace Originate

variable {o : Originate Endpoint}

/-- The texts a caller sets of an originate, its endpoint apart. -/
def texts (o : Originate Endpoint) : List Text :=
  o.target.texts ++ (o.dialplan.map Dialplan.name).toList ++ o.context.toList ++
    o.cidName.toList ++ o.cidNum.toList

theorem wireDialplan_single (hsingle : ∀ apps, o.target ≠ .inlineApplications apps) :
    o.wireDialplan = o.dialplan := by
  rw [wireDialplan]
  cases htarget : o.target with
  | inlineApplications apps => exact absurd htarget (hsingle apps)
  | extension text | application app => cases o.dialplan <;> rfl

theorem nul_notMem_targetText (hsingle : ∀ apps, o.target ≠ .inlineApplications apps)
    (h : ∀ text ∈ o.texts, '\x00' ∉ text) : '\x00' ∉ o.targetText := by
  have htexts : ∀ text ∈ o.target.texts, '\x00' ∉ text := by
    intro text htext
    exact h text (by simp [texts, htext])
  cases htarget : o.target with
  | extension text =>
      rw [htarget] at htexts
      rw [targetText, htarget]
      exact htexts text (by simp [OriginateTarget.texts])
  | application app =>
      rw [htarget] at htexts
      obtain ⟨name, args⟩ := app
      have htext : o.targetText = '&' :: (name ++ '(' :: (args.getD [] ++ [')'])) := by
        rw [targetText, htarget]
        simp [Application.toStringWithDialplan]
      have hname : '\x00' ∉ name := htexts name (by simp [OriginateTarget.texts])
      have hargs : '\x00' ∉ args.getD [] := by
        cases args with
        | none => exact List.not_mem_nil
        | some args => exact htexts args (by simp [OriginateTarget.texts])
      rw [htext]
      simp [hname, hargs]
  | inlineApplications apps => exact absurd htarget (hsingle apps)

theorem nul_notMem_positional (hsingle : ∀ apps, o.target ≠ .inlineApplications apps)
    (h : ∀ text ∈ o.texts, '\x00' ∉ text) :
    ∀ argument ∈ o.positionalTail, ∀ text ∈ argument, '\x00' ∉ text := by
  obtain ⟨behind, hslots, -⟩ := dropTrailing_append o.slotTexts
  rw [← positionalTail_eq] at hslots
  intro argument hargument text htext
  have hmem : argument ∈ o.slotTexts := hslots ▸ List.mem_append_left behind hargument
  rw [slotTexts, wireDialplan_single hsingle] at hmem
  simp only [List.mem_cons, List.not_mem_nil, or_false] at hmem
  rcases hmem with rfl | rfl | rfl | rfl | rfl
  · exact h text (by simp [texts, Option.mem_toList.mpr htext])
  · exact h text (by simp [texts, Option.mem_toList.mpr htext])
  · exact h text (by simp [texts, Option.mem_toList.mpr htext])
  · exact h text (by simp [texts, Option.mem_toList.mpr htext])
  · obtain ⟨secs, -, rfl⟩ := Option.map_eq_some_iff.mp htext
    intro hnul
    have hdigit := Text.isDigit_of_mem_ofNat hnul
    exact absurd hdigit (by decide)

/-- An originate a load accepts that calls an extension or an application, its texts without
terminators and its endpoint configured, with variables no two of which meet at their separator. -/
structure Addressed (o : Originate Endpoint) : Prop where
  configured : ∃ raw, tryFrom (fun ep : Endpoint => ep.checkExpanded .eslApi) raw = .ok o
  endpoint : o.endpoint.Configured
  uncrossed : ∀ vars ∈ o.endpoint.vars, vars.crosses o.argvSeparator.isSome = false
  single : ∀ apps, o.target ≠ .inlineApplications apps
  free : ∀ text ∈ o.texts, '\x00' ∉ text
  timeout : ∀ secs ∈ o.timeout, secs < 2 ^ 64

theorem Addressed.sendable (h : o.Addressed) : o.Sendable where
  configured := h.configured
  accepted := h.endpoint.accepted
  vars vars hvars := (h.endpoint.vars vars hvars).1
  uncrossed := h.uncrossed
  module := Endpoint.nul_notMem_moduleText h.endpoint.free
  free := by
    refine List.forall_mem_cons.mpr ⟨fun text htext => ?_, nul_notMem_positional h.single h.free⟩
    obtain rfl := Option.some.inj htext
    exact nul_notMem_targetText h.single h.free
  timeout := h.timeout
  actions apps htarget := absurd htarget (h.single apps)

/-- **The arguments of an originate arrive**, each from its own position however many earlier ones
are absent, on blanks or on a separator. -/
theorem arguments_arrive (h : o.Addressed) (blockParse : BlockParse) :
    ∃ line, o.writeWith blockParse = some line ∧ parseWith line blockParse =
      .ok { o with
        endpoint := o.endpoint.canonical.setVariables (o.endpoint.vars.map Variables.unseparated)
        target := o.target.bare } := by
  obtain ⟨line, hwrite, hparse⟩ := h.sendable.parsed blockParse
  refine ⟨line, hwrite, hparse.trans ?_⟩
  rw [asRead, h.endpoint.block, wireDialplan_single h.single]

/-- A user behind channel variables with a separator or none. -/
def parted (separator : Option Char) : Endpoint :=
  Endpoint.cutUser.setVariables (some { Endpoint.cutVariable .channel with separator := separator })

/-- An extension of such a user, a caller name with a quote and a timeout, and neither a dialplan, a
context nor a caller number. -/
def ring (separator sep : Option Char) : OriginateRaw Endpoint :=
  ⟨parted separator, .extension "9 99".toList, none, none, some "O'N x".toList, none, some 30, sep⟩

/-- The originate a load makes of it. -/
def ringing (separator sep : Option Char) : Originate Endpoint :=
  ⟨parted separator, .extension "9 99".toList, none, none, some "O'N x".toList, none, some 30, none,
    sep⟩

theorem parted_configured {separator : Option Char}
    (hseparator : separator = none ∨ separator = some ';') : (parted separator).Configured := by
  have hnamed : namesAVariable "k".toList = false ∧ namesAVariable "a, b| ".toList = false :=
    ⟨by decide +kernel, by decide +kernel⟩
  refine ⟨?_, ?_, ?_, ?_, ?_⟩
  · rcases hseparator with rfl | rfl <;> decide +kernel
  · rcases hseparator with rfl | rfl <;> decide
  · rcases hseparator with rfl | rfl <;> decide +kernel
  · rintro vars hvars
    obtain rfl := Option.some.inj hvars
    have haccepted := (Endpoint.cutVariable_loaded .channel).toAccepted
    refine ⟨⟨⟨?_, haccepted.free, haccepted.hidden⟩, haccepted.length⟩, List.cons_ne_nil _ _⟩
    rcases hseparator with rfl | rfl <;> decide +kernel
  · rintro vars hvars pair hpair
    obtain rfl := Option.some.inj hvars
    obtain rfl := List.mem_singleton.mp hpair
    exact hnamed

theorem arguments_arrive_ringing :
    (∃ line, (ringing none none).writeWith .pairSplitCleans = some line ∧
      parseWith line .pairSplitCleans = .ok (ringing none none)) ∧
    ∃ line, (ringing (some ';') (some '~')).writeWith .pairSplitCleans = some line ∧
      parseWith line .pairSplitCleans = .ok (ringing none (some '~')) := by
  have haddressed : ∀ separator sep : Option Char, (separator = none ∨ separator = some ';') →
      tryFrom (fun ep : Endpoint => ep.checkExpanded .eslApi) (ring separator sep) =
        .ok (ringing separator sep) → (ringing separator sep).Addressed := by
    intro separator sep hseparator hload
    refine ⟨⟨ring separator sep, hload⟩, parted_configured hseparator, ?_, fun apps happs => ?_,
      (by decide : ∀ text ∈ (ringing none none).texts, '\x00' ∉ text),
      (by decide : ∀ secs ∈ some 30, secs < 2 ^ 64)⟩
    · rintro vars hvars
      obtain rfl := Option.some.inj hvars
      rcases hseparator with rfl | rfl <;> rfl
    · cases happs
  exact ⟨arguments_arrive (haddressed none none (.inl rfl) (by decide +kernel)) .pairSplitCleans,
    arguments_arrive (haddressed (some ';') (some '~') (.inr rfl) (by decide +kernel))
      .pairSplitCleans⟩

end Originate
end EslTokio
