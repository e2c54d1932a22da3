import EslTokio.DialString.Arrival
import EslTokio.SwitchPasses.ChannelText

/-!
# A rendered dial string ahead of its passes

What the pass ahead of a dial string leaves of a render, piece by piece: brackets and separators as
they are, and of every field one level less, with its quotes where the pass keeps them. The pieces
add up to what the dial string's own passes are proved to read.

* `Conveys`, `Delivers` — a piece with more behind it, and a whole text.
* `conveys_field`, `delivers_field` — keys, values and endpoints.
* **`conveys_block`** — a variable block.
* `Delivers.arrives` — what is delivered arrives at every target.
-/

namespace EslTokio

open Library SwitchPasses

/-- The pass of a target leaves `y` of a piece `x`, whatever is behind it; `all` tells an expansion
that reads escaped dollars. -/
structure Conveys (target : DialStringTarget) (all : Bool) (x y : Text) : Prop where
  split : target.carrier = .eslApi → target.argument = .blank → BlankThrough x ∧ Takes none x y
  consumed : target.argument = .consumed → x = y
  expanded : target.carrier = .dialplan → ∀ rest out, Expands all rest out →
    Expands all (x ++ rest) (y ++ out)

/-- The pass of a target leaves `y` of a whole text `x`. -/
structure Delivers (target : DialStringTarget) (all : Bool) (x y : Text) : Prop where
  split : target.carrier = .eslApi → target.argument = .blank → BlankThrough x ∧ Takes none x y
  consumed : target.argument = .consumed → x = y
  expanded : target.carrier = .dialplan → Expands all x y

variable {target : DialStringTarget} {all : Bool} {x y x' y' : Text}

theorem blankThrough_append (hx : BlankThrough x) (hx' : BlankThrough x') :
    BlankThrough (x ++ x') :=
  BlankGoes.append hx hx'

theorem Conveys.append (h : Conveys target all x y) (h' : Conveys target all x' y') :
    Conveys target all (x ++ x') (y ++ y') where
  split hcarrier hargument :=
    ⟨blankThrough_append (h.split hcarrier hargument).1 (h'.split hcarrier hargument).1,
      (h.split hcarrier hargument).2.append (h'.split hcarrier hargument).2⟩
  consumed hargument := by rw [h.consumed hargument, h'.consumed hargument]
  expanded hcarrier rest out hrest := by
    rw [List.append_assoc, List.append_assoc]
    exact h.expanded hcarrier _ _ (h'.expanded hcarrier rest out hrest)

theorem Conveys.deliver (h : Conveys target all x y) (h' : Delivers target all x' y') :
    Delivers target all (x ++ x') (y ++ y') where
  split hcarrier hargument :=
    ⟨blankThrough_append (h.split hcarrier hargument).1 (h'.split hcarrier hargument).1,
      (h.split hcarrier hargument).2.append (h'.split hcarrier hargument).2⟩
  consumed hargument := by rw [h.consumed hargument, h'.consumed hargument]
  expanded hcarrier := h.expanded hcarrier _ _ (h'.expanded hcarrier)

theorem Conveys.delivers (h : Conveys target all x y) : Delivers target all x y where
  split := h.split
  consumed := h.consumed
  expanded hcarrier := by
    have hnil := h.expanded hcarrier [] [] .nil
    rwa [List.append_nil, List.append_nil] at hnil

/-- A char no pass reads stays. -/
theorem conveys_char {c : Char} (h : c ∉ ['\\', '\'', ' ', '\x00', '$']) :
    Conveys target all [c] [c] := by
  simp only [List.mem_cons, List.not_mem_nil, or_false, not_or] at h
  obtain ⟨hbackslash, hquote, hspace, hnul, hdollar⟩ := h
  refine ⟨fun _ _ => ⟨?_, takes_plain hbackslash hquote none⟩, fun _ =>
    rfl, fun _ rest out hrest => ?_⟩
  · exact blankGoes_plain hbackslash hquote hnul fun h => absurd h hspace
  · exact .plain hbackslash hdollar hrest

/-- A text no pass reads stays. -/
theorem conveys_plain {text : Text}
    (h : ∀ c ∈ text, c ∉ ['\\', '\'', ' ', '\x00', '$']) : Conveys target all text text := by
  induction text with
  | nil =>
      exact ⟨fun _ _ => ⟨BlankGoes.nil false, .nil none⟩, fun _ => rfl, fun _ _ _ hrest => hrest⟩
  | cons c text ih =>
      obtain ⟨hc, htext⟩ := List.forall_mem_cons.mp h
      exact (conveys_char hc).append (ih htext)

/-- Whether the pass of a target keeps the quotes around a field. -/
def DialStringTarget.keepsQuotes (target : DialStringTarget) : Bool :=
  target.carrier = .dialplan || target.argument = .consumed

/-- What names a variable is expanded. -/
def DialStringTarget.Unexpanded (target : DialStringTarget) (text : Text) : Prop :=
  target.carrier = .dialplan → namesAVariable text = false

theorem wireText_split (hcarrier : target.carrier = .eslApi) (field : EscapedField)
    (text : Text) : escapeText text target field = fieldText true (passes target field)
    (field.atoms text) := by
  have hdollars : protectsDollars text target = false := by
    rw [protectsDollars, hcarrier]
    rfl
  rw [escapeText_eq, hcarrier, hdollars]
  exact wireText_plainCarrier _ _

/-- Expansion takes one level off a field, whatever of it opens no reference. -/
theorem expands_field (hcarrier : target.carrier = .dialplan) (field : EscapedField)
    {text : Text} (hfree : '\x00' ∉ text)
    (hvariable : namesAVariable text = false)
    (hall : protectsDollars text target = true → all = true) {rest out : Text}
    (hends : EndsDollar rest) (hrest : Expands all rest out) :
    Expands all (escapeText text target field ++ rest)
      (fieldText true field.ownPasses (field.atoms text) ++ out) := by
  have hargument : target.argumentPasses = 1 := by
    have hvalid := target.valid
    rw [DialStringTarget.argumentPasses]
    cases hargument : target.argument with
    | blank => rfl
    | char sep => rfl
    | consumed =>
        have hapi := hvalid.2 hargument
        rw [hcarrier] at hapi
        cases hapi
  have hdollars : protectsDollars text target = false → hasDoubleDollar text = false := by
    intro h
    rw [protectsDollars, hcarrier, hvariable] at h
    simpa [DialStringCarrier.expands] using h
  rw [escapeText_eq, hcarrier, passes_eq, hargument, Nat.add_comm]
  exact hrest.wireText hall field.ownPasses_pos (fun atom => EscapedField.rendered_atoms hfree)
    (field.isChain_atoms hvariable hdollars) hends

/-- A text of a field that a target's pass reads as written. -/
structure Written (target : DialStringTarget) (all : Bool) (text : Text) : Prop where
  free : '\x00' ∉ text
  unexpanded : target.Unexpanded text
  dollars : protectsDollars text target = true → all = true

/-- **What the pass of a target leaves of a field.** -/
theorem delivers_field (field : EscapedField) {text : Text}
    (h : Written target all text) :
    Delivers target all (escapeText text target field)
      (fieldText target.keepsQuotes field.ownPasses (field.atoms text)) := by
  have hrendered : ∀ atom ∈ field.atoms text, atom.Rendered field.ownPasses := fun atom =>
    EscapedField.rendered_atoms h.free
  refine ⟨fun hcarrier hargument => ?_, fun hargument => ?_, fun hcarrier => ?_⟩
  · have hquotes : target.keepsQuotes = false := by
      simp [DialStringTarget.keepsQuotes, hcarrier, hargument]
    have hpasses : passes target field = field.ownPasses + 1 := by
      rw [passes_eq, DialStringTarget.argumentPasses, hargument, Nat.add_comm]
    rw [wireText_split hcarrier field, hquotes, hpasses]
    exact ⟨blankThrough_fieldText hrendered, takes_fieldText_blank hrendered⟩
  · have hquotes : target.keepsQuotes = true := by simp [DialStringTarget.keepsQuotes, hargument]
    have hpasses : passes target field = field.ownPasses := by
      rw [passes_eq, DialStringTarget.argumentPasses, hargument, Nat.zero_add]
    rw [wireText_split (target.valid.2 hargument) field, hquotes, hpasses]
  · have hquotes : target.keepsQuotes = true := by simp [DialStringTarget.keepsQuotes, hcarrier]
    have hexpands := expands_field hcarrier field h.free (h.unexpanded hcarrier) h.dollars
      (by simp [EndsDollar] : EndsDollar []) .nil
    rwa [List.append_nil, List.append_nil, ← hquotes] at hexpands

/-- A field and the char behind it. -/
theorem conveys_field (field : EscapedField) {text : Text}
    (h : Written target all text) {c : Char} (hc : c ∉ ['\\', '\'', ' ', '\x00', '$', '{']) :
    Conveys target all (escapeText text target field ++ [c])
      (fieldText target.keepsQuotes field.ownPasses (field.atoms text) ++ [c]) := by
  have hwhole := delivers_field field h
  have hchar : Conveys target all [c] [c] := conveys_char fun hmem =>
    hc (List.mem_append_left ['{'] hmem)
  have hends : c ≠ '$' ∧ c ≠ '{' := by
    simp only [List.mem_cons, not_or] at hc
    exact ⟨hc.2.2.2.2.1, hc.2.2.2.2.2.1⟩
  refine ⟨fun hcarrier hargument => ?_, fun hargument => ?_, fun hcarrier rest out hrest => ?_⟩
  · obtain ⟨hthrough, htakes⟩ := hwhole.split hcarrier hargument
    obtain ⟨hthrough', htakes'⟩ := hchar.split hcarrier hargument
    exact ⟨blankThrough_append hthrough hthrough', htakes.append htakes'⟩
  · rw [hwhole.consumed hargument]
  · have hquotes : target.keepsQuotes = true := by simp [DialStringTarget.keepsQuotes, hcarrier]
    rw [List.append_assoc, List.append_assoc, hquotes]
    refine expands_field hcarrier field h.free (h.unexpanded hcarrier) h.dollars ?_
      (hchar.expanded hcarrier rest out hrest)
    simpa [EndsDollar] using hends

/-! ### Blocks -/

/-- How many passes read a field of a block. -/
def blockPasses (scope : VariablesType) : Nat := 2 + legSplitPasses scope

/-- One pair and the char behind it. -/
theorem conveys_pair (vars : Variables) {pair : Text × Text} (hkey : Written target all pair.1)
    (hvalue : Written target all pair.2) {c : Char}
    (hc : c ∉ ['\\', '\'', ' ', '\x00', '$', '{']) :
    Conveys target all (vars.writePair target pair ++ [c])
      ((Entry.ofPair vars.scope vars.commasSeparate pair).text target.keepsQuotes
        (blockPasses vars.scope) ++ [c]) := by
  have hfirst := conveys_field (.key vars.scope vars.commasSeparate) hkey
    (by decide : '=' ∉ ['\\', '\'', ' ', '\x00', '$', '{'])
  have hsecond := conveys_field (.value vars.scope vars.commasSeparate) hvalue hc
  have hwrite : vars.writePair target pair ++ [c] =
      (escapeText pair.1 target (.key vars.scope vars.commasSeparate) ++ ['=']) ++
        (escapeText pair.2 target (.value vars.scope vars.commasSeparate) ++ [c]) := by
    rw [Variables.writePair, escapeValue]
    simp
  have hread : (Entry.ofPair vars.scope vars.commasSeparate pair).text target.keepsQuotes
      (blockPasses vars.scope) ++ [c] =
      (fieldText target.keepsQuotes (blockPasses vars.scope)
        ((EscapedField.key vars.scope vars.commasSeparate).atoms pair.1) ++
        ['=']) ++ (fieldText target.keepsQuotes (blockPasses vars.scope)
          ((EscapedField.value vars.scope vars.commasSeparate).atoms pair.2) ++ [c]) := by
    rw [Entry.text, Entry.ofPair]
    simp
  rw [hwrite, hread]
  exact hfirst.append hsecond

/-- Pairs with a separator between them and a char behind the last. -/
theorem conveys_pairs (vars : Variables) {sep : Char}
    (hsep : sep ∉ ['\\', '\'', ' ', '\x00', '$', '{']) {pairs : List (Text × Text)}
    (h : ∀ pair ∈ pairs, Written target all pair.1 ∧ Written target all pair.2) {c : Char}
    (hc : c ∉ ['\\', '\'', ' ', '\x00', '$', '{']) :
    Conveys target all ([sep].intercalate (pairs.map (vars.writePair target)) ++ [c])
      (pairsText vars.scope vars.commasSeparate target.keepsQuotes (blockPasses vars.scope) sep
        pairs ++ [c]) := by
  induction pairs with
  | nil => exact conveys_char fun hmem => hc (List.mem_append_left ['{'] hmem)
  | cons pair pairs ih =>
      obtain ⟨⟨hkey, hvalue⟩, hlater⟩ := List.forall_mem_cons.mp h
      cases pairs with
      | nil =>
          rw [pairsText, dataText, List.map_cons, List.map_nil, List.map_cons, List.map_nil,
            List.map_cons, List.map_nil, List.intercalate_singleton, List.intercalate_singleton]
          exact conveys_pair vars hkey hvalue hc
      | cons next pairs =>
          have hrest := ih hlater
          have hfirst := conveys_pair vars hkey hvalue hsep
          rw [pairsText, dataText] at hrest ⊢
          simp only [List.map_cons, List.intercalate_cons_cons] at hrest ⊢
          rw [List.append_assoc (_ ++ [sep]), List.append_assoc (_ ++ [sep])]
          exact hfirst.append hrest

/-- A block behind the pass of a target. -/
def Variables.passed (vars : Variables) (target : DialStringTarget) : Text :=
  vars.scope.delimiters.1 ::
    (blockText vars.scope vars.separator target.keepsQuotes (blockPasses vars.scope) vars.pairs ++
      [vars.scope.delimiters.2])

/-- **What the pass of a target leaves of a block.** -/
theorem conveys_block {vars : Variables} (hseparator : Chosen vars.scope vars.separator vars.pairs)
    (h : ∀ pair ∈ vars.pairs, Written target all pair.1 ∧ Written target all pair.2) :
    Conveys target all (vars.writeFor target) (vars.passed target) := by
  have hopener : vars.scope.delimiters.1 ∉ ['\\', '\'', ' ', '\x00', '$'] := by
    cases vars.scope <;> decide
  have hcloser : vars.scope.delimiters.2 ∉ ['\\', '\'', ' ', '\x00', '$', '{'] := by
    cases vars.scope <;> decide
  have hmarks : vars.separator.getD ',' ∉ ['\\', '\'', ' ', '\x00', '$', '{'] := by
    cases hsep : vars.separator with
    | none => decide
    | some sep =>
        have hmarks := (separator_of_check (hseparator.checked sep hsep)).marks
        simp only [List.mem_cons, List.not_mem_nil, or_false, not_or, Option.getD_some] at hmarks ⊢
        tauto
  have hhead : ∀ c ∈ separatorHead vars.separator, c ∉ ['\\', '\'', ' ', '\x00', '$'] := by
    cases hsep : vars.separator with
    | none => exact fun c hc => by cases hc
    | some sep =>
        rw [hsep] at hmarks
        simp only [separatorHead, Option.elim_some, List.forall_mem_cons, List.not_mem_nil,
          false_imp_iff, implies_true, and_true]
        exact ⟨by decide, by decide, fun hmem => hmarks (List.mem_append_left ['{'] hmem)⟩
  have hwrite : vars.writeFor target = [vars.scope.delimiters.1] ++
      (separatorHead vars.separator ++
        ([vars.separator.getD ','].intercalate (vars.pairs.map (vars.writePair target)) ++
          [vars.scope.delimiters.2])) := by
    rw [Variables.writeFor, separatorHead]
    simp
  have hpassed : vars.passed target = [vars.scope.delimiters.1] ++
      (separatorHead vars.separator ++ (pairsText vars.scope vars.commasSeparate
        target.keepsQuotes (blockPasses vars.scope) (vars.separator.getD ',') vars.pairs ++
          [vars.scope.delimiters.2])) := by
    rw [Variables.passed, blockText, List.append_assoc]
    rfl
  rw [hwrite, hpassed]
  exact (conveys_char hopener).append
    ((conveys_plain hhead).append (conveys_pairs vars hmarks h hcloser))

/-! ### Arrival -/

namespace DialStringTarget

/-- The target a dial string is rendered for, inside an argument that is escaped once more. -/
def edge (target : DialStringTarget) : DialStringTarget :=
  if target.argvSeparator.isSome = true then target.inner else target

end DialStringTarget

/-- A text the blank split can leave whole. -/
structure Splittable (x : Text) : Prop where
  ne : x ≠ []
  free : '\x00' ∉ x
  trimmed : Trimmed x
  headless : Headless x

/-- What is delivered where a separator splits the arguments: one token of that split. -/
structure Separates (target : DialStringTarget) (sep : Char) (x y : Text) : Prop where
  carrier : target.carrier = .eslApi
  delimiter : target.splitDelimiter = some sep
  cutting : Cutting sep
  ascii : sep.toNat < 128
  joint : Joint sep x
  written : written (cleanupDelim sep) false x = y

theorem Delivers.separates {render : DialStringTarget → Text} {sep : Char}
    (hargument : target.argument = .char sep)
    (h : Delivers target.edge (hasEscapedData (render target.edge)) (render target.edge) y)
    (hx : Splittable (render target.edge)) :
    Separates target sep (target.writeArgument render) y := by
  obtain ⟨hcarrier, husable⟩ := target.valid.1 sep hargument
  have hedge : target.edge = target.inner := by
    simp [DialStringTarget.edge, DialStringTarget.argvSeparator, hargument]
  have hwrite : target.writeArgument render = writeEscaped sep (render target.inner) := by
    simp [DialStringTarget.writeArgument, DialStringTarget.argvSeparator, hargument]
  rw [hedge] at h hx
  rw [hwrite]
  have hbreaks : breaksASplit sep = false := by
    rw [usableArgvSeparator, Bool.and_eq_true, Bool.and_eq_true, Bool.not_eq_true'] at husable
    exact husable.1.1
  obtain ⟨hescaping, hcutting, hascii⟩ := Escaping.of_unbroken hbreaks
  obtain ⟨hjoint, hwritten⟩ := joint_writeEscaped hescaping hx.free hx.ne
  refine ⟨hcarrier, ?_, hcutting, hascii, hjoint, hwritten.trans ?_⟩
  · simp [DialStringTarget.splitDelimiter, hcarrier, hargument]
  · exact h.consumed (inner_eslApi hcarrier).1

/-- **What is delivered arrives at every target.** -/
theorem Delivers.arrives {render : DialStringTarget → Text}
    (h : Delivers target.edge (hasEscapedData (render target.edge)) (render target.edge) y)
    (hx : target.carrier = .eslApi → Splittable (render target.edge)) :
    Arrives target (target.writeArgument render) y := by
  cases hargument : target.argument with
  | blank =>
      have hedge : target.edge = target := by
        simp [DialStringTarget.edge, DialStringTarget.argvSeparator, hargument]
      have hwrite : target.writeArgument render = render target := by
        simp [DialStringTarget.writeArgument, DialStringTarget.argvSeparator, hargument]
      rw [hedge] at h hx
      rw [hwrite]
      cases hcarrier : target.carrier with
      | eslApi =>
          obtain ⟨hthrough, htakes⟩ := h.split hcarrier hargument
          have hx := hx hcarrier
          have hsplit : target.splitDelimiter = some ' ' := by
            simp [DialStringTarget.splitDelimiter, hcarrier, hargument]
          have hsole := soleArgument_joint (.inl rfl) (by decide)
            ⟨hx.ne, hx.free, hx.trimmed, hthrough⟩ fun _ => hx.headless
          rw [show written (cleanupDelim ' ') false (render target) = y from htakes.all] at hsole
          exact arrives_split hcarrier hsplit hsole
      | dialplan => exact arrives_dialplan hcarrier (h.expanded hcarrier) id
  | char sep =>
      have hseparates := h.separates hargument (hx (target.valid.1 sep hargument).1)
      have hsole := soleArgument_joint (.inr hseparates.cutting) hseparates.ascii hseparates.joint
        fun hspace => absurd hspace hseparates.cutting.ne_space
      rw [hseparates.written] at hsole
      exact arrives_split hseparates.carrier hseparates.delimiter hsole
  | consumed =>
      have hedge : target.edge = target := by
        simp [DialStringTarget.edge, DialStringTarget.argvSeparator, hargument]
      have hwrite : target.writeArgument render = render target := by
        simp [DialStringTarget.writeArgument, DialStringTarget.argvSeparator, hargument]
      rw [hedge] at h
      rw [hwrite, ← h.consumed hargument]
      exact arrives_consumed hargument _

end EslTokio
