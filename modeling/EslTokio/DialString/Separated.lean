import EslTokio.DialString.Configured
import EslTokio.SwitchPasses.OpenBlock

/-!
# A separator of one's own

A block may name the char its pairs are separated by. Every separator a load accepts is neutral to
the passes but for one: an underscore between a value that ends in a colon and a key that opens with
one is the delimiter of threads, and the block is cut there unless it is an enterprise one.

* `Endpoint.Dialable.unseparated` — the same endpoint behind a block that splits on commas.
* `Endpoint.dials_separated` — a block whose pairs do not meet so is read as its pairs.
* **`Endpoint.separator_neutral_iff`** — when a separator changes nothing of what is dialled.
-/

namespace EslTokio

open Library SwitchPasses

namespace Variables

theorem Accepted.unseparated {vars : Variables} (h : vars.Accepted) : vars.unseparated.Loaded := by
  refine ⟨⟨⟨?_, h.free, h.hidden⟩, h.length⟩, rfl⟩
  show deserialize vars.scope vars.inner none = .ok vars.unseparated
  rw [deserialize, show checkPairs vars.scope [] vars.inner.entries = .ok () from h.checked]
  rfl

/-- **A block that makes threads is refused**, whatever is behind it. -/
theorem Admitted.refused {vars : Variables} (h : vars.Admitted) {target : DialStringTarget}
    (hcrosses : vars.crosses target.keepsQuotes = true) {cells : List Traced}
    (hordered : Ordered 0 cells) {rest : Text} (hchars : chars cells = vars.passed target ++ rest)
    (hfree : '\x00' ∉ rest) (blockParse : BlockParse) (raw : Span) (carried : Bool) :
    ∃ e, dialList cells raw carried blockParse = .error e := by
  rw [crosses, Bool.and_eq_true, Bool.and_eq_true, decide_eq_true_eq, decide_eq_true_eq]
    at hcrosses
  obtain ⟨⟨hsep, hscope⟩, hmeets⟩ := hcrosses
  have hwithin := (h.threads_passed target.keepsQuotes).mpr ⟨hsep, hmeets⟩
  have hkind : vars.scope.delimiters = ('{', '}') ∨ vars.scope.delimiters = ('[', ']') := by
    cases hscope' : vars.scope with
    | enterprise => exact absurd hscope' hscope
    | default => exact .inl rfl
    | channel => exact .inr rfl
  have hbrackets : '\x00' ≠ vars.scope.delimiters.1 ∧ '\x00' ≠ vars.scope.delimiters.2 := by
    cases vars.scope <;> decide
  rw [passed, List.cons_append, List.append_assoc] at hchars
  refine dialList_unclosed hkind hordered hchars ?_ ?_ hwithin raw carried
  · rw [hchars]
    simp only [List.mem_cons, List.mem_append, List.not_mem_nil, or_false, not_or]
    exact ⟨hbrackets.1, nulFree_blockText h.fills h.chosen _ _, hbrackets.2, hfree⟩
  · exact balanced_blockText h.fills h.chosen _ _

end Variables

namespace Endpoint

variable {ep : Endpoint} {target : DialStringTarget} {vars : Variables}

theorem block_of_vars (hvars : ep.vars = some vars) :
    ep.block = if vars.pairs = [] then none else some vars := by
  rw [block, hvars, Option.filter_some]
  cases hempty : vars.pairs <;> simp [Variables.isEmpty, hempty]

/-- An endpoint behind the block without its separator can be sent where it can be behind that with
it. -/
theorem Dialable.unseparated (h : ep.Dialable target) (hvars : ep.vars = some vars) :
    (ep.setVariables (some vars.unseparated)).Deliverable target ∧
      (ep.setVariables (some vars.unseparated)).vars = some vars.unseparated := by
  have hgiven : (ep.setVariables (some vars.unseparated)).vars = some vars.unseparated := by
    cases ep with
    | error ep => cases hvars
    | _ => rfl
  have hexpression : (ep.setVariables (some vars.unseparated)).isExpression = ep.isExpression := by
    cases ep <;> rfl
  obtain ⟨hdeliverable, hmodule, -⟩ := ep.setVariables_keeps (some vars.unseparated)
  refine ⟨⟨⟨hdeliverable.trans h.accepted, hmodule ▸ h.free, ?_, ?_, ?_⟩, ?_⟩, hgiven⟩
  · rintro given hsome
    obtain rfl := Option.some.inj (hgiven.symm.trans hsome)
    exact (h.vars vars hvars).unseparated.toAccepted
  · rintro given hsome
    obtain rfl := Option.some.inj (hgiven.symm.trans hsome)
    exact h.unexpanded vars hvars
  · rw [hexpression, hmodule]
    exact h.module
  · rintro given hsome
    obtain rfl := Option.some.inj (hgiven.symm.trans hsome)
    rfl

/-- The text that arrives of an endpoint behind some variables. -/
theorem passed_of_block (hblock : ep.block = some vars) (target : DialStringTarget) :
    ep.passed target = vars.passed target ++
      fieldText target.keepsQuotes 2 (EscapedField.endpoint.atoms ep.moduleText) := by
  rw [passed, hblock, Option.elim_some]

/-- **A block whose separator makes no threads is read as its pairs.** -/
theorem dials_separated (h : ep.Dialable target) (hvars : ep.vars = some vars)
    (hcrosses : vars.crosses target.edge.keepsQuotes = false) :
    Dials (read (ep.displayFor target) target) vars.pairs ep.moduleText := by
  have huncrossed : ep.Uncrossed target := by
    rintro given hgiven
    obtain rfl := Option.some.inj (hvars.symm.trans hgiven)
    exact hcrosses
  obtain ⟨cells, raw, carried, hordered, hchars, hread⟩ := (arrives_displayFor h).read
  have hdials := (carries_passed h huncrossed hordered hchars raw carried).dials
  have hinstall : install ep.separatedBlocks = vars.pairs := by
    rw [separatedBlocks, block_of_vars hvars]
    split_ifs with hempty
    · exact hempty.symm
    · exact (h.vars vars hvars).install
  rwa [hread, ← hinstall]

/-- A block whose separator makes threads is refused. -/
theorem refused_crossing (h : ep.Dialable target) (hvars : ep.vars = some vars)
    (hcrosses : vars.crosses target.edge.keepsQuotes = true) :
    ∃ e, read (ep.displayFor target) target = .error e := by
  have hempty : vars.pairs ≠ [] := by
    intro hnil
    rw [Variables.crosses, hnil] at hcrosses
    simp [SwitchPasses.crosses] at hcrosses
  have hblock := block_of_vars hvars
  rw [if_neg hempty] at hblock
  obtain ⟨cells, raw, carried, hordered, hchars, hread⟩ := (arrives_displayFor h).read
  rw [hread]
  rw [passed_of_block hblock] at hchars
  exact (h.vars vars hvars).refused hcrosses hordered hchars (nulFree_fieldText h.free _ _) _ raw
    carried

/-- **A separator changes nothing of what is dialled, but for an underscore that two pairs meet at
outside an enterprise block**: with it and without it the switch reads one leg, of the same
variables and endpoint. -/
theorem separator_neutral_iff (h : ep.Dialable target) (hvars : ep.vars = some vars) :
    (∃ pairs endpoint, Dials (read (ep.displayFor target) target) pairs endpoint ∧
      Dials (read ((ep.setVariables (some vars.unseparated)).displayFor target) target) pairs
        endpoint) ↔
      vars.crosses target.edge.keepsQuotes = false := by
  constructor
  · rintro ⟨pairs, endpoint, hdials, -⟩
    by_contra hcrosses
    obtain ⟨e, hrefused⟩ := refused_crossing h hvars (by simpa using hcrosses)
    obtain ⟨list, thread, leg, hlist, -⟩ := hdials.single
    rw [hrefused] at hlist
    cases hlist
  · intro hcrosses
    obtain ⟨hdeliverable, hgiven⟩ := h.unseparated hvars
    have hplain := dials_separated hdeliverable.toDialable hgiven rfl
    rw [(ep.setVariables_keeps (some vars.unseparated)).2.1] at hplain
    exact ⟨vars.pairs, ep.moduleText, dials_separated h hvars hcrosses, hplain⟩

/-- A pair that ends in a colon and one that opens with it. -/
def seam (scope : VariablesType) (sep : Char) : Variables :=
  ⟨scope, (IndexMap.empty.insert "a".toList "x:".toList).insert ":b".toList "v".toList, some sep⟩

/-- A user behind the two. -/
def seamUser (scope : VariablesType) (sep : Char) : Endpoint :=
  .user ⟨"1001".toList, none, some (seam scope sep)⟩

theorem seamUser_dialable {scope : VariablesType} {sep : Char}
    (hloads : Variables.deserialize scope (seam scope sep).inner (some sep) = .ok (seam scope sep))
    (target : DialStringTarget) : (seamUser scope sep).Dialable target := by
  have hfree : ∀ pair ∈ (seam .default '_').pairs, '\x00' ∉ pair.1 ∧ '\x00' ∉ pair.2 := by decide
  have hhidden : ∀ pair ∈ (seam .default '_').pairs, ∀ c ∈ [quotedEscComma, unquotedEscComma],
      c ∉ pair.1 ∧ c ∉ pair.2 := by decide
  have hnamed : ∀ pair ∈ (seam .default '_').pairs,
      namesAVariable pair.1 = false ∧ namesAVariable pair.2 = false := by decide +kernel
  have haccepted : (seamUser .default '_').checkDeliverable = .ok () := by decide +kernel
  have hmodule : '\x00' ∉ (seamUser .default '_').moduleText ∧
      namesAVariable (seamUser .default '_').moduleText = false := by decide +kernel
  have hlength : (seam .default '_').pairs.length ≤ blockPairs := by decide
  refine ⟨haccepted, hmodule.1, ?_, ?_, fun _ _ => hmodule.2⟩
  · rintro vars hvars
    obtain rfl := Option.some.inj hvars
    exact ⟨⟨hloads, hfree, fun _ => hhidden⟩, hlength⟩
  · rintro vars hvars pair hpair
    obtain rfl := Option.some.inj hvars
    exact ⟨fun _ => (hnamed pair hpair).1, fun _ => (hnamed pair hpair).2⟩

/-- A semicolon between the two, in a block of one leg through dialplan expansion. -/
theorem separator_neutral_semicolon :
    ∃ pairs endpoint,
      Dials (read ((seamUser .channel ';').displayFor (.new .dialplan .pairSplitCleans))
        (.new .dialplan .pairSplitCleans)) pairs endpoint ∧
      Dials (read (((seamUser .channel ';').setVariables
        (some (seam .channel ';').unseparated)).displayFor (.new .dialplan .pairSplitCleans))
          (.new .dialplan .pairSplitCleans)) pairs endpoint :=
  (separator_neutral_iff (seamUser_dialable (by decide +kernel) (.new .dialplan .pairSplitCleans))
    rfl).mpr rfl

/-- The two with an underscore between them: the switch cuts the block into threads and refuses it,
where it reads the same block without a separator. -/
theorem underscore_makes_threads :
    (seamUser .default '_').Dialable (.new .eslApi .pairSplitCleans) ∧
      (seamUser .default '_').displayFor (.new .eslApi .pairSplitCleans) =
        "\x7b^^_a=x:_:b=v\x7duser/1001".toList ∧
      SwitchPasses.read ((seamUser .default '_').displayFor (.new .eslApi .pairSplitCleans))
        (.new .eslApi .pairSplitCleans) = .error (.unclosedBlock 0) ∧
      Dials (read (((seamUser .default '_').setVariables
        (some (seam .default '_').unseparated)).displayFor (.new .eslApi .pairSplitCleans))
          (.new .eslApi .pairSplitCleans)) (seam .default '_').pairs "user/1001".toList ∧
      ¬ ∃ pairs endpoint,
        Dials (read ((seamUser .default '_').displayFor (.new .eslApi .pairSplitCleans))
          (.new .eslApi .pairSplitCleans)) pairs endpoint ∧
        Dials (read (((seamUser .default '_').setVariables
          (some (seam .default '_').unseparated)).displayFor (.new .eslApi .pairSplitCleans))
            (.new .eslApi .pairSplitCleans)) pairs endpoint := by
  have hdialable : (seamUser .default '_').Dialable (.new .eslApi .pairSplitCleans) :=
    seamUser_dialable (by decide +kernel) _
  have hread : SwitchPasses.read
      ((seamUser .default '_').displayFor (.new .eslApi .pairSplitCleans))
      (.new .eslApi .pairSplitCleans) = .error (.unclosedBlock 0) := by decide +kernel
  obtain ⟨hdeliverable, hgiven⟩ := hdialable.unseparated rfl
  have hplain := dials_separated hdeliverable.toDialable hgiven rfl
  refine ⟨hdialable, by decide +kernel, hread, hplain, ?_⟩
  rintro ⟨pairs, endpoint, ⟨list, thread, leg, hlist, -⟩, -⟩
  rw [hread] at hlist
  cases hlist

end Endpoint
end EslTokio
