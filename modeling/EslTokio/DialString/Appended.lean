import EslTokio.DialString.Delivery

/-!
# A text behind a block

A block rendered for a target, and a text of letters, digits and slashes appended to it as it
stands. Only the argument split reads anything of that text, and only where it splits on a slash.

* `Bracketed` — what a parse takes for a block.
* `Slashed` — the appended text.
* **`Variables.Admitted.arrives_ahead`** — what the pass of a target leaves of both.
* `Variables.Admitted.arrives_slash`, `read_slash` — where the text holds a slash the split is on.
-/

namespace EslTokio

open Library SwitchPasses

/-- A text between the brackets of a scope. -/
def Bracketed (scope : VariablesType) (text : Text) : Prop :=
  ∃ inside, text = scope.delimiters.1 :: (inside ++ [scope.delimiters.2])

variable {scope : VariablesType} {text : Text}

theorem delimiters_ne_space (scope : VariablesType) :
    scope.delimiters.1 ≠ ' ' ∧ scope.delimiters.2 ≠ ' ' := by
  cases scope <;> decide

theorem Bracketed.trimmed (h : Bracketed scope text) : Trimmed text := by
  obtain ⟨inside, rfl⟩ := h
  refine Trimmed.behind (delimiters_ne_space scope).1 (List.cons_ne_nil _ []) ⟨?_, ?_⟩ <;>
    · intro c hc
      obtain rfl := Option.some.inj hc
      exact (delimiters_ne_space scope).2

theorem Bracketed.ends (h : Bracketed scope text) :
    text.head? = some scope.delimiters.1 ∧ text.getLast? = some scope.delimiters.2 := by
  obtain ⟨inside, rfl⟩ := h
  exact ⟨rfl, by rw [← List.cons_append, List.getLast?_append_of_ne_nil _
    (List.cons_ne_nil _ [])]; rfl⟩

/-! ### The text -/

/-- A text of letters, digits and slashes. -/
def Slashed (text : Text) : Prop := ∀ c ∈ text, c.isAlphanum = true ∨ c = '/'

instance (text : Text) : Decidable (Slashed text) :=
  inferInstanceAs (Decidable (∀ c ∈ text, c.isAlphanum = true ∨ c = '/'))

theorem Slashed.notMem (h : Slashed text) {c : Char} (hc : (c.isAlphanum || c = '/') = false) :
    c ∉ text := by
  intro hmem
  rcases h c hmem with hletter | hslash
  · rw [hletter] at hc
    cases hc
  · subst hslash
    cases hc

theorem Slashed.append_left {left right : Text} (h : Slashed (left ++ right)) : Slashed left :=
  fun c hc => h c (List.mem_append_left right hc)

theorem Slashed.inert (h : Slashed text) : Inert text := by
  have hnone : ∀ c ∈ ['\\', '\'', ' ', ',', '|'], (c.isAlphanum || c = '/') = false := by decide
  exact fun c hc hmem => h.notMem (hnone c hmem) hc

theorem Slashed.trailing (h : Slashed text) : Trailing text := by
  have hnone : ∀ c ∈ [' ', '<', '{', '[', '^'], (c.isAlphanum || c = '/') = false := by decide
  refine ⟨h.notMem (by decide), fun c hc hmem => ?_, ?_⟩
  · exact h.notMem (hnone c hmem) (List.mem_of_mem_head? hc)
  · rw [splitsIntoThreads, find, Option.isSome_eq_false_iff, Option.isNone_iff_eq_none,
      ← Option.not_isSome_iff_eq_none, Search.isSome_find_iff]
    exact fun hwithin => h.notMem (c := ':') (by decide) (hwithin.subset List.mem_cons_self)

theorem Slashed.trimmed (h : Slashed text) : Trimmed text := by
  have hspace : ' ' ∉ text := h.notMem (by decide)
  exact ⟨fun c hc heq => hspace (heq ▸ List.mem_of_mem_head? hc),
    fun c hc heq => hspace (heq ▸ List.mem_of_getLast? hc)⟩

/-- No pass of the carrier reads such a text. -/
theorem Slashed.conveys (h : Slashed text) (target : DialStringTarget) (all : Bool) :
    Conveys target all text text := by
  have hnone : ∀ c ∈ ['\\', '\'', ' ', '\x00', '$'], (c.isAlphanum || c = '/') = false := by decide
  exact conveys_plain fun c hc hmem => h.notMem (hnone c hmem) hc

/-- No separator of the argument split is one of its chars, but for a slash. -/
theorem Slashed.separator_notMem (h : Slashed text) {sep : Char}
    (husable : usableArgvSeparator sep = true) (hslash : sep = '/' → '/' ∉ text) : sep ∉ text := by
  intro hmem
  rcases h sep hmem with hletter | rfl
  · rw [usableArgvSeparator, hletter] at husable
    simp at husable
  · exact hslash rfl hmem

/-- Nor is it written with an escape. -/
theorem Slashed.writeEscaped (h : Slashed text) {sep : Char} (hsep : sep ∉ text) :
    writeEscapedFrom sep true 0 false text = text := by
  refine writeEscapedFrom_plain ?_ (fun hstarted => Bool.noConfusion hstarted) ?_
    (fun _ => ⟨rfl, rfl⟩)
  · have hnone : ∀ c ∈ ['\\', '\'', '\n', '\r', '\t'], (c.isAlphanum || c = '/') = false := by
      decide
    intro c hc
    rcases List.mem_append.mp (show c ∈ ['\\', '\'', '\n', '\r', '\t'] ++ [sep] from hc) with
      hmem | hmem
    · exact h.notMem (hnone c hmem)
    · exact List.mem_singleton.mp hmem ▸ hsep
  · have hnone : ∀ c ∈ strippedWhitespace, (c.isAlphanum || c = '/') = false := by decide
    exact fun c hc hmem => h.notMem (hnone c hmem) (List.mem_of_getLast? hc)

/-- A target with a separator splits its arguments on that. -/
theorem argument_of_argvSeparator {target : DialStringTarget} {sep : Char}
    (h : target.argvSeparator = some sep) : target.argument = .char sep := by
  rw [DialStringTarget.argvSeparator] at h
  cases hargument : target.argument with
  | char other =>
      rw [hargument] at h
      rw [Option.some.inj h]
  | blank | consumed =>
      rw [hargument] at h
      cases h

namespace Variables

variable {vars : Variables} {target : DialStringTarget} {endpoint : Text}

theorem bracketed_writeFor (vars : Variables) (target : DialStringTarget) :
    Bracketed vars.scope (vars.writeFor target) := by
  rw [writeFor, List.append_assoc, List.cons_append, ← List.append_assoc]
  exact ⟨_, rfl⟩

theorem Admitted.splittable (h : vars.Admitted) (hcarrier : target.carrier = .eslApi) :
    Splittable (vars.writeFor target) := by
  have hbrackets := vars.bracketed_writeFor target
  have hopener : vars.scope.delimiters.1 ≠ '^' := by cases vars.scope <;> decide
  obtain ⟨hhead, -⟩ := hbrackets.ends
  refine ⟨fun hnil => ?_, h.free_writeFor hcarrier, hbrackets.trimmed,
    headless_of_head fun hcaret => ?_⟩
  · rw [hnil] at hhead
    cases hhead
  · exact hopener (Option.some.inj (hhead.symm.trans hcaret))

/-- A text behind a block does not change that. -/
theorem Admitted.splittable_ahead (h : vars.Admitted) (hcarrier : target.carrier = .eslApi)
    (hslashed : Slashed endpoint) : Splittable (vars.writeFor target ++ endpoint) := by
  have hsplittable := h.splittable hcarrier
  by_cases hne : endpoint = []
  · rwa [hne, List.append_nil]
  obtain ⟨inside, hwrite⟩ := vars.bracketed_writeFor target
  have hopener : vars.scope.delimiters.1 ≠ '^' := by cases vars.scope <;> decide
  refine ⟨List.append_ne_nil_of_left_ne_nil hsplittable.ne _, ?_, ?_, ?_⟩
  · exact fun hmem => (List.mem_append.mp hmem).elim hsplittable.free hslashed.trailing.free
  · rw [hwrite]
    exact Trimmed.behind (delimiters_ne_space vars.scope).1 hne hslashed.trimmed
  · rw [hwrite]
    exact headless_of_head fun hhead => hopener (Option.some.inj hhead)

/-- A block with a text behind it is what rendering both at once writes. -/
theorem displayFor_ahead (vars : Variables) (hslashed : Slashed endpoint)
    (hsep : target.argvSeparator = some '/' → '/' ∉ endpoint) :
    vars.displayFor target ++ endpoint =
      target.writeArgument fun target => vars.writeFor target ++ endpoint := by
  rw [displayFor, DialStringTarget.writeArgument, DialStringTarget.writeArgument]
  cases hseparator : target.argvSeparator with
  | none => rfl
  | some sep =>
      have hargument := argument_of_argvSeparator hseparator
      have habsent := hslashed.separator_notMem (target.valid.1 sep hargument).2
        fun hslash => hsep (hslash ▸ hseparator)
      obtain ⟨inside, hwrite⟩ := vars.bracketed_writeFor target.inner
      have hcloser : vars.scope.delimiters.2 ≠ ' ' ∧ vars.scope.delimiters.2 ≠ '\x0b' := by
        cases vars.scope <;> decide
      show SwitchPasses.writeEscaped sep _ ++ endpoint = SwitchPasses.writeEscaped sep _
      rw [hwrite, SwitchPasses.writeEscaped, SwitchPasses.writeEscaped, ← List.cons_append,
        List.append_assoc, List.singleton_append,
        writeEscapedFrom_behind hcloser.1 hcloser.2 sep false 0 false _ endpoint,
        hslashed.writeEscaped habsent]

/-- What the pass of a target leaves of both, inside an argument. -/
theorem Admitted.delivers_ahead (h : vars.Admitted) (hunexpanded : vars.Unexpanded target)
    (hslashed : Slashed endpoint) :
    Delivers target.edge (hasEscapedData (vars.writeFor target.edge ++ endpoint))
      (vars.writeFor target.edge ++ endpoint) (vars.passed target.edge ++ endpoint) := by
  have hedge : vars.Unexpanded target.edge := fun pair hpair =>
    ⟨(hunexpanded pair hpair).1.edge, (hunexpanded pair hpair).2.edge⟩
  have hwritten := h.written hedge
    (List.prefix_append (vars.writeFor target.edge) endpoint).isInfix
  exact ((conveys_block h.chosen hwritten).append (hslashed.conveys _ _)).delivers

/-- **A block arrives with the text behind it.** -/
theorem Admitted.arrives_ahead (h : vars.Admitted) (hunexpanded : vars.Unexpanded target)
    (hslashed : Slashed endpoint) (hsep : target.argvSeparator = some '/' → '/' ∉ endpoint) :
    Arrives target (vars.displayFor target ++ endpoint)
      (vars.passed target.edge ++ endpoint) := by
  rw [vars.displayFor_ahead hslashed hsep]
  exact (h.delivers_ahead hunexpanded hslashed).arrives fun hcarrier =>
    h.splittable_ahead (target.edge_carrier.trans hcarrier) hslashed

/-! ### A split on a slash -/

theorem separates_slash (h : vars.Admitted) (hunexpanded : vars.Unexpanded target)
    (hslashed : Slashed endpoint) (hslash : '/' ∉ endpoint)
    (hargument : target.argument = .char '/') :
    Separates target '/' (vars.displayFor target ++ endpoint)
      (vars.passed target.edge ++ endpoint) := by
  rw [vars.displayFor_ahead hslashed fun _ => hslash]
  refine (h.delivers_ahead hunexpanded hslashed).separates hargument ?_
  exact h.splittable_ahead (target.edge_carrier.trans (target.valid.1 '/' hargument).1) hslashed

/-- A slash behind the text ends the argument. -/
theorem Admitted.arrives_slash (h : vars.Admitted) (hunexpanded : vars.Unexpanded target)
    (hslashed : Slashed endpoint) (hslash : '/' ∉ endpoint)
    (hargument : target.argument = .char '/') :
    Arrives target (vars.displayFor target ++ (endpoint ++ ['/']))
      (vars.passed target.edge ++ endpoint) := by
  have hseparates := separates_slash h hunexpanded hslashed hslash hargument
  have hsole := soleArgument_trailing hseparates.cutting hseparates.ascii hseparates.joint
  rw [hseparates.written, List.append_assoc] at hsole
  exact arrives_split hseparates.carrier hseparates.delimiter hsole

/-- Anything behind that slash is a second argument. -/
theorem Admitted.read_slash (h : vars.Admitted) (hunexpanded : vars.Unexpanded target)
    {rest : Text} (hslashed : Slashed (endpoint ++ '/' :: rest)) (hslash : '/' ∉ endpoint)
    (hne : rest ≠ []) (hargument : target.argument = .char '/') :
    SwitchPasses.read (vars.displayFor target ++ (endpoint ++ '/' :: rest)) target =
      .error .argvSplit := by
  have hseparates := separates_slash h hunexpanded hslashed.append_left hslash hargument
  have hfree : '\x00' ∉ rest := fun hmem => hslashed.notMem (c := '\x00') (by decide)
    (List.mem_append_right _ (List.mem_cons_of_mem _ hmem))
  have hcut := soleArgument_two hseparates.cutting hseparates.ascii hseparates.joint hne hfree
  rw [List.append_assoc] at hcut
  exact read_cut hseparates.carrier hseparates.delimiter hcut

end Variables
end EslTokio
