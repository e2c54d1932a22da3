import EslTokio.DialString.LoneBlock
import EslTokio.DialString.Separated

/-!
# No variable, leg or endpoint but the given ones

Whatever the texts of a block hold, nothing of it is read as more than a value. A block that is not
read as it was built is refused as a whole, and a block too long for the switch's array loses names
but gains none.

* `Contained` — a reading that is refused, or one leg of given names and a given endpoint.
* `install_names` — installing pairs makes no name of its own.
* **`Variables.nothing_injected`** — what is read of a block and a text behind it, at every target.
-/

namespace EslTokio

open Library SwitchPasses

/-- A reading that is refused, or one leg with this endpoint and no variable but of these names. -/
def Contained (reading : Except PipelineError DialList) (names : List Text) (endpoint : Text) :
    Prop :=
  (∃ e, reading = .error e) ∨
    ∃ pairs, Dials reading pairs endpoint ∧ ∀ name ∈ pairs.map Prod.fst, name ∈ names

/-- The variables and the endpoint of every leg that is read. -/
def legsRead : Except PipelineError DialList → List (List (Text × Text) × Text)
  | .error _ => []
  | .ok list => list.threads.flatMap fun thread => thread.groups.flatten.map fun leg =>
      (install (list.blocks ++ thread.blocks ++ leg.blocks), leg.endpoint)

/-- Such a reading has no leg, or that one. -/
theorem Contained.legsRead {reading : Except PipelineError DialList} {names : List Text}
    {endpoint : Text} (h : Contained reading names endpoint) {pairs : List (Text × Text)}
    {left : Text} (hlegs : legsRead reading = [(pairs, left)]) :
    left = endpoint ∧ ∀ name ∈ pairs.map Prod.fst, name ∈ names := by
  rcases h with ⟨e, rfl⟩ | ⟨read, ⟨list, thread, leg, rfl, hthreads, hgroups, rfl, rfl⟩, hnames⟩
  · cases hlegs
  · rw [EslTokio.legsRead, hthreads, List.flatMap_singleton, hgroups] at hlegs
    obtain ⟨rfl, rfl⟩ := Prod.mk.inj (List.singleton_inj.mp hlegs)
    exact ⟨rfl, hnames⟩

/-! ### What is installed -/

theorem installPair_names (headers : List (Text × Text)) (pair : Pair) :
    ∀ name ∈ (installPair headers pair).map Prod.fst,
      name ∈ headers.map Prod.fst ∨ name = pair.key := by
  have hfilter : ∀ name ∈ (headers.filter fun header => !sameHeader header.1 pair.key).map Prod.fst,
      name ∈ headers.map Prod.fst := fun name hname =>
    (List.filter_sublist.map Prod.fst).subset hname
  intro name hname
  unfold installPair at hname
  split at hname
  · rw [List.map_append, List.mem_append] at hname
    exact hname.imp (hfilter name) List.mem_singleton.mp
  · exact .inl (hfilter name hname)
  all_goals exact .inl hname

/-- The names installed are those of the headers before and of the pairs. -/
theorem foldl_installPair_names (headers : List (Text × Text)) (pairs : List Pair) :
    ∀ name ∈ (pairs.foldl installPair headers).map Prod.fst,
      name ∈ headers.map Prod.fst ∨ name ∈ pairs.map Pair.key := by
  induction pairs generalizing headers with
  | nil => exact fun name hname => .inl hname
  | cons pair pairs ih =>
      intro name hname
      rcases ih (installPair headers pair) name hname with hbefore | hlater
      · exact (installPair_names headers pair name hbefore).imp_right fun heq =>
          List.mem_cons.mpr (.inl heq)
      · exact .inr (List.mem_cons_of_mem _ hlater)

/-- A block installs no name but its own. -/
theorem install_names {scope : VariablesType} {separator : Option Char}
    {pairs : List (Text × Text)} :
    ∀ name ∈ (install [separatedBlock scope separator pairs]).map Prod.fst,
      name ∈ pairs.map Prod.fst := by
  intro name hname
  have hpairs : (readingOf pairs).map Pair.key = pairs.map Prod.fst := List.map_map
  rw [install, List.flatMap_singleton] at hname
  rcases foldl_installPair_names [] (readingOf pairs) name hname with hnone | hname
  · exact absurd hnone List.not_mem_nil
  · exact hpairs ▸ hname

namespace Variables

variable {vars : Variables} {target : DialStringTarget} {endpoint : Text}

/-- A block read as far as the switch's array goes is one of the given names. -/
theorem contained_of_carries {reading : Except PipelineError DialList}
    (h : CarriesLeg reading [separatedBlock vars.scope vars.separator
      (kept vars.splitter vars.pairs)] endpoint) :
    Contained reading (vars.pairs.map Prod.fst) endpoint :=
  .inr ⟨_, h.dials, fun name hname => keptWithin_keys _ _ _ name (install_names name hname)⟩

/-- What arrives of a block and a text behind it. -/
theorem Admitted.contained_passed (h : vars.Admitted) (hslashed : Slashed endpoint)
    {cells : List Traced} (hordered : Ordered 0 cells)
    (hchars : chars cells = vars.passed target ++ endpoint) (blockParse : BlockParse) (raw : Span)
    (carried : Bool) : Contained (dialList cells raw carried blockParse)
      (vars.pairs.map Prod.fst) endpoint := by
  cases hcrosses : vars.crosses target.keepsQuotes with
  | true => exact .inl (h.refused hcrosses hordered hchars hslashed.trailing.free _ _ _)
  | false =>
      by_cases hempty : endpoint = []
      · subst hempty
        rw [List.append_nil] at hchars
        -- With nothing behind it a `[]` block is a leg still, and any other stands ahead of none.
        by_cases hscope : vars.scope = .channel
        · have hthreads : ¬ enterpriseDelim <:+: blockText vars.scope vars.separator
              target.keepsQuotes (blockPasses vars.scope) vars.pairs := by
            intro hwithin
            rw [h.enterprise_of_threads hcrosses hwithin] at hscope
            cases hscope
          have hfield : vars.passed target = vars.passed target ++
              fieldText target.keepsQuotes 2 (EscapedField.endpoint.atoms []) := by
            rw [fieldText_inert hslashed.inert, List.append_nil]
          rw [hfield] at hchars
          exact contained_of_carries (Endpoint.reads_leg h hscope hslashed.trailing hordered hchars
            hthreads blockParse raw carried).carries
        · have hpasses : blockPasses vars.scope = 2 := by
            cases hkind : vars.scope with
            | channel => exact absurd hkind hscope
            | enterprise | default => rfl
          rw [passed, hpasses] at hchars
          exact .inl ⟨_, dialList_empty h.fills hscope h.chosen hordered hchars
            (fun hwithin => h.enterprise_of_threads hcrosses (hpasses ▸ hwithin)) raw carried⟩
      · rw [← fieldText_inert hslashed.inert target.keepsQuotes 2] at hchars
        exact contained_of_carries (Endpoint.carries_block h ⟨hslashed.trailing, hempty⟩ hordered
          hchars hcrosses blockParse raw carried)

/-- **No block injects a variable, a leg or an endpoint.** With a text of letters, digits and
slashes behind it, it is refused as a whole, or read as one leg of its own names and that text, but
for a last slash that ends the argument where the split is on slashes. -/
theorem nothing_injected (h : vars.Admitted) (hunexpanded : vars.Unexpanded target)
    (hslashed : Slashed endpoint) :
    ∃ left, (left = endpoint ∨ target.argvSeparator = some '/' ∧ left ++ ['/'] = endpoint) ∧
      Contained (SwitchPasses.read (vars.displayFor target ++ endpoint) target)
        (vars.pairs.map Prod.fst) left := by
  have harrived : ∀ {text left : Text}, Slashed left →
      Arrives target text (vars.passed target.edge ++ left) →
      Contained (SwitchPasses.read text target) (vars.pairs.map Prod.fst) left := by
    intro text left hslashed harrives
    obtain ⟨cells, raw, carried, hordered, hchars, hread⟩ := harrives.read
    rw [hread]
    exact h.contained_passed hslashed hordered hchars _ raw carried
  by_cases hcut : target.argvSeparator = some '/' ∧ '/' ∈ endpoint
  · -- The first slash ends the argument, and what is behind it is another.
    obtain ⟨hseparator, hslash⟩ := hcut
    have hargument := argument_of_argvSeparator hseparator
    obtain ⟨first, rest, rfl, hfirst⟩ := List.eq_append_cons_of_mem hslash
    by_cases hrest : rest = []
    · subst hrest
      exact ⟨first, .inr ⟨hseparator, rfl⟩, harrived hslashed.append_left
        (h.arrives_slash hunexpanded hslashed.append_left hfirst hargument)⟩
    · exact ⟨_, .inl rfl, .inl ⟨_, h.read_slash hunexpanded hslashed hfirst hrest hargument⟩⟩
  · exact ⟨endpoint, .inl rfl, harrived hslashed (h.arrives_ahead hunexpanded hslashed
      fun hseparator hslash => hcut ⟨hseparator, hslash⟩)⟩

/-- A slash behind a word, where the arguments are split on slashes. -/
theorem nothing_injected_slash :
    ∃ left, (left = "null/".toList ∨
        slashTarget.argvSeparator = some '/' ∧ left ++ ['/'] = "null/".toList) ∧
      Contained (SwitchPasses.read
        ((Endpoint.cutVariable .default).displayFor slashTarget ++ "null/".toList) slashTarget)
        ["k".toList] left :=
  nothing_injected (Endpoint.cutVariable_loaded .default).toAdmitted (unexpanded_eslApi _ rfl)
    (by decide)

/-- A variable of a leg. -/
def ofLeg (key value : Text) : Variables := ⟨.channel, IndexMap.empty.insert key value, none⟩

/-- Variables a load accepts, with nothing for the carrier to expand, that are read otherwise. -/
def Uncontained (vars : Variables) (target : DialStringTarget) (endpoint : Text) : Prop :=
  deserialize vars.scope vars.inner vars.separator = .ok vars ∧
    (∀ pair ∈ vars.pairs, '\x00' ∉ pair.1 ∧ '\x00' ∉ pair.2) ∧ vars.Unexpanded target ∧
    Slashed endpoint ∧
    ¬ Contained (SwitchPasses.read (vars.displayFor target ++ endpoint) target)
      (vars.pairs.map Prod.fst) endpoint

/-- The slash is no part of the endpoint that is read; and in a leg's block what is behind U+0002 is
a variable of its own, and U+0001 in a name is a comma of it. -/
theorem slash_dropped_and_names_forged :
    Uncontained (Endpoint.cutVariable .default) slashTarget "null/".toList ∧
      Uncontained (ofLeg "k".toList "a\x02b=c".toList) (.new .eslApi .pairSplitCleans)
        "null/x".toList ∧
      Uncontained (ofLeg "a\x01b".toList "c".toList) (.new .eslApi .pairSplitCleans)
        "null/x".toList := by
  have hslash : legsRead (SwitchPasses.read
      ((Endpoint.cutVariable .default).displayFor slashTarget ++ "null/".toList) slashTarget) =
        [([("k".toList, "a, b| ".toList)], "null".toList)] := by decide +kernel
  have hvalue : legsRead (SwitchPasses.read
      ((ofLeg "k".toList "a\x02b=c".toList).displayFor (.new .eslApi .pairSplitCleans) ++
        "null/x".toList) (.new .eslApi .pairSplitCleans)) =
        [([("k".toList, "a".toList), ("b".toList, "c".toList)], "null/x".toList)] := by
    decide +kernel
  have hkey : legsRead (SwitchPasses.read
      ((ofLeg "a\x01b".toList "c".toList).displayFor (.new .eslApi .pairSplitCleans) ++
        "null/x".toList) (.new .eslApi .pairSplitCleans)) =
        [([("a,b".toList, "c".toList)], "null/x".toList)] := by decide +kernel
  refine ⟨⟨by decide +kernel, by decide, unexpanded_eslApi _ rfl, by decide, fun h => ?_⟩,
    ⟨by decide +kernel, by decide, unexpanded_eslApi _ rfl, by decide, fun h => ?_⟩,
    ⟨by decide +kernel, by decide, unexpanded_eslApi _ rfl, by decide, fun h => ?_⟩⟩
  · exact absurd (h.legsRead hslash).1 (by decide)
  · exact absurd ((h.legsRead hvalue).2 "b".toList (by decide)) (by decide)
  · exact absurd ((h.legsRead hkey).2 "a,b".toList (by decide)) (by decide)

end Variables
end EslTokio
