import EslTokio.DialString.Appended

/-!
# Variables arrive

A variable block ahead of an endpoint is one leg of a dial string. A block that stands for itself is
read ahead of an endpoint the parse gives it, so that every pass of a dial string sees a whole leg.

* `Variables.parseFor_displayFor` — the parse of a block for a target gives it back.
* **`Variables.block_arrives`** — what the switch and a parse read of a block, at every target.
-/

namespace EslTokio

open Library SwitchPasses

variable {scope : VariablesType} {text : Text}

theorem Bracketed.trimSpaces (h : Bracketed scope text) : trimSpaces text = text := by
  obtain ⟨inside, rfl⟩ := h
  obtain ⟨hopen, hclose⟩ := delimiters_ne_space scope
  rw [EslTokio.trimSpaces, List.dropWhile_cons_of_neg (by simpa using hopen), ← List.cons_append,
    List.reverse_append, List.reverse_singleton, List.singleton_append,
    List.dropWhile_cons_of_neg (by simpa using hclose)]
  simp

theorem Bracketed.length (h : Bracketed scope text) : 2 ≤ (Utf8.encode text).length := by
  obtain ⟨inside, rfl⟩ := h
  have hbytes : ∀ x : Text, x.length ≤ (Utf8.encode x).length := by
    intro x
    induction x with
    | nil => exact Nat.le_refl 0
    | cons c x ih =>
        have hc : 1 ≤ (String.utf8EncodeChar c).length := by
          rw [String.length_utf8EncodeChar]
          exact c.utf8Size_pos
        rw [Utf8.encode, List.flatMap_cons, List.length_append, List.length_cons]
        have hx : x.length ≤ (x.flatMap String.utf8EncodeChar).length := ih
        omega
  refine Nat.le_trans ?_ (hbytes _)
  simp

namespace Variables

/-- A lone block is read ahead of an endpoint. -/
theorem parseFor_of_readLeg {target later : DialStringTarget} {argument : Text} {block : Block}
    (hcut : target.readArgument text = .ok (argument, later)) (hbrackets : Bracketed scope argument)
    (hleg : readLeg (argument ++ loneBlockEndpoint) later = .ok (some block, loneBlockEndpoint)) :
    parseFor text target = fromBlock block := by
  obtain ⟨hhead, hlast⟩ := hbrackets.ends
  have hknown : ¬ ((some scope.delimiters.1, some scope.delimiters.2) ≠ (some '{', some '}') ∧
      (some scope.delimiters.1, some scope.delimiters.2) ≠ (some '<', some '>') ∧
      (some scope.delimiters.1, some scope.delimiters.2) ≠ (some '[', some ']')) := by
    cases scope <;> decide
  rw [parseFor]
  simp only [hcut, bind, Except.bind, hbrackets.trimSpaces, Nat.not_lt.mpr hbrackets.length,
    if_false, hhead, hlast, hknown, hleg, if_true]

variable {vars : Variables} {target : DialStringTarget}

theorem slashed_loneBlockEndpoint : Slashed loneBlockEndpoint := by decide

theorem dialled_loneBlockEndpoint : Dialled loneBlockEndpoint :=
  ⟨slashed_loneBlockEndpoint.trailing, by decide⟩

/-- A block that arrived, ahead of the endpoint a parse gives it, is read as its pairs. -/
theorem Loaded.reads_passed (h : vars.Loaded) {cells : List Traced} (hordered : Ordered 0 cells)
    {edge : DialStringTarget} (hchars : chars cells = vars.passed edge ++ loneBlockEndpoint)
    (blockParse : BlockParse) (raw : Span) (carried : Bool) :
    ReadsLeg (dialList cells raw carried blockParse)
      [blockOf vars.scope vars.pairs] loneBlockEndpoint := by
  rw [← fieldText_inert slashed_loneBlockEndpoint.inert edge.keepsQuotes 2] at hchars
  exact Endpoint.reads_loaded h dialled_loneBlockEndpoint hordered hchars blockParse raw carried

/-- **The parse of a lone block for a target gives back the variables rendered for it.** -/
theorem parseFor_displayFor (h : vars.Loaded) (hunexpanded : vars.Unexpanded target) :
    parseFor (vars.displayFor target) target = .ok vars := by
  have hedge : vars.Unexpanded target.edge := fun pair hpair =>
    ⟨(hunexpanded pair hpair).1.edge, (hunexpanded pair hpair).2.edge⟩
  have hconveys := conveys_block h.chosen
    (h.written hedge (List.infix_refl (vars.writeFor target.edge)))
  have harrives : Arrives target (vars.displayFor target) (vars.passed target.edge) :=
    hconveys.delivers.arrives fun hcarrier => h.splittable (target.edge_carrier.trans hcarrier)
  obtain ⟨argument, later, hcuts⟩ := harrives.parsed
  have hreads : Bracketed vars.scope argument ∧
      ReadsLeg (read (argument ++ loneBlockEndpoint) later)
      [blockOf vars.scope vars.pairs] loneBlockEndpoint := by
    rcases hcuts.left with ⟨hconsumed, rfl⟩ | ⟨hdialplan, hlater, rfl⟩
    · obtain ⟨raw, hread⟩ := read_consumed hconsumed (vars.passed target.edge ++ loneBlockEndpoint)
      rw [hread]
      exact ⟨⟨_, rfl⟩, h.reads_passed (ordered_traceFrom 0 _) (chars_traceFrom 0 _) _ raw false⟩
    · have hargument : target.argvSeparator = none := by
        cases hseparator : target.argument with
        | char sep =>
            have hapi := (target.valid.1 sep hseparator).1
            rw [hdialplan] at hapi
            cases hapi
        | blank | consumed => rw [DialStringTarget.argvSeparator, hseparator]
      have hdisplay : vars.displayFor target = vars.writeFor target := by
        rw [displayFor, DialStringTarget.writeArgument, hargument]
      have hslash : target.argvSeparator ≠ some '/' := hargument ▸ (Option.some_ne_none '/').symm
      obtain ⟨cells, raw, carried, hordered, hchars, hread⟩ :=
        (h.arrives_ahead hunexpanded slashed_loneBlockEndpoint fun hsep => absurd hsep hslash).read
      rw [hlater, hread]
      exact ⟨hdisplay ▸ vars.bracketed_writeFor target,
        h.reads_passed hordered hchars _ raw carried⟩
  have hleg : readLeg (argument ++ loneBlockEndpoint) later =
      .ok (some (blockOf vars.scope vars.pairs), loneBlockEndpoint) :=
    readLeg_of_carries hreads.2.carries
  rw [parseFor_of_readLeg hcuts.cut hreads.1 hleg]
  exact fromBlock_blockOf h

/-- **Variables arrive as built**: ahead of an endpoint the switch reads one leg whose one block
installs them, wherever the split of the arguments leaves that endpoint whole, and the parse of the
block alone gives them back. -/
theorem block_arrives (h : vars.Loaded) (hunexpanded : vars.Unexpanded target) :
    (target.argvSeparator ≠ some '/' →
      ReadsLeg (SwitchPasses.read (vars.displayFor target ++ "null/x".toList) target)
        [blockOf vars.scope vars.pairs] "null/x".toList ∧
      install [blockOf vars.scope vars.pairs] = vars.pairs) ∧
    parseFor (vars.displayFor target) target = .ok vars := by
  refine ⟨fun hslash => ⟨?_, h.install⟩, parseFor_displayFor h hunexpanded⟩
  obtain ⟨cells, raw, carried, hordered, hchars, hread⟩ :=
    (h.arrives_ahead hunexpanded slashed_loneBlockEndpoint fun hsep => absurd hsep hslash).read
  have hreads := h.reads_passed hordered hchars target.blockParse raw carried
  rw [← hread] at hreads
  exact hreads

/-- A block of commas and bars through dialplan expansion. -/
theorem block_arrives_cutVariable :
    (ReadsLeg (SwitchPasses.read
        ((Endpoint.cutVariable .enterprise).displayFor (.new .dialplan .pairSplitCleans) ++
          "null/x".toList) (.new .dialplan .pairSplitCleans))
        [blockOf .enterprise [("k".toList, "a, b| ".toList)]] "null/x".toList ∧
      install [blockOf .enterprise [("k".toList, "a, b| ".toList)]] =
        [("k".toList, "a, b| ".toList)]) ∧
    parseFor ((Endpoint.cutVariable .enterprise).displayFor (.new .dialplan .pairSplitCleans))
      (.new .dialplan .pairSplitCleans) = .ok (Endpoint.cutVariable .enterprise) := by
  have hunexpanded :
      (Endpoint.cutVariable .enterprise).Unexpanded (.new .dialplan .pairSplitCleans) := by
    intro pair hpair
    obtain rfl := List.mem_singleton.mp hpair
    exact ⟨fun _ => by decide +kernel, fun _ => by decide +kernel⟩
  obtain ⟨hreads, hparse⟩ := block_arrives (Endpoint.cutVariable_loaded .enterprise) hunexpanded
  exact ⟨hreads (by decide), hparse⟩

/-- Arguments split on a slash. -/
def slashTarget : DialStringTarget :=
  ⟨.eslApi, .pairSplitCleans, .char '/', fun sep h => by cases h; exact ⟨rfl, by decide⟩, nofun⟩

/-- The slash of the endpoint is a second argument of the split, whatever the block ahead of it. -/
theorem slash_cuts_endpoint :
    (Endpoint.cutVariable .default).Loaded ∧
      (Endpoint.cutVariable .default).Unexpanded slashTarget ∧
      (DialStringTarget.new .eslApi .pairSplitCleans).withArgvSeparator '/' = .ok slashTarget ∧
      SwitchPasses.read ((Endpoint.cutVariable .default).displayFor slashTarget ++ "null/x".toList)
        slashTarget = .error .argvSplit ∧
      ¬ReadsLeg (SwitchPasses.read
        ((Endpoint.cutVariable .default).displayFor slashTarget ++ "null/x".toList) slashTarget)
        [blockOf .default [("k".toList, "a, b| ".toList)]] "null/x".toList := by
  have hread : SwitchPasses.read
      ((Endpoint.cutVariable .default).displayFor slashTarget ++ "null/x".toList) slashTarget =
        .error .argvSplit := by decide +kernel
  refine ⟨Endpoint.cutVariable_loaded .default, unexpanded_eslApi _ rfl, rfl, hread, ?_⟩
  rintro ⟨list, thread, hlist, -⟩
  rw [hread] at hlist
  cases hlist

end Variables
end EslTokio
