import EslTokio.SwitchPasses.FieldRead

/-!
# The endpoint of a leg

An endpoint rides behind the blocks of a dial string through the split into groups and the split
into legs. Each takes off one level of the escapes it was rendered with, and cuts nowhere.

* `Trailing`, `Dialled` — a text that may stand behind a block, and one a leg can carry.
* `groupReads_endpoint` — one group is one leg with that text.
* **`dialList_reads`** — a dial string whose head is read leaves the one leg behind it.
-/

namespace EslTokio
namespace SwitchPasses

open Library

/-- A text that may stand behind a block: it opens nothing and makes no threads. -/
structure Trailing (endpoint : Text) : Prop where
  free : '\x00' ∉ endpoint
  opening : ∀ c ∈ endpoint.head?, c ∉ [' ', '<', '{', '[', '^']
  threads : splitsIntoThreads endpoint = false

/-- A text a leg can carry. -/
structure Dialled (endpoint : Text) : Prop extends Trailing endpoint where
  ne : endpoint ≠ []

theorem EscapedField.rendered_bytes {field : EscapedField} {text : Text} (hfree : '\x00' ∉ text) :
    ∀ atom ∈ atomBytes (field.atoms text), atom.Rendered field.ownPasses := by
  intro atom hatom
  rcases mem_atomBytes hatom with hatom | rfl
  · exact EscapedField.rendered_atoms hfree hatom
  · exact ⟨by decide, by decide, by decide⟩

/-- A buffer that spells a field spells its atoms. -/
theorem EscapedField.spell_field {field : EscapedField} {text : Text} (hfree : '\x00' ∉ text)
    (wraps : Bool) (level : Nat) : spell (fieldText wraps level (field.atoms text)) =
      fieldText wraps level (atomBytes (field.atoms text)) :=
  spell_fieldText (fun _ => EscapedField.rendered_atoms hfree) wraps level

theorem EscapedField.render_zero_bytes {field : EscapedField} {text : Text}
    (hfree : '\x00' ∉ text) :
    render 0 (atomBytes (field.atoms text)) = spell text := by
  rw [← fieldText_false, ← EscapedField.spell_field hfree, fieldText_false,
    EscapedField.render_zero]

theorem nulFree_fieldText {field : EscapedField} {text : Text} (hfree : '\x00' ∉ text)
    (wraps : Bool) (level : Nat) : '\x00' ∉ fieldText wraps level (field.atoms text) := by
  have hrender : '\x00' ∉ render level (field.atoms text) :=
    render_nulFree (fun _ h => (EscapedField.rendered_atoms hfree h).fits_none) level
  rw [fieldText]
  split_ifs
  · simpa [quoted] using hrender
  · exact hrender

theorem notMem_spell {c : Char} (hc : c ≠ continuation) {x : Text} (h : c ∉ x) : c ∉ spell x := by
  induction x with
  | nil => exact h
  | cons d x ih =>
      obtain ⟨hd, hx⟩ := not_or.mp (List.mem_cons.not.mp h)
      rw [spell_cons, List.mem_cons, List.mem_append, not_or, not_or]
      exact ⟨hd, fun hmem => hc (List.eq_of_mem_replicate hmem), ih hx⟩

theorem nul_notMem_spell {x : Text} (h : '\x00' ∉ x) : '\x00' ∉ spell x :=
  notMem_spell (by decide) h

theorem passing_comma : Passing (some ',') := by
  constructor <;> decide

theorem passing_pipe : Passing (some '|') := by
  constructor <;> decide

theorem meets_endpoint_comma (text : Text) :
    EscapedField.endpoint.Meets (some ',') 1 text := by
  intro c _ last h
  simp only [EscapedField.level] at h
  split_ifs at h with hcomma hpipe
  · simp_all
  · cases h
    simp [hpipe]

theorem meets_endpoint_pipe (text : Text) :
    EscapedField.endpoint.Meets (some '|') 2 text := by
  intro c _ last h
  simp only [EscapedField.level] at h
  split_ifs at h with hcomma hpipe
  · cases h
    simp [hcomma]
  · simp_all

theorem unguarded_bytes {field : EscapedField} {text : Text} {level : Nat} (hone : level ≠ 1)
    (hthree : level ≠ 3) :
    ∀ atom ∈ atomBytes (field.atoms text), atom.Unguarded level := by
  intro atom hatom
  rcases mem_atomBytes hatom with hatom | rfl
  · rcases EscapedField.mem_atoms hatom with ⟨c, -, rfl⟩ | rfl | rfl | rfl
    · unfold EscapedField.charAtom
      split_ifs
      · trivial
      · trivial
      · cases field.level c <;> trivial
    · trivial
    · exact Ne.symm hone
    · exact Ne.symm hthree
  · trivial

variable {blockParse : BlockParse} {lo : Nat} {s : List Traced} {endpoint : Text}

theorem structural_opening : ∀ c ∈ ['<', '{', '[', '^'], Structural c := by decide

/-- At every level the endpoint opens nothing. -/
theorem Trailing.head_notMem (h : Trailing endpoint) (wraps : Bool) (level : Nat) :
    ∀ c ∈ (fieldText wraps (level + 1) (EscapedField.endpoint.atoms endpoint)).head?,
      c ∉ [' ', '<', '{', '[', '^'] := by
  intro c hc hmem
  have hne : endpoint ≠ [] := by
    rintro rfl
    cases wraps <;> cases hc
  rcases List.mem_cons.mp hmem with rfl | hmem
  · exact (EscapedField.trimmed_fieldText _ hne h.free wraps level).head _ hc rfl
  · exact h.opening c (EscapedField.head_fieldText h.free (structural_opening c hmem) hc)
      (List.mem_cons_of_mem _ hmem)

theorem head_spell (x : Text) : (spell x).head? = x.head? := by
  cases x with
  | nil => rfl
  | cons c x => rfl

theorem spell_ne_nil {x : Text} (h : x ≠ []) : spell x ≠ [] := by
  obtain ⟨c, rest, rfl⟩ := List.exists_cons_of_ne_nil h
  rw [spell_cons]
  exact List.cons_ne_nil _ _

theorem ne_nil_of_chars {x : Text} (h : chars s = spell x) (hne : x ≠ []) : s ≠ [] := by
  rintro rfl
  exact spell_ne_nil hne h.symm

theorem headless_of_head {x : Text} (h : x.head? ≠ some '^') : Headless x := by
  rintro ⟨hfirst, -⟩
  exact h (by rw [List.head?_eq_getElem?, hfirst])

/-- A leg is the endpoint, once the passes are through. -/
theorem legReads_endpoint (h : Dialled endpoint) (hspelled : Spelled 0 lo s)
    (hchars : chars s = spell endpoint) :
    LegReads blockParse s [] endpoint := by
  refine legReads_bare hspelled ?_ hchars fun c hc => ?_
  · rw [nulFree_iff, hchars]
    exact nul_notMem_spell h.free
  · rw [hchars, head_spell] at hc
    have hopening := h.opening c hc
    simp only [List.mem_cons, not_or] at hopening
    exact ⟨hopening.1, hopening.2.2.2.1⟩

/-- What the cleanup behind the split into legs leaves. -/
theorem cleanup_endpoint (h : Dialled endpoint) (hspelled : Spelled 0 lo s)
    (hchars : chars s = fieldText false 1 (atomBytes (EscapedField.endpoint.atoms endpoint))) :
    Spelled 0 lo (cleanup s (some ',')) ∧ chars (cleanup s (some ',')) = spell endpoint := by
  have htrimmed : Trimmed (chars s) := by
    rw [hchars, ← EscapedField.spell_field h.free]
    exact (EscapedField.trimmed_fieldText _ h.ne h.free false 0).spell
  refine ⟨hspelled.cleanup (by simp) htrimmed, ?_⟩
  have htakes : Takes (some ',')
      (fieldText false (0 + 1) (atomBytes (EscapedField.endpoint.atoms endpoint))) _ :=
    takes_fieldText passing_comma
      (EscapedField.fits_bytes (meets_endpoint_comma _) h.free) (.inl rfl)
  rw [chars_cleanup _ htrimmed, hchars, htakes.all, EscapedField.render_zero_bytes h.free]

/-- A group is one leg. -/
theorem groupReads_endpoint (h : Dialled endpoint) (hspelled : Spelled 0 lo s)
    (hchars : chars s = fieldText false 1 (atomBytes (EscapedField.endpoint.atoms endpoint))) :
    GroupReads blockParse s [⟨[], endpoint⟩] := by
  have hspell : spell (fieldText false 1 (EscapedField.endpoint.atoms endpoint)) = _ :=
    EscapedField.spell_field h.free false 1
  have hfree : NulFree s := by
    rw [nulFree_iff, hchars, ← hspell]
    exact nul_notMem_spell (nulFree_fieldText h.free false 1)
  have huncut := EscapedField.uncut_bytes (meets_endpoint_comma _) h.free
    (fun _ => by simp [EscapedField.level]) (by decide)
  have hcommas : CommasEscaped (chars s) := by
    rw [hchars, fieldText_false]
    refine commasEscaped_render (EscapedField.rendered_bytes h.free)
      (fun hmem => (huncut _ hmem).2 rfl) ?_
    exact fun last hmem => ((huncut _ hmem).1.2.mp rfl).le
  have hscan : escapeBlockCommas s = s := escapeBlockCommas_escaped hcommas
  have hhead : Headless (chars s) := by
    rw [hchars, ← hspell]
    refine (headless_of_head fun hhead => ?_).spell
    exact h.head_notMem false 0 '^' hhead (by simp)
  have hne : s ≠ [] := ne_nil_of_chars (hchars.trans hspell.symm)
    (EscapedField.fieldText_ne_nil _ h.ne h.free false 0)
  have hthrough : Through ',' false (chars s) := by
    rw [hchars]
    exact through_fieldText passing_comma huncut (.inl rfl)
  obtain ⟨hspelled', hchars'⟩ := cleanup_endpoint h hspelled hchars
  have hpieces : Pieces ',' (some maxPeers) (escapeBlockCommas s) [s] := by
    rw [hscan]
    exact .last hne hfree (.inr hthrough)
  exact groupReads_of_pieces hfree (hscan.symm ▸ hfree) (hscan.symm ▸ hhead) hpieces
    (.cons (legReads_endpoint h hspelled' hchars') .nil)

/-! ### Threads -/

/-- A thread of one group of one leg. -/
structure Thread.Single (thread : Thread) (blocks : List Block) (endpoint : Text) : Prop where
  leg : ∃ leg, thread.groups = [[leg]] ∧ thread.blocks ++ leg.blocks = blocks ∧
    leg.endpoint = endpoint

/-- A thread whose data is one group. -/
theorem thread_single {text : List Traced} {ahead behind : List Block}
    (hhead : HeadReads blockParse text ahead s)
    (hspelled : Spelled 0 lo s) (hfree : NulFree s) (hheadless : Headless (chars s)) (hne : s ≠ [])
    (hthrough : Through '|' false (chars s))
    (hgroup : GroupReads blockParse (cleanup s (some '|')) [⟨behind, endpoint⟩]) (reader : Reader)
    (hreader : reader.blockParse = blockParse) (raw : Span) :
    ∃ later thread, reader.thread text raw = .ok (later, thread) ∧
      thread.Single (ahead ++ behind) endpoint := by
  obtain ⟨later, groups, nested, -, hgroups, hthread⟩ :=
    thread_reads hhead hspelled hfree hheadless hne
    (.last hne hfree (.inr hthrough)) (.cons hgroup .nil) reader hreader raw
  refine ⟨later, _, hthread, ?_⟩
  obtain ⟨legs, rfl, hlegs⟩ := List.map_eq_singleton_iff.mp hgroups
  obtain ⟨leg, rfl, hleg⟩ := List.map_eq_singleton_iff.mp hlegs
  obtain ⟨rfl, rfl⟩ : leg.blocks = behind ∧ leg.endpoint = endpoint := LegReading.mk.inj hleg
  exact ⟨leg, rfl, rfl, rfl⟩

/-- The endpoint behind a head. -/
theorem thread_endpoint (h : Dialled endpoint) {text : List Traced} {ahead : List Block}
    (hhead : HeadReads blockParse text ahead s) (hspelled : Spelled 0 lo s) {wraps : Bool}
    (hchars : chars s = fieldText wraps 2 (atomBytes (EscapedField.endpoint.atoms endpoint)))
    (reader : Reader) (hreader : reader.blockParse = blockParse) (raw : Span) :
    ∃ later thread, reader.thread text raw = .ok (later, thread) ∧
      thread.Single ahead endpoint := by
  have hspell : spell (fieldText wraps 2 (EscapedField.endpoint.atoms endpoint)) = _ :=
    EscapedField.spell_field h.free wraps 2
  have hfree : NulFree s := by
    rw [nulFree_iff, hchars, ← hspell]
    exact nul_notMem_spell (nulFree_fieldText h.free wraps 2)
  have hheadless : Headless (chars s) := by
    rw [hchars, ← hspell]
    refine (headless_of_head fun hhead => ?_).spell
    exact h.head_notMem wraps 1 '^' hhead (by simp)
  have hne : s ≠ [] := ne_nil_of_chars (hchars.trans hspell.symm)
    (EscapedField.fieldText_ne_nil _ h.ne h.free wraps 1)
  have htrimmed : Trimmed (chars s) := by
    rw [hchars, ← hspell]
    exact (EscapedField.trimmed_fieldText _ h.ne h.free wraps 1).spell
  have huncut := EscapedField.uncut_bytes (meets_endpoint_pipe _) h.free
    (fun _ => by simp [EscapedField.level]) (by decide)
  have hguard : ∀ atom ∈ atomBytes (EscapedField.endpoint.atoms endpoint), atom.Unguarded 2 :=
    unguarded_bytes (by decide) (by decide)
  have hthrough : Through '|' false (chars s) := by
    rw [hchars]
    exact through_fieldText passing_pipe huncut (.inr hguard)
  have htakes : Takes (some '|')
      (fieldText wraps (1 + 1) (atomBytes (EscapedField.endpoint.atoms endpoint))) _ :=
    takes_fieldText passing_pipe (fun atom hatom => (huncut atom hatom).1) (.inr hguard)
  have hgroup : GroupReads blockParse (cleanup s (some '|')) [⟨[], endpoint⟩] :=
    groupReads_endpoint h (hspelled.cleanup (by simp) htrimmed)
      (by rw [chars_cleanup _ htrimmed, hchars, htakes.all, fieldText_false])
  rw [← List.append_nil ahead]
  exact thread_single hhead hspelled hfree hheadless hne hthrough hgroup reader hreader raw

/-- What a dial string is read as: one leg with these blocks. -/
structure ReadsLeg (reading : Except PipelineError DialList) (blocks : List Block)
    (endpoint : Text) : Prop where
  list : ∃ list thread, reading = .ok list ∧ list.blocks = [] ∧ list.threads = [thread] ∧
    thread.Single blocks endpoint

/-- **A dial string without `:_:` is read as its one thread.** -/
theorem dialList_reads {text : List Traced} {blocks : List Block}
    (hthreads : ¬ enterpriseDelim <:+: chars text)
    (hthread : ∀ reader : Reader, reader.blockParse = blockParse → ∀ raw,
      ∃ later thread, reader.thread text raw = .ok (later, thread) ∧ thread.Single blocks endpoint)
    (raw : Span) (carried : Bool) :
    ReadsLeg (dialList text raw carried blockParse) blocks endpoint := by
  obtain ⟨later, thread, hread, hsingle⟩ := hthread ⟨blockParse, 0, false⟩ rfl raw
  have hfind : (find (chars text) enterpriseDelim).isSome ≠ true :=
    Search.isSome_find_iff.not.mpr hthreads
  refine ⟨⟨[], [thread], later.quoteSpansLegs, carried⟩, thread, ?_, rfl, rfl, hsingle⟩
  rw [dialList, if_neg hfind]
  simp only [hread, bind, Except.bind, pure, Except.pure]

/-- A dial string with no block. -/
theorem dialList_bare (h : Dialled endpoint) {cells : List Traced} (hordered : Ordered 0 cells)
    {wraps : Bool}
    (hchars : chars cells = fieldText wraps 2 (EscapedField.endpoint.atoms endpoint)) (raw : Span)
    (carried : Bool) : ReadsLeg (dialList cells raw carried blockParse) [] endpoint := by
  obtain ⟨s, nul, hnul, hspelled, hspell, hnew⟩ := CBuffer.new_ordered hordered
  have hopening := h.head_notMem wraps 1
  have hs : chars s = fieldText wraps 2 (atomBytes (EscapedField.endpoint.atoms endpoint)) := by
    rw [hspell, hchars, EscapedField.spell_field h.free]
  have hfree : NulFree s := by
    rw [nulFree_iff, hspell, hchars]
    exact nul_notMem_spell (nulFree_fieldText h.free wraps 2)
  have hhead : HeadReads blockParse cells [] s := by
    refine headReads_bare hnew hnul hfree (by rw [hspell, head_spell]) fun c hc => ?_
    rw [hspell, head_spell, hchars] at hc
    have hc := hopening c hc
    simp only [List.mem_cons, not_or] at hc
    exact ⟨hc.1, hc.2.1, hc.2.2.1⟩
  refine dialList_reads ?_ (thread_endpoint h hhead hspelled hs) raw carried
  rw [hchars]
  exact EscapedField.threads_fieldText h.free h.threads wraps 2

end SwitchPasses
end EslTokio
