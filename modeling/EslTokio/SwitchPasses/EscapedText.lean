import EslTokio.SwitchPasses.Atoms

/-!
# What a render writes, atom by atom

`escapeText` replaces one char after another over a whole text. Here its result is spelled by the
atoms of the field, as the pass ahead of the dial string's own reads them: the argument split takes
one level off as every other pass does, where dialplan expansion drops a `\'` and reads a `\$` as a
dollar.

* `Atom.wire` — the spelling of an atom for a carrier.
* `wireText` — the spelling of a field, between quotes where it holds a space.
* **`escapeText_eq`** — `escapeText` writes `wireText`.
-/

namespace EslTokio
namespace SwitchPasses

open Library

/-- A quote that reads bare once `count` passes have run. -/
def wireQuote (expands : Bool) (count : Nat) : Text :=
  backslashes (2 ^ count - if expands then 2 else 1) ++ ['\'']

/-- The spelling of an atom with `level` passes ahead, the first of which may be an expansion;
`dollars` are escaped for one. -/
def Atom.wire (expands dollars : Bool) (level : Nat) : Atom → Text
  | .plain c => if dollars = true ∧ c = '$' then ['\\', '$'] else [c]
  | .quote => wireQuote expands level
  | .guarding last =>
      if last ≤ level then wireQuote expands (level - last) ++ wireQuote expands
        (level - last) else []
  | .escaped c last => (Atom.escaped c last).text level
  | .backslash => Atom.backslash.text level
  | .space => Atom.space.text level

/-- The spelling of atoms for a carrier. -/
def wire (expands dollars : Bool) (level : Nat) (atoms : List Atom) : Text :=
  atoms.flatMap (Atom.wire expands dollars level)

/-- What makes expansion read the escapes of a text whose dollars are escaped. -/
def dollarGuard (dollars : Bool) : Text := if dollars then ['\\', '\''] else []

/-- A field for a carrier: behind a dollar's guard, and between quotes when it holds a space. -/
def wireText (expands dollars : Bool) (level : Nat) (atoms : List Atom) : Text :=
  let guarded := dollarGuard dollars ++ wire expands dollars level atoms
  if spaced atoms = true then quoted guarded else guarded

@[simp] theorem wire_nil (expands dollars : Bool) (level : Nat) :
    wire expands dollars level [] = [] := rfl

@[simp] theorem wire_cons (expands dollars : Bool) (level : Nat) (atom : Atom) (atoms : List Atom) :
    wire expands dollars level (atom :: atoms) =
      atom.wire expands dollars level ++ wire expands dollars level atoms := rfl

@[simp] theorem wire_append (expands dollars : Bool) (level : Nat) (left right : List Atom) :
    wire expands dollars level (left ++ right) =
      wire expands dollars level left ++ wire expands dollars level right := List.flatMap_append

/-- Where nothing is expanded an atom is spelled as at any other pass. -/
theorem Atom.wire_plainCarrier (level : Nat) (atom : Atom) :
    atom.wire false false level = atom.text level := by
  cases atom <;> simp [Atom.wire, Atom.text, wireQuote]

theorem wireText_plainCarrier (level : Nat) (atoms : List Atom) :
    wireText false false level atoms = fieldText true level atoms := by
  have hwire : wire false false level atoms = render level atoms := by
    rw [wire, render]
    exact List.flatMap_congr fun atom _ => atom.wire_plainCarrier level
  simp only [wireText, fieldText, hwire, dollarGuard, Bool.true_and, Bool.false_eq_true, if_false,
    List.nil_append]

/-! ### Replacing chars -/

@[simp] theorem replaceChar_nil (c : Char) (replacement : Text) :
    replaceChar c replacement [] = [] := rfl

@[simp] theorem replaceChar_append (c : Char) (replacement left right : Text) :
    replaceChar c replacement (left ++ right) =
      replaceChar c replacement left ++ replaceChar c replacement right := List.flatMap_append

theorem replaceChar_self (c : Char) (replacement : Text) :
    replaceChar c replacement [c] = replacement := by
  simp [replaceChar]

theorem replaceChar_of_notMem {c : Char} {text : Text} (h : c ∉ text) (replacement : Text) :
    replaceChar c replacement text = text := by
  induction text with
  | nil => rfl
  | cons d text ih =>
      obtain ⟨hd, htext⟩ := not_or.mp (List.mem_cons.not.mp h)
      have htail := ih htext
      rw [replaceChar] at htail ⊢
      rw [List.flatMap_cons, if_neg (Ne.symm hd), htail]
      rfl

/-- The replacements of single chars, dollars escaped or not. -/
def escapeWith (dollars : Bool) (target : DialStringTarget) (field : EscapedField) (text : Text) :
    Text :=
  let escaped := replaceChar '\'' (quoteEscape target field)
    (replaceChar '\\' (backslashEscape target field) text)
  let escaped := if dollars then replaceChar '$' ['\\', '$'] escaped else escaped
  let escaped := if field.escapesComma then replaceChar ',' ['\\', ','] escaped else escaped
  let escaped := if field.escapesPipe then replaceChar '|' ['\\', '|'] escaped else escaped
  match field with
  | .key _ _ => replaceChar '=' ['\\', '='] escaped
  | .value _ _ | .endpoint => escaped

theorem escapeChars_eq (text : Text) (target : DialStringTarget) (field : EscapedField) :
    escapeChars text target field = escapeWith (protectsDollars text target) target field text :=
      rfl

theorem escapeWith_append (dollars : Bool) (target : DialStringTarget) (field : EscapedField)
    (left right : Text) :
    escapeWith dollars target field (left ++ right) =
      escapeWith dollars target field left ++ escapeWith dollars target field right := by
  unfold escapeWith
  cases field <;> cases dollars <;> simp only [replaceChar_append, if_true] <;> split_ifs <;>
    simp only [replaceChar_append]

theorem quoteEscape_eq (target : DialStringTarget) (field : EscapedField) :
    quoteEscape target field = wireQuote target.carrier.expands (passes target field) := rfl

/-- How many passes read a field behind the argument's. -/
def EscapedField.ownPasses : EscapedField → Nat
  | .value scope _ | .key scope _ => 2 + legSplitPasses scope
  | .endpoint => legSplitPassCount

theorem passes_eq (target : DialStringTarget) (field : EscapedField) :
    passes target field = target.argumentPasses + field.ownPasses := by
  obtain ⟨carrier, blockParse, argument, valid⟩ := target
  cases blockParse
  cases field <;> rfl

/-- The backslash of a char's atom is taken by one of the dial string's own passes. -/
theorem EscapedField.level_le (field : EscapedField) (c : Char) :
    ∀ last ∈ field.level c, last ≤ field.ownPasses := by
  intro last hlast
  cases field with
  | endpoint =>
      simp only [EscapedField.level] at hlast
      split_ifs at hlast <;> simp_all [EscapedField.ownPasses, legSplitPassCount]
      omega
  | value scope commas =>
      simp only [EscapedField.level] at hlast
      split_ifs at hlast <;> cases scope <;>
        simp_all [EscapedField.ownPasses, commaLevel, legSplitPasses, legSplitPassCount]
      omega
  | key scope commas =>
      simp only [EscapedField.level] at hlast
      split_ifs at hlast <;> cases scope <;>
        simp_all [EscapedField.ownPasses, commaLevel, legSplitPasses, legSplitPassCount] <;> omega

/-- The replacements behind those of the backslash and the quote. -/
def escapeMarks (dollars : Bool) (field : EscapedField) (escaped : Text) : Text :=
  let escaped := if dollars then replaceChar '$' ['\\', '$'] escaped else escaped
  let escaped := if field.escapesComma then replaceChar ',' ['\\', ','] escaped else escaped
  let escaped := if field.escapesPipe then replaceChar '|' ['\\', '|'] escaped else escaped
  match field with
  | .key _ _ => replaceChar '=' ['\\', '='] escaped
  | .value _ _ | .endpoint => escaped

theorem escapeMarks_of_notMem {dollars : Bool} {field : EscapedField} {x : Text} (hdollar : '$' ∉ x)
    (hcomma : ',' ∉ x) (hpipe : '|' ∉ x) (hequals : '=' ∉ x) : escapeMarks dollars field x = x := by
  simp only [escapeMarks, replaceChar_of_notMem hdollar, replaceChar_of_notMem hcomma,
    replaceChar_of_notMem hpipe, replaceChar_of_notMem hequals, ite_self]
  cases field <;> rfl

theorem notMem_wireQuote {c : Char} (hbackslash : c ≠ '\\') (hquote : c ≠ '\'') (expands : Bool)
    (count : Nat) :
    c ∉ wireQuote expands count := by
  rw [wireQuote, List.mem_append, List.mem_singleton, not_or]
  exact ⟨fun h => hbackslash (List.eq_of_mem_replicate h), hquote⟩

/-- A char other than a backslash or a quote is escaped at most once. -/
theorem escapeMarks_char {dollars : Bool} {field : EscapedField} {c : Char} (hbackslash : c ≠ '\\')
    (hquote : c ≠ '\'') {expands : Bool} {level : Nat} (hlevel : field.ownPasses ≤ level) :
    escapeMarks dollars field [c] = (field.charAtom c).wire expands dollars level := by
  have hatom : field.charAtom c = (field.level c).elim (.plain c) (.escaped c) := by
    rw [EscapedField.charAtom, if_neg hbackslash, if_neg hquote]
  have hescaped : ∀ last ∈ field.level c, Atom.wire expands dollars level
      (.escaped c last) = ['\\', c] :=
    fun last hlast => if_pos ((field.level_le c last hlast).trans hlevel)
  rw [hatom]
  by_cases hdollar : c = '$'
  · subst hdollar
    have hnone : field.level '$' = none := by cases field <;> simp [EscapedField.level]
    rw [hnone, Option.elim_none]
    cases field <;> cases dollars <;>
      simp [escapeMarks, replaceChar, EscapedField.escapesComma, EscapedField.escapesPipe,
        Atom.wire]
  by_cases hcomma : c = ','
  · subst hcomma
    cases hfield : field.level ',' with
    | some last =>
        rw [Option.elim_some, hescaped last hfield]
        cases field <;> simp_all [escapeMarks, replaceChar, EscapedField.level,
          EscapedField.escapesComma]
    | none =>
        rw [Option.elim_none]
        cases field <;> simp_all [escapeMarks, replaceChar, EscapedField.level,
          EscapedField.escapesComma, Atom.wire]
  by_cases hpipe : c = '|'
  · subst hpipe
    cases hfield : field.level '|' with
    | some last =>
        rw [Option.elim_some, hescaped last hfield]
        cases field <;> simp_all [escapeMarks, replaceChar, EscapedField.level,
          EscapedField.escapesPipe]
    | none =>
        rw [Option.elim_none]
        cases field <;> simp_all [escapeMarks, replaceChar, EscapedField.level,
          EscapedField.escapesPipe, Atom.wire]
  by_cases hequals : c = '='
  · subst hequals
    cases hfield : field.level '=' with
    | some last =>
        rw [Option.elim_some, hescaped last hfield]
        cases field <;> simp_all [escapeMarks, replaceChar, EscapedField.level]
    | none =>
        rw [Option.elim_none]
        cases field <;> simp_all [escapeMarks, replaceChar, EscapedField.level, Atom.wire]
  have hnone : field.level c = none := by
    cases field <;> simp [EscapedField.level, hcomma, hpipe, hequals]
  rw [hnone, Option.elim_none, escapeMarks_of_notMem (by simpa using Ne.symm hdollar)
    (by simpa using Ne.symm hcomma) (by simpa using Ne.symm hpipe) (by simpa using Ne.symm hequals)]
  simp [Atom.wire, hdollar]

/-- One char is escaped as its atom. -/
theorem escapeWith_char (dollars : Bool) (target : DialStringTarget)
    (field : EscapedField) (c : Char) :
    escapeWith dollars target field [c] =
      (field.charAtom c).wire target.carrier.expands dollars (passes target field) := by
  have hmarks : escapeWith dollars target field [c] = escapeMarks dollars field
      (replaceChar '\'' (quoteEscape target field)
        (replaceChar '\\' (backslashEscape target field) [c])) := rfl
  rw [hmarks]
  by_cases hbackslash : c = '\\'
  · have hnot : ∀ d, d ≠ '\\' → d ∉ backslashEscape target field := fun d hd h =>
      hd (List.eq_of_mem_replicate h)
    rw [hbackslash, replaceChar_self, replaceChar_of_notMem (hnot _ (by decide)),
      escapeMarks_of_notMem (hnot _ (by decide)) (hnot _ (by decide)) (hnot _ (by decide))
        (hnot _ (by decide))]
    rfl
  have hplain : '\\' ∉ [c] := by simpa using Ne.symm hbackslash
  rw [replaceChar_of_notMem hplain]
  by_cases hquote : c = '\''
  · rw [hquote, replaceChar_self, quoteEscape_eq, escapeMarks_of_notMem
      (notMem_wireQuote (by decide) (by decide) _ _) (notMem_wireQuote (by decide) (by decide) _ _)
      (notMem_wireQuote (by decide) (by decide) _ _) (notMem_wireQuote (by decide) (by decide) _ _)]
    rfl
  · have hplain' : '\'' ∉ [c] := by simpa using Ne.symm hquote
    rw [replaceChar_of_notMem hplain']
    refine escapeMarks_char hbackslash hquote ?_
    rw [passes_eq]
    exact Nat.le_add_left _ _

theorem escapeChars_wire (text : Text) (target : DialStringTarget) (field : EscapedField) :
    escapeChars text target field =
      wire target.carrier.expands (protectsDollars text target) (passes target field)
        (text.map field.charAtom) := by
  rw [escapeChars_eq]
  generalize protectsDollars text target = dollars
  induction text with
  | nil => 
      unfold escapeWith
      cases field <;> cases dollars <;> simp
  | cons c text ih =>
      rw [← List.singleton_append, escapeWith_append, ih, escapeWith_char]
      rfl

/-! ### Replacing a text -/

theorem replaceTextFrom_skip (needle replacement : Text) {skipped : Text} (rest : Text) :
    replaceTextFrom needle replacement skipped.length (skipped ++ rest) =
      replaceTextFrom needle replacement 0 rest := by
  induction skipped with
  | nil => rfl
  | cons c skipped ih => exact ih

/-- An occurrence is replaced and the scan goes on behind it. -/
theorem replaceText_occurrence {needle : Text} (hne : needle ≠ []) (replacement rest : Text) :
    replaceText needle replacement (needle ++ rest) =
      replacement ++ replaceText needle replacement rest := by
  obtain ⟨c, needle, rfl⟩ := List.exists_cons_of_ne_nil hne
  have hprefix : (c :: needle).isPrefixOf (c :: (needle ++ rest)) = true :=
    List.isPrefixOf_iff_prefix.mpr (List.prefix_append (c :: needle) rest)
  rw [replaceText, List.cons_append, replaceTextFrom, if_pos hprefix, List.length_cons,
    Nat.add_sub_cancel, replaceTextFrom_skip]
  rfl

/-- A text in which no occurrence starts stays. -/
theorem replaceText_clear {needle replacement x rest : Text}
    (h : ∀ tail, tail <:+ x → tail ≠ [] → ¬ needle <+: tail ++ rest) :
    replaceText needle replacement (x ++ rest) = x ++ replaceText needle replacement rest := by
  induction x with
  | nil => rfl
  | cons c x ih =>
      have hhead : ¬ needle.isPrefixOf (c :: (x ++ rest)) = true := fun hprefix =>
        h (c :: x) (List.suffix_refl _) (List.cons_ne_nil c x)
          (List.isPrefixOf_iff_prefix.mp hprefix)
      have htail := ih fun tail htail => h tail (htail.trans (List.suffix_cons c x))
      rw [replaceText] at htail ⊢
      rw [List.cons_append, replaceTextFrom, if_neg hhead, htail]
      rfl

/-- A run of backslashes and the char behind it, ahead of a text that starts like them. -/
theorem run_prefix {c d : Char} (hc : c ≠ '\\') (hd : d ≠ '\\') {count run : Nat} {rest : Text}
    (h : backslashes count ++ [d] <+: backslashes run ++ c :: rest) : run = count ∧ d = c := by
  induction count generalizing run with
  | zero =>
      cases run with
      | zero => exact ⟨rfl, (List.cons_prefix_cons.mp h).1⟩
      | succ run => exact absurd (List.cons_prefix_cons.mp h).1 hd
  | succ count ih =>
      cases run with
      | zero => exact absurd (List.cons_prefix_cons.mp h).1.symm hc
      | succ run => exact (ih (List.cons_prefix_cons.mp h).2).imp_left (congrArg (· + 1))

/-- A longer run hides what is behind it. -/
theorem longer_run {d : Char} (hd : d ≠ '\\') {count run : Nat} (hlt : count < run) {rest : Text} :
    ¬ backslashes count ++ [d] <+: backslashes run ++ rest := by
  intro h
  obtain ⟨more, rfl⟩ := Nat.exists_eq_add_of_lt hlt
  rw [backslashes, backslashes, Nat.add_assoc, List.replicate_add, List.append_assoc,
    List.prefix_append_right_inj] at h
  exact hd (List.cons_prefix_cons.mp h).1

theorem run_suffix {c : Char} {run : Nat} {tail : Text} (h : tail <:+ backslashes run ++ [c])
    (hne : tail ≠ []) : ∃ left ≤ run, tail = backslashes left ++ [c] := by
  induction run with
  | zero =>
      rcases List.suffix_cons_iff.mp h with rfl | h
      · exact ⟨0, Nat.le_refl 0, rfl⟩
      · exact absurd (List.suffix_nil.mp h) hne
  | succ run ih =>
      rcases List.suffix_cons_iff.mp h with rfl | h
      · exact ⟨run + 1, Nat.le_refl _, rfl⟩
      · obtain ⟨left, hleft, htail⟩ := ih h
        exact ⟨left, Nat.le_succ_of_le hleft, htail⟩

/-! ### Guards and edges -/

/-- The atom is not empty at a level and holds no space but the one it stands for. -/
def Atom.Solid (level : Nat) : Atom → Prop
  | .guarding last => last ≤ level
  | .escaped c _ => c ≠ ' '
  | _ => True

theorem wireQuote_ne_nil (expands : Bool) (count : Nat) : wireQuote expands count ≠ [] := by
  simp [wireQuote]

theorem space_notMem_wireQuote (expands : Bool) (count : Nat) : ' ' ∉ wireQuote expands count :=
  notMem_wireQuote (by decide) (by decide) expands count

theorem space_notMem_backslashes (count : Nat) : ' ' ∉ backslashes count := fun h =>
  absurd (List.eq_of_mem_replicate h) (by decide)

/-- A space is spelled bare by a plain space alone. -/
theorem Atom.space_mem_wire {expands dollars : Bool} {level : Nat} {atom : Atom}
    (hsolid : atom.Solid (level + 1)) :
    ' ' ∈ atom.wire expands dollars (level + 1) ↔ atom = .plain ' ' := by
  have hquote := space_notMem_wireQuote expands
  have hrun := space_notMem_backslashes
  cases atom with
  | plain c =>
      by_cases hdollar : dollars = true ∧ c = '$'
      · simp [Atom.wire, hdollar]
      · simp [Atom.wire, hdollar, eq_comm]
  | escaped c last =>
      have hc : ' ' ≠ c := Ne.symm hsolid
      simp only [Atom.wire, Atom.text, reduceCtorEq, iff_false]
      split_ifs <;> simp [hc]
  | backslash => simp [Atom.wire, Atom.text, hrun]
  | quote => simp [Atom.wire, hquote]
  | space => simp [Atom.wire, Atom.text, hrun]
  | guarding last =>
      have hle : last ≤ level + 1 := hsolid
      rw [Atom.wire, if_pos hle]
      simp [hquote]

theorem Atom.wire_ne_nil {expands dollars : Bool} {level : Nat} {atom : Atom}
    (hsolid : atom.Solid (level + 1)) :
    atom.wire expands dollars (level + 1) ≠ [] := by
  have hrun : ∀ count, backslashes (2 ^ count) ≠ [] := by simp [backslashes]
  cases atom with
  | plain c =>
      rw [Atom.wire]
      split_ifs <;> simp
  | escaped c last =>
      simp only [Atom.wire, Atom.text]
      split_ifs <;> simp
  | backslash => exact hrun _
  | quote => exact wireQuote_ne_nil _ _
  | space => simp [Atom.wire, Atom.text]
  | guarding last =>
      have hle : last ≤ level + 1 := hsolid
      rw [Atom.wire, if_pos hle]
      simp [wireQuote_ne_nil]

theorem wire_plain_space (expands dollars : Bool) (level : Nat) :
    Atom.wire expands dollars level (.plain ' ') = [' '] := by
  simp [Atom.wire]

variable {expands dollars : Bool} {level : Nat}

theorem head_wire {atom : Atom} {atoms : List Atom} (hsolid : atom.Solid (level + 1)) :
    (wire expands dollars (level + 1) (atom :: atoms)).head? = some ' ' ↔ atom = .plain ' ' := by
  rw [wire_cons, List.head?_append_of_ne_nil _ (Atom.wire_ne_nil hsolid)]
  constructor
  · intro h
    exact (Atom.space_mem_wire hsolid).mp (List.mem_of_mem_head? h)
  · rintro rfl
    rw [wire_plain_space]
    rfl

theorem last_wire {atom : Atom} {atoms : List Atom} (hsolid : atom.Solid (level + 1)) :
    (wire expands dollars (level + 1) (atoms ++ [atom])).getLast? = some ' ' ↔
    atom = .plain ' ' := by
  have hlast : wire expands dollars (level + 1) [atom] = atom.wire expands dollars (level + 1) :=
    List.append_nil _
  rw [wire_append, hlast, List.getLast?_append_of_ne_nil _ (Atom.wire_ne_nil hsolid)]
  constructor
  · intro h
    exact (Atom.space_mem_wire hsolid).mp (List.mem_of_getLast? h)
  · rintro rfl
    rw [wire_plain_space]
    rfl

theorem space_mem_wire {atoms : List Atom} (hsolid : ∀ atom ∈ atoms, atom.Solid (level + 1)) :
    ' ' ∈ wire expands dollars (level + 1) atoms ↔ spaced atoms = true := by
  rw [wire, List.mem_flatMap, spaced, List.contains_iff_mem]
  constructor
  · rintro ⟨atom, hatom, hspace⟩
    obtain rfl := (Atom.space_mem_wire (hsolid atom hatom)).mp hspace
    exact hatom
  · intro hatom
    exact ⟨_, hatom, (Atom.space_mem_wire (hsolid _ hatom)).mpr rfl⟩

/-- The escape of a text's first char, where it is a space. -/
def escapeFirst (space x : Text) : Text := if x.head? = some ' ' then space ++ x.tail else x

theorem escapeEdges_eq (space x : Text) :
    escapeEdges space x =
      if (escapeFirst space x).getLast? = some ' ' then (escapeFirst space x).dropLast ++ space
      else escapeFirst space x := by
  cases x with
  | nil => rfl
  | cons c rest =>
      by_cases hc : c = ' '
      · subst hc
        rfl
      · have hfirst : escapeFirst space (c :: rest) = c :: rest :=
          if_neg fun h => hc (Option.some.inj h)
        rw [hfirst, escapeEdges]
        exact fun later h => hc (List.cons.inj h).1

theorem edgeHead_of_ne {atom : Atom} (h : atom ≠ .plain ' ') (rest : List Atom) :
    edgeHead (atom :: rest) = atom :: rest := by
  cases atom with
  | plain c => exact if_neg fun hc => h (congrArg Atom.plain hc)
  | escaped | backslash | quote | space | guarding => rfl

theorem escapeFirst_wire {atoms : List Atom} (hsolid : ∀ atom ∈ atoms, atom.Solid (level + 1)) :
    escapeFirst (Atom.wire expands dollars (level + 1) .space)
      (wire expands dollars (level + 1) atoms) =
      wire expands dollars (level + 1) (edgeHead atoms) := by
  cases atoms with
  | nil => rfl
  | cons atom rest =>
      have hhead : (wire expands dollars (level + 1) (atom :: rest)).head? = some ' ' ↔
          atom = .plain ' ' :=
        head_wire (hsolid atom List.mem_cons_self)
      by_cases hatom : atom = .plain ' '
      · rw [escapeFirst, if_pos (hhead.mpr hatom), hatom, wire_cons, wire_plain_space]
        rfl
      · rw [escapeFirst, if_neg (hhead.not.mpr hatom), edgeHead_of_ne hatom]

/-- The edges of a field are escaped as its first and last atoms. -/
theorem escapeEdges_wire {atoms : List Atom} (hsolid : ∀ atom ∈ atoms, atom.Solid (level + 1)) :
    escapeEdges (Atom.wire expands dollars (level + 1) .space)
      (wire expands dollars (level + 1) atoms) =
      wire expands dollars (level + 1) (edgeLast (edgeHead atoms)) := by
  have hedge : ∀ atom ∈ edgeHead atoms, atom.Solid (level + 1) := by
    intro atom hatom
    rcases mem_edgeHead hatom with hatom | rfl
    · exact hsolid atom hatom
    · trivial
  rw [escapeEdges_eq, escapeFirst_wire hsolid]
  rcases List.eq_nil_or_concat (edgeHead atoms) with hnil | ⟨init, last, hconcat⟩
  · rw [hnil]
    rfl
  · rw [List.concat_eq_append] at hconcat
    rw [hconcat] at hedge ⊢
    have hlast : (wire expands dollars (level + 1) (init ++ [last])).getLast? = some ' ' ↔
        last = .plain ' ' :=
      last_wire (hedge last (by simp))
    rw [edgeLast, List.getLast?_concat]
    by_cases hplain : last = .plain ' '
    · have hwire : wire expands dollars (level + 1) [.plain ' '] = [' '] := by
        rw [wire_cons, wire_plain_space]
        rfl
      rw [if_pos (hlast.mpr hplain), if_pos (congrArg some hplain), hplain, wire_append, hwire,
        List.dropLast_concat, List.dropLast_concat, wire_append]
      exact congrArg _ (List.append_nil _).symm
    · rw [if_neg (hlast.not.mpr hplain), if_neg fun h => hplain (Option.some.inj h)]

theorem EscapedField.ownPasses_pos (field : EscapedField) : 0 < field.ownPasses := by
  cases field <;> simp only [EscapedField.ownPasses, legSplitPassCount] <;> omega

/-- An atom that a field read by `own` of the dial string's passes may hold. -/
def Atom.Rendered (own : Nat) : Atom → Prop
  | .plain c => c ≠ '\\' ∧ c ≠ '\'' ∧ c ≠ '\x00'
  | .escaped c last => last ≤ own ∧ (c = ',' ∨ c = '|' ∨ c = '=')
  | .guarding last => last ≤ own
  | .backslash | .quote | .space => True

theorem Atom.Rendered.solid {own level : Nat} {atom : Atom} (h : atom.Rendered own)
    (hle : own ≤ level) :
    atom.Solid level := by
  cases atom with
  | escaped c last =>
      show c ≠ ' '
      rcases h.2 with rfl | rfl | rfl <;> decide
  | guarding last => exact Nat.le_trans h hle
  | _ => trivial

theorem meansEscaped_mark {c : Char} (h : c = ',' ∨ c = '|' ∨ c = '=') :
    meansEscaped c = false := by
  rcases h with rfl | rfl | rfl <;> decide

/-- The argument's pass, ahead of the dial string's own, reads every atom as meant. -/
theorem Atom.Rendered.fits_none {own : Nat} {atom : Atom} (h : atom.Rendered own) :
    atom.Fits none (own + 1) := by
  cases atom with
  | plain c => exact h
  | escaped c last =>
      refine ⟨meansEscaped_mark h.2, iff_of_false (by simp) ?_⟩
      have := h.1
      omega
  | _ => trivial

theorem Atom.Rendered.unguarded {own : Nat} {atom : Atom} (h : atom.Rendered own) :
    atom.Unguarded (own + 1) := by
  cases atom with
  | guarding last => exact Nat.ne_of_lt (Nat.lt_succ_of_le h)
  | _ => trivial

theorem EscapedField.level_some {field : EscapedField} {c : Char} {last : Nat}
    (h : field.level c = some last) :
    c = ',' ∨ c = '|' ∨ c = '=' := by
  cases field <;> simp only [EscapedField.level] at h <;> split_ifs at h <;> simp_all

theorem EscapedField.rendered_charAtom (field : EscapedField) {c : Char} (hc : c ≠ '\x00') :
    (field.charAtom c).Rendered field.ownPasses := by
  unfold EscapedField.charAtom
  split_ifs with hbackslash hquote
  · trivial
  · trivial
  · cases hlevel : field.level c with
    | none => exact ⟨hbackslash, hquote, hc⟩
    | some last => exact ⟨field.level_le c last hlevel, EscapedField.level_some hlevel⟩

/-- Only a field of a `[]` block is guarded, and the guard is read by the third of its passes. -/
theorem EscapedField.mem_guardAtoms' {field : EscapedField} {text : Text}
    {atoms : List Atom} {atom : Atom}
    (h : atom ∈ field.guardAtoms text atoms) : atom ∈ atoms ∨ atom = .guarding 3 ∧
    3 ≤ field.ownPasses := by
  by_cases hown : 3 ≤ field.ownPasses
  · exact (EscapedField.mem_guardAtoms h).imp_right fun h => ⟨h, hown⟩
  · unfold EscapedField.guardAtoms at h
    split at h <;> first | exact .inl h | exact absurd (show 3 ≤ 4 by decide) hown

/-- What the atoms of a field are. -/
theorem EscapedField.rendered_atoms {field : EscapedField} {text : Text}
    (hfree : '\x00' ∉ text) {atom : Atom}
    (h : atom ∈ field.atoms text) : atom.Rendered field.ownPasses := by
  rcases List.mem_append.mp h with h | h
  · unfold EscapedField.caretAtoms at h
    split at h
    · split_ifs at h
      · obtain rfl := List.mem_singleton.mp h
        exact EscapedField.ownPasses_pos _
      · cases h
    all_goals cases h
  · rcases mem_edgeLast h with h | rfl
    · rcases mem_edgeHead h with h | rfl
      · rcases EscapedField.mem_guardAtoms' h with h | ⟨rfl, hown⟩
        · obtain ⟨c, hc, rfl⟩ := List.mem_map.mp h
          exact field.rendered_charAtom fun hnul => hfree (hnul ▸ hc)
        · exact hown
      · trivial
    · trivial

/-- Every guard is read by one of the dial string's own passes. -/
theorem EscapedField.solid_guardAtoms {field : EscapedField} {text : Text} {atom : Atom}
    (h : atom ∈ field.guardAtoms text (text.map field.charAtom)) {level : Nat}
    (hlevel : field.ownPasses ≤ level) :
    atom.Solid level := by
  rcases EscapedField.mem_guardAtoms' h with h | ⟨rfl, hown⟩
  · obtain ⟨c, -, rfl⟩ := List.mem_map.mp h
    by_cases hc : c = '\x00'
    · subst hc
      cases field <;> trivial
    · exact (field.rendered_charAtom hc).solid hlevel
  · exact hown.trans hlevel

/-- An atom of a field that escapes no comma. -/
def Atom.Marked : Atom → Prop
  | .plain c => c ≠ '\\'
  | .escaped c _ => c ≠ ',' ∧ c ≠ '\\'
  | .backslash | .quote => True
  | .space | .guarding _ => False

/-- Every atom but a backslash ends its run of backslashes, and only a plain comma ends one with a
comma. -/
theorem Atom.Marked.wire_run {atom : Atom} (h : atom.Marked) (expands dollars : Bool) (level : Nat)
    (hne : atom ≠ .backslash) :
    ∃ run c, atom.wire expands dollars level = backslashes run ++ [c] ∧ c ≠ '\\' ∧
      (c = ',' → run = 0 ∧ atom = .plain ',') := by
  cases atom with
  | plain c =>
      by_cases hdollar : dollars = true ∧ c = '$'
      · refine ⟨1, '$', by rw [Atom.wire, if_pos hdollar]; rfl, by decide, ?_⟩
        exact fun h => absurd h (by decide)
      · refine ⟨0, c, by rw [Atom.wire, if_neg hdollar]; rfl, h, ?_⟩
        rintro rfl
        exact ⟨rfl, rfl⟩
  | escaped c last =>
      by_cases hle : last ≤ level
      · refine ⟨1, c, ?_, h.2, fun hc => absurd hc h.1⟩
        rw [Atom.wire, Atom.text, if_pos hle]
        rfl
      · refine ⟨0, c, ?_, h.2, fun hc => absurd hc h.1⟩
        rw [Atom.wire, Atom.text, if_neg hle]
        rfl
  | backslash => exact absurd rfl hne
  | quote => exact ⟨_, '\'', rfl, by decide, fun h => absurd h (by decide)⟩
  | space | guarding => exact h.elim

/-- The wire of a backslash and the comma behind it occur where the atoms do. -/
theorem notPrefix_wire {atoms : List Atom} (hatoms : ∀ atom ∈ atoms, atom.Marked) {run : Nat}
    (hpos : 0 < run)
    (hhead : run = 2 ^ level → atoms.head? ≠ some (.plain ',')) :
    ¬ backslashes (2 ^ level) ++ [','] <+: backslashes run ++ wire expands dollars level atoms := by
  intro hprefix
  cases atoms with
  | nil =>
      have hmem : ',' ∈ backslashes run ++ wire expands dollars level [] :=
        hprefix.subset (List.mem_append_right _ List.mem_cons_self)
      rw [wire_nil, List.append_nil] at hmem
      exact absurd (List.eq_of_mem_replicate hmem) (by decide)
  | cons atom rest =>
      by_cases hbackslash : atom = .backslash
      · have hrun : backslashes run ++ wire expands dollars level (atom :: rest) =
            backslashes (run + 2 ^ level) ++ wire expands dollars level rest := by
          rw [hbackslash, wire_cons, ← List.append_assoc, backslashes, backslashes,
            List.replicate_add]
          rfl
        rw [hrun] at hprefix
        exact longer_run (by decide) (by omega) hprefix
      · obtain ⟨run', c, hwire, hc, hcomma⟩ :=
          (hatoms atom List.mem_cons_self).wire_run expands dollars level hbackslash
        have hrun : backslashes run ++ wire expands dollars level (atom :: rest) =
            backslashes (run + run') ++ c :: wire expands dollars level rest := by
          rw [wire_cons, hwire, backslashes, backslashes, backslashes, List.replicate_add]
          simp only [List.append_assoc, List.singleton_append]
        rw [hrun] at hprefix
        obtain ⟨hcount, rfl⟩ := run_prefix hc (by decide) hprefix
        obtain ⟨rfl, rfl⟩ := hcomma rfl
        exact hhead hcount rfl

/-- Where no backslash stands ahead of a comma, an atom stays. -/
theorem replaceText_atom {replacement : Text} {atom : Atom} {rest : List Atom}
    (hatoms : ∀ other ∈ atom :: rest, other.Marked)
    (hcut : ¬ (atom = .backslash ∧ rest.head? = some (.plain ','))) :
    replaceText (backslashes (2 ^ level) ++ [',']) replacement
        (wire expands dollars level (atom :: rest)) =
      atom.wire expands dollars level ++
        replaceText (backslashes (2 ^ level) ++ [',']) replacement
          (wire expands dollars level rest) := by
  obtain ⟨hatom, hrest⟩ := List.forall_mem_cons.mp hatoms
  rw [wire_cons]
  refine replaceText_clear fun tail htail hne => ?_
  by_cases hbackslash : atom = .backslash
  · subst hbackslash
    have hrun : tail = backslashes tail.length :=
      List.eq_replicate_iff.mpr ⟨rfl, fun c hc => List.eq_of_mem_replicate (htail.subset hc)⟩
    rw [hrun]
    exact notPrefix_wire hrest (List.length_pos_iff.mpr hne) fun _ hcomma => hcut ⟨rfl, hcomma⟩
  · obtain ⟨run, c, hwire, hc, hcomma⟩ :=
      hatom.wire_run expands dollars level hbackslash
    rw [hwire] at htail
    obtain ⟨left, hleft, rfl⟩ := run_suffix htail hne
    intro hprefix
    rw [List.append_assoc, List.singleton_append] at hprefix
    obtain ⟨hcount, rfl⟩ := run_prefix hc (by decide) hprefix
    obtain ⟨rfl, -⟩ := hcomma rfl
    have hpow : 1 ≤ 2 ^ level := Nat.one_le_two_pow
    omega

/-- **The guard goes between a backslash and the comma behind it.** -/
theorem replaceText_wire {atoms : List Atom} (hatoms : ∀ atom ∈ atoms, atom.Marked) :
    replaceText (backslashes (2 ^ level) ++ [','])
        (backslashes (2 ^ level) ++ Atom.wire expands dollars level (.guarding 3) ++ [','])
        (wire expands dollars level atoms) =
      wire expands dollars level (guardCommas atoms) := by
  induction atoms with
  | nil => rfl
  | cons atom rest ih =>
      have hlater := ih (List.forall_mem_cons.mp hatoms).2
      unfold guardCommas
      split_ifs with hcut
      · obtain ⟨rfl, hcomma⟩ := hcut
        obtain ⟨behind, rfl⟩ : ∃ behind, rest = .plain ',' :: behind := by
          cases rest with
          | nil => cases hcomma
          | cons next behind => exact ⟨behind, by rw [Option.some.inj hcomma]⟩
        have hbare : Atom.wire expands dollars level (.plain ',') = [','] := by simp [Atom.wire]
        have hwhole : wire expands dollars level (.backslash :: .plain ',' :: behind) =
            (backslashes (2 ^ level) ++ [',']) ++ wire expands dollars level behind := by
          rw [wire_cons, wire_cons, hbare, List.append_assoc]
          rfl
        have hskip : replaceText (backslashes (2 ^ level) ++ [','])
            (backslashes (2 ^ level) ++ Atom.wire expands dollars level (.guarding 3) ++ [','])
            (wire expands dollars level (.plain ',' :: behind)) = _ :=
          replaceText_atom (List.forall_mem_cons.mp hatoms).2 fun h => by cases h.1
        rw [hbare, hlater] at hskip
        rw [hwhole, replaceText_occurrence (by simp), wire_cons, wire_cons, hskip]
        simp [Atom.wire, Atom.text]
      · rw [replaceText_atom hatoms hcut, hlater, wire_cons]

theorem EscapedField.marked_charAtom {field : EscapedField} (hfield : field.escapesComma = false)
    (c : Char) : (field.charAtom c).Marked := by
  unfold EscapedField.charAtom
  split_ifs with hbackslash hquote
  · trivial
  · trivial
  · cases hlevel : field.level c with
    | none => exact hbackslash
    | some last =>
        refine ⟨?_, hbackslash⟩
        rintro rfl
        cases field <;> simp_all [EscapedField.level, EscapedField.escapesComma]

/-- The guard of a `[]` field's commas, at any carrier. -/
theorem channelCommaGuard_wire (dollars : Bool) (target : DialStringTarget) {field : EscapedField}
    (hown : field.ownPasses = 4) :
    channelCommaGuard target = Atom.wire target.carrier.expands dollars (passes target field)
      (.guarding 3) := by
  have hle : 3 ≤ target.argumentPasses + 4 := by omega
  have hsub : target.argumentPasses + 4 - 3 = target.argumentPasses + 1 := by omega
  rw [passes_eq, hown, Atom.wire, if_pos hle, hsub]
  rfl

theorem guardField_wire (field : EscapedField) (text : Text) (target : DialStringTarget) :
    guardField text (wire target.carrier.expands dollars (passes target field)
      (text.map field.charAtom)) target field =
        wire target.carrier.expands dollars (passes target field)
          (field.guardAtoms text (text.map field.charAtom)) := by
  have hunseparated : ∀ separatorFollows : Bool, field.ownPasses = 4 →
      field.escapesComma = false →
      guardChannelCommas (wire target.carrier.expands dollars (passes target field)
        (text.map field.charAtom)) separatorFollows target false =
          wire target.carrier.expands dollars (passes target field)
            (guardCommas (text.map field.charAtom)) := by
    intro separatorFollows hown hcommas
    have hpasses : passes target (.value .channel false) = passes target field := by
      rw [passes_eq, passes_eq, hown]
      rfl
    rw [← replaceText_wire (List.forall_mem_map.mpr fun c _ => field.marked_charAtom hcommas c),
      ← channelCommaGuard_wire dollars target hown, ← hpasses]
    rfl
  rcases field with ⟨scope, commas⟩ | _ | ⟨scope, commas⟩
  · cases scope with
    | enterprise => rfl
    | default => rfl
    | channel =>
        cases commas with
        | false => exact hunseparated false rfl rfl
        | true =>
            have hguard : channelCommaGuard target = wire target.carrier.expands dollars
                (passes target (.value .channel true)) [.guarding 3] := by
              rw [wire_cons, wire_nil, List.append_nil]
              exact channelCommaGuard_wire dollars target rfl
            by_cases hlast : text.getLast? = some '\\'
            · simp only [guardField, guardChannelCommas, EscapedField.guardAtoms, hlast,
                decide_true, Bool.true_and, if_true, Bool.true_eq_false, if_false, hguard,
                wire_append]
            · simp only [guardField, guardChannelCommas, EscapedField.guardAtoms, hlast,
                decide_false, Bool.and_false, Bool.true_eq_false, Bool.false_eq_true, if_false]
  · rfl
  · cases scope with
    | enterprise => rfl
    | default => rfl
    | channel =>
        cases commas with
        | false => exact hunseparated false rfl rfl
        | true => rfl

theorem caretGuard_wire (dollars : Bool) (field : EscapedField) (target : DialStringTarget) :
    caretGuard target field = wire target.carrier.expands dollars (passes target field)
      [.guarding 1] := by
  have hpos := field.ownPasses_pos
  have hle : 1 ≤ passes target field := by
    rw [passes_eq]
    omega
  rw [wire_cons, Atom.wire, if_pos hle, wire_nil, List.append_nil]
  rfl

theorem spaceEscape_wire (dollars : Bool) (field : EscapedField) (target : DialStringTarget) :
    spaceEscape target field = Atom.wire target.carrier.expands dollars
      (passes target field) .space := by
  have hpos := field.ownPasses_pos
  obtain ⟨level, hlevel⟩ : ∃ level, passes target field = level + 1 :=
    ⟨passes target field - 1, by rw [passes_eq]; omega⟩
  rw [spaceEscape, hlevel]
  rfl

theorem EscapedField.solid_atoms {field : EscapedField} {text : Text} {atom : Atom}
    (h : atom ∈ field.atoms text)
    {level : Nat} (hlevel : field.ownPasses ≤ level) : atom.Solid level := by
  have hpos := field.ownPasses_pos
  rcases List.mem_append.mp h with h | h
  · unfold EscapedField.caretAtoms at h
    split at h
    · split_ifs at h
      · obtain rfl := List.mem_singleton.mp h
        show 1 ≤ level
        omega
      · cases h
    all_goals cases h
  · rcases mem_edgeLast h with h | rfl
    · rcases mem_edgeHead h with h | rfl
      · exact EscapedField.solid_guardAtoms h hlevel
      · trivial
    · trivial

/-- A field behind a dollar's guard, and between quotes when it holds a space. -/
def closeText (dollars : Bool) (escaped : Text) : Text :=
  let guarded := if dollars then '\\' :: '\'' :: escaped else escaped
  if ' ' ∈ guarded then '\'' :: guarded ++ ['\''] else guarded

/-- The steps of `escapeText`. -/
theorem escapeText_close (text : Text) (target : DialStringTarget) (field : EscapedField) :
    escapeText text target field =
      closeText (protectsDollars text target)
        (wire target.carrier.expands (protectsDollars text target) (passes target field)
          (field.caretAtoms text) ++
          escapeEdges (spaceEscape target field)
            (guardField text (escapeChars text target field) target field)) := by
  rcases field with ⟨scope, commas⟩ | _ | ⟨scope, commas⟩
  · rfl
  · rfl
  · simp only [escapeText, EscapedField.caretAtoms]
    by_cases hcaret : ['^', '^'].isPrefixOf text = true
    · rw [if_pos hcaret, if_pos hcaret, caretGuard_wire (protectsDollars text target)]
      rfl
    · rw [if_neg hcaret, if_neg hcaret]
      rfl

theorem closeText_eq (dollars : Bool) (escaped : Text) :
    closeText dollars escaped =
      if ' ' ∈ escaped then quoted (dollarGuard dollars ++ escaped)
        else dollarGuard dollars ++ escaped := by
  cases dollars <;> simp [closeText, quoted, dollarGuard]

/-- **What `escapeText` writes, atom by atom.** -/
theorem escapeText_eq (field : EscapedField) (text : Text) (target : DialStringTarget) :
    escapeText text target field =
      wireText target.carrier.expands (protectsDollars text target) (passes target field)
        (field.atoms text) := by
  have hown : field.ownPasses ≤ passes target field := by
    rw [passes_eq]
    omega
  obtain ⟨level, hlevel⟩ : ∃ level, passes target field = level + 1 := by
    have hpos := field.ownPasses_pos
    exact ⟨passes target field - 1, by omega⟩
  have hsolid : ∀ atom ∈ field.guardAtoms text (text.map field.charAtom), atom.Solid (level + 1) :=
    fun atom h => EscapedField.solid_guardAtoms h (hlevel ▸ hown)
  have hspaced : ' ' ∈ wire target.carrier.expands (protectsDollars text target)
      (passes target field)
      (field.atoms text) ↔ spaced (field.atoms text) = true := by
    rw [hlevel]
    exact space_mem_wire fun atom h => EscapedField.solid_atoms h (hlevel ▸ hown)
  have hatoms : wire target.carrier.expands (protectsDollars text target) (passes target field)
      (field.caretAtoms text) ++
        escapeEdges (spaceEscape target field)
        (guardField text (escapeChars text target field) target field) =
      wire target.carrier.expands (protectsDollars text target) (passes target field)
      (field.atoms text) := by
    rw [EscapedField.atoms, wire_append, escapeChars_wire, guardField_wire,
      spaceEscape_wire (protectsDollars text target), hlevel, escapeEdges_wire hsolid]
  rw [escapeText_close, hatoms, closeText_eq, wireText]
  simp only [hspaced]

end SwitchPasses
end EslTokio
