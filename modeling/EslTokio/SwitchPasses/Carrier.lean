import EslTokio.SwitchPasses.EscapedText
import EslTokio.SwitchPasses.PureSplit
import Mathlib.Data.List.Chain

/-!
# The dialplan carrier's pass

Dialplan expansion reads a dial string before any split does. On a text that names no variable it
takes one level of the escapes off, as every later pass does.

* `Expands` — what expansion makes of a text that holds no reference but, maybe, at its end.
* **`expandEscapes_expands`** — the loop of the switch makes that of it, and keeps its order.
* `Expands.wireText` — a rendered field loses one level of its escapes.
-/

namespace EslTokio
namespace SwitchPasses

open Library

/-- A text does not go on with a dollar or a brace, which a dollar ahead of it would read. -/
def EndsDollar (x : Text) : Prop := x.head? ≠ some '$' ∧ x.head? ≠ some '{'

/-- Expansion of a text that holds no reference but, maybe, at its end; `dollars` allows an escaped
dollar. -/
inductive Expands (dollars : Bool) : Text → Text → Prop
  | nil : Expands dollars [] []
  /-- A reference is copied for the switch to substitute. -/
  | reference {body : Text} (hwhole : body.length ≤ referenceLength true 1 body) :
      Expands dollars ('$' :: '{' :: body) ('$' :: '{' :: body)
  | plain {c : Char} {x y : Text} (hbackslash : c ≠ '\\') (hdollar : c ≠ '$')
    (h : Expands dollars x y) :
      Expands dollars (c :: x) (c :: y)
  | dollar {x y : Text} (hends : EndsDollar x) (h : Expands dollars x y) :
      Expands dollars ('$' :: x) ('$' :: y)
  | backslash {x y : Text} (h : Expands dollars x y) :
    Expands dollars ('\\' :: '\\' :: x) ('\\' :: y)
  | quote {x y : Text} (h : Expands dollars x y) : Expands dollars ('\\' :: '\'' :: x) y
  | kept {c : Char} {x y : Text} (hbackslash : c ≠ '\\') (hquote : c ≠ '\'') (hdollar : c ≠ '$')
      (h : Expands dollars x y) : Expands dollars ('\\' :: c :: x) ('\\' :: c :: y)
  | escapedDollar {x y : Text} (hallowed : dollars = true) (hends : x.head? ≠ some '$')
      (h : Expands dollars x y) : Expands dollars ('\\' :: '$' :: x) ('$' :: y)

/-! ### The loop of the switch -/

theorem chars_eq_cons_cons {cells : List Traced} {c d : Char} {x : Text}
    (h : chars cells = c :: d :: x) :
    ∃ cell next rest, cells = cell :: next :: rest ∧ cell.char = c ∧ next.char = d ∧
      chars rest = x := by
  obtain ⟨cell, tail, rfl, hcell, htail⟩ := List.map_eq_cons_iff.mp h
  obtain ⟨next, rest, rfl, hnext, hrest⟩ := List.map_eq_cons_iff.mp htail
  exact ⟨cell, next, rest, rfl, hcell, hnext, hrest⟩

/-- An entry that opens no escape and no reference is copied. -/
theorem expandFrom_copy (written : Nat) {cell : Traced} {rest : List Traced}
    (hbackslash : cell.char ≠ '\\') (hdollar : cell.char = '$' → EndsDollar (chars rest)) :
    (expandFrom 0 written (cell :: rest)).1 = cell :: (expandFrom 0 (written + 1) rest).1 := by
  cases rest with
  | nil =>
      rw [expandFrom.eq_def]
      rfl
  | cons next rest =>
      have hends : cell.char = '$' → next.char ≠ '$' ∧ next.char ≠ '{' := fun h => by
        simpa [EndsDollar] using hdollar h
      rw [expandFrom.eq_def]
      have hnoRef : ¬(cell.char = '$' ∧ next.char = '{') := fun h => (hends h.1).2 h.2
      have hnoPair : ¬(cell.char = '$' ∧ next.char = '$') := fun h => (hends h.1).1 h.2
      simp [hbackslash, hnoRef, hnoPair]

/-- What is left to be copied of a reference is copied. -/
theorem expandFrom_copies (copies written : Nat) (cells : List Traced) (h : cells.length ≤ copies) :
    (expandFrom copies written cells).1 = cells := by
  induction cells generalizing copies written with
  | nil =>
      rw [expandFrom.eq_def]
  | cons cell cells ih =>
      obtain ⟨copies, rfl⟩ := Nat.exists_eq_succ_of_ne_zero
        (Nat.pos_iff_ne_zero.mp (Nat.lt_of_lt_of_le (by simp) h))
      rw [expandFrom.eq_def]
      exact congrArg (cell :: ·) (ih copies (written + 1) (Nat.le_of_succ_le_succ h))

/-- Expansion reads a text as `Expands` says. -/
theorem Expands.expandFrom {dollars : Bool} {x y : Text} (h : Expands dollars x y) :
    ∀ (written : Nat) (cells : List Traced), chars cells = x →
      chars (SwitchPasses.expandFrom 0 written cells).1 = y := by
  induction h with
  | nil =>
      rintro written cells hcells
      obtain rfl := List.map_eq_nil_iff.mp hcells
      rfl
  | @reference body hwhole =>
      rintro written cells hcells
      obtain ⟨cell, next, rest, rfl, hcell, hnext, hrest⟩ := chars_eq_cons_cons hcells
      have hlength : rest.length = body.length := by rw [← hrest, length_chars]
      have hdrop : body.drop (referenceLength true 1 body) = [] := List.drop_eq_nil_of_le hwhole
      have hcopies : referenceCopies 1 body = referenceLength true 1 body + 2 := by
        rw [referenceCopies, hdrop]
        show 1 + 1 + referenceLength true 1 body = _
        omega
      have hlater : (next :: rest).length ≤ referenceCopies 1 body - 1 := by
        rw [List.length_cons, hlength, hcopies]
        omega
      have hcopy : (SwitchPasses.expandFrom 0 written (cell :: next :: rest)).1 = cell :: next ::
          rest := by
        rw [expandFrom.eq_def]
        simp [hcell, hnext, hrest, expandFrom_copies _ _ _ hlater]
      rw [hcopy, hcells]
  | @plain c x y hbackslash hdollar h ih =>
      rintro written cells hcells
      obtain ⟨cell, rest, rfl, rfl, hrest⟩ := List.map_eq_cons_iff.mp hcells
      rw [expandFrom_copy written hbackslash fun h => absurd h hdollar, chars_cons, ih _ rest hrest]
  | @dollar x y hends h ih =>
      rintro written cells hcells
      obtain ⟨cell, rest, rfl, hcell, hrest⟩ := List.map_eq_cons_iff.mp hcells
      have hbackslash : cell.char ≠ '\\' := by
        rw [hcell]
        decide
      have hlater : EndsDollar (chars rest) := by rwa [show chars rest = x from hrest]
      rw [expandFrom_copy written hbackslash fun _ => hlater, chars_cons, ih _ rest hrest, hcell]
  | @backslash x y h ih =>
      rintro written cells hcells
      obtain ⟨cell, next, rest, rfl, hcell, hnext, hrest⟩ := chars_eq_cons_cons hcells
      rw [expandFrom.eq_def]
      simp [hcell, hnext, ih _ rest hrest]
  | @quote x y h ih =>
      rintro written cells hcells
      obtain ⟨cell, next, rest, rfl, hcell, hnext, hrest⟩ := chars_eq_cons_cons hcells
      rw [expandFrom.eq_def]
      simp [hcell, hnext, ih _ rest hrest]
  | @kept c x y hbackslash hquote hdollar h ih =>
      rintro written cells hcells
      obtain ⟨cell, next, rest, rfl, hcell, hnext, hrest⟩ := chars_eq_cons_cons hcells
      have hcopy : (SwitchPasses.expandFrom 0 written (cell :: next :: rest)).1 =
          cell :: (SwitchPasses.expandFrom 0 (written + 1) (next :: rest)).1 := by
        conv_lhs => rw [expandFrom.eq_def]
        simp [hcell, hnext, hbackslash, hquote, hdollar]
      rw [hcopy, expandFrom_copy _ (by rwa [hnext]) fun h => absurd h (by rwa [hnext]), chars_cons,
        chars_cons, ih _ rest hrest, hcell, hnext]
  | @escapedDollar x y hallowed hends h ih =>
      rintro written cells hcells
      obtain ⟨cell, next, rest, rfl, hcell, hnext, hrest⟩ := chars_eq_cons_cons hcells
      cases rest with
      | nil =>
          obtain rfl : [] = x := hrest
          cases h
          rw [expandFrom.eq_def]
          simp [hcell, hnext]
      | cons third rest =>
          have hthird : third.char ≠ '$' := by
            rw [← hrest] at hends
            simpa using hends
          rw [expandFrom.eq_def]
          simp [hcell, hnext, hthird, ih _ (third :: rest) hrest]

theorem hasEscapedData_cons_false {c : Char} {x : Text} (h : hasEscapedData (c :: x) = false) :
    hasEscapedData x = false := by
  cases x with
  | nil => rfl
  | cons d x =>
      by_cases hc : c = '\\'
      · subst hc
        exact (Bool.or_eq_false_iff.mp h).2
      · rw [hasEscapedData] at h
        · exact h
        · exact fun _ _ heq _ => hc heq

theorem hasEscapedData_escape {next : Char} {x : Text}
    (h : hasEscapedData ('\\' :: next :: x) = false) :
    next ≠ '\\' ∧ next ≠ '\'' := by
  have hnext := (Bool.or_eq_false_iff.mp h).1
  constructor <;> rintro rfl <;> exact absurd hnext (by decide)

/-- Expansion leaves a text without a backslash and a dollar. -/
theorem Expands.of_plain (dollars : Bool) {text : Text} (hbackslash : '\\' ∉ text)
    (hdollar : '$' ∉ text) :
    Expands dollars text text := by
  induction text with
  | nil => exact .nil
  | cons c text ih =>
      rw [List.mem_cons, not_or] at hbackslash hdollar
      exact .plain (Ne.symm hbackslash.1) (Ne.symm hdollar.1) (ih hbackslash.2 hdollar.2)

/-- Without an escape expansion leaves a text as it is. -/
theorem Expands.eq_of_plain {x y : Text} (h : Expands false x y)
    (hplain : hasEscapedData x = false) : y = x := by
  induction h with
  | nil => rfl
  | reference => rfl
  | plain _ _ _ ih => rw [ih (hasEscapedData_cons_false hplain)]
  | dollar _ _ ih => rw [ih (hasEscapedData_cons_false hplain)]
  | backslash => exact absurd rfl (hasEscapedData_escape hplain).1
  | quote => exact absurd rfl (hasEscapedData_escape hplain).2
  | kept _ _ _ _ ih => rw [ih (hasEscapedData_cons_false (hasEscapedData_cons_false hplain))]
  | escapedDollar hallowed => cases hallowed

theorem Ordered.of_cons {lo : Nat} {cell : Traced} {rest : List Traced}
    (h : Ordered lo (cell :: rest)) :
    lo ≤ cell.start ∧ cell.start < cell.stop ∧ Ordered cell.stop rest := by
  cases h with
  | cons hlo hwidth hrest => exact ⟨hlo, hwidth, hrest⟩

theorem Ordered.behind {lo : Nat} {cell : Traced} {rest : List Traced}
    (h : Ordered lo (cell :: rest)) :
    Ordered lo rest := by
  obtain ⟨hlo, hwidth, hrest⟩ := h.of_cons
  exact hrest.mono (by omega)

/-- Expansion keeps the order of what it reads. -/
theorem Ordered.expandFrom (copies written : Nat) (cells : List Traced) :
    ∀ lo, Ordered lo cells → Ordered lo (SwitchPasses.expandFrom copies written cells).1 := by
  -- A copied entry stands ahead of what is left, and what is dropped leaves room for it.
  have hcopy : ∀ {lo : Nat} {cell : Traced} {rest later : List Traced},
      (∀ lo, Ordered lo rest → Ordered lo later) → Ordered lo (cell :: rest) →
      Ordered lo (cell :: later) :=
    fun hlater h => .cons h.of_cons.1 h.of_cons.2.1 (hlater _ h.of_cons.2.2)
  fun_induction SwitchPasses.expandFrom copies written cells with
  | case1 => exact fun lo h => h
  | case2 written cell rest copies later ih => exact fun lo h => hcopy ih h
  | case3 => exact fun lo h => h
  | case4 => exact fun lo h => h.behind
  | case5 written cell next _ third rest _ later ih => exact fun lo h => hcopy ih h.behind.behind
  | case6 written cell next _ third rest _ later ih => exact fun lo h => hcopy ih h.behind
  | case7 written cell next rest _ _ ih => exact fun lo h => ih lo h.behind.behind
  | case8 written cell next rest _ _ _ later ih =>
      rintro lo h
      obtain ⟨hlo, hwidth, hrest⟩ := h.of_cons
      obtain ⟨hlo', hwidth', hrest'⟩ := hrest.of_cons
      exact .cons hlo (Nat.lt_of_lt_of_le hwidth (hlo'.trans hwidth'.le)) (ih _ hrest')
  | case9 => exact fun lo h => hcopy ‹_› h
  | case10 => exact fun lo h => hcopy ‹_› h
  | case11 => exact fun lo h => hcopy ‹_› h.behind
  | case12 => exact fun lo h => h.behind
  | case13 => exact fun lo h => hcopy ‹_› h

/-- **Expansion makes of a text what `Expands` says, in order.** -/
theorem expandEscapes_expands {dollars : Bool} {lo : Nat} {cells : List Traced} {y : Text}
    (h : Expands dollars (chars cells) y)
    (hguarded : dollars = true → hasEscapedData (chars cells) = true)
    (hordered : Ordered lo cells) :
    chars (expandEscapes cells).1 = y ∧ Ordered lo (expandEscapes cells).1 := by
  rw [expandEscapes]
  split_ifs with hplain
  · cases dollars with
    | true => exact absurd (hguarded rfl) (by simp [hplain.1])
    | false => exact ⟨(h.eq_of_plain hplain.1).symm, hordered⟩
  · exact ⟨h.expandFrom 0 cells rfl, hordered.expandFrom 0 0 cells lo⟩

/-! ### A rendered field -/

theorem Expands.backslashes {dollars : Bool} {x y : Text} (h : Expands dollars x y) (n : Nat) :
    Expands dollars (SwitchPasses.backslashes (2 * n) ++ x) (SwitchPasses.backslashes n ++ y) := by
  induction n with
  | zero => exact h
  | succ n ih => exact .backslash ih

theorem Expands.wireQuote {dollars : Bool} {x y : Text} (h : Expands dollars x y) (n : Nat) :
    Expands dollars (SwitchPasses.wireQuote true (n + 1) ++ x)
      (SwitchPasses.backslashes (2 ^ n - 1) ++ '\'' :: y) := by
  have hruns : 2 ^ (n + 1) - 2 = 2 * (2 ^ n - 1) := by
    rw [Nat.pow_succ]
    omega
  rw [SwitchPasses.wireQuote, if_pos rfl, hruns, List.append_assoc]
  exact (Expands.plain (by decide) (by decide) h).backslashes _

/-- An unescaped dollar is followed by neither a dollar nor a brace. -/
def Apart (dollars : Bool) (first second : Atom) : Prop :=
  dollars = false → first = .plain '$' → second ≠ .plain '$' ∧ second ≠ .plain '{'

theorem endsDollar_append {w : Text} (hne : w ≠ []) (hdollar : '$' ∉ w)
    (hbrace : '{' ∉ w) (x : Text) :
    EndsDollar (w ++ x) := by
  rw [EndsDollar, List.head?_append_of_ne_nil _ hne]
  exact ⟨fun h => hdollar (List.mem_of_mem_head? h), fun h => hbrace (List.mem_of_mem_head? h)⟩

theorem notMem_backslashes {c : Char} (hc : c ≠ '\\') (count : Nat) : c ∉ backslashes count :=
  fun h => hc (List.eq_of_mem_replicate h)

/-- Only a dollar's or a brace's own atom spells one. -/
theorem Atom.Rendered.notMem_wire {expands dollars : Bool} {level : Nat} {atom : Atom}
    (h : atom.Rendered level)
    {c : Char} (hc : c = '$' ∨ c = '{') (hatom : atom ≠ .plain c)
    (hother : c = '{' → atom ≠ .plain '$') :
    c ∉ atom.wire expands dollars (level + 1) := by
  have hbackslash : c ≠ '\\' := by rcases hc with rfl | rfl <;> decide
  have hquote : c ≠ '\'' := by rcases hc with rfl | rfl <;> decide
  have hmark : c ≠ ',' ∧ c ≠ '|' ∧ c ≠ '=' ∧ c ≠ 's' := by rcases hc with rfl | rfl <;> decide
  have hrun := notMem_backslashes hbackslash
  have hwire := notMem_wireQuote hbackslash hquote expands
  cases atom with
  | plain d =>
      have hd : c ≠ d := fun h => hatom (congrArg Atom.plain h.symm)
      by_cases hdollar : dollars = true ∧ d = '$'
      · obtain ⟨rfl, rfl⟩ := hdollar
        rcases hc with rfl | rfl
        · exact absurd rfl hd
        · exact absurd rfl (hother rfl)
      · rw [Atom.wire, if_neg hdollar, List.mem_singleton]
        exact hd
  | escaped d last =>
      have hd : c ≠ d := by
        rcases h.2 with rfl | rfl | rfl
        · exact hmark.1
        · exact hmark.2.1
        · exact hmark.2.2.1
      simp only [Atom.wire, Atom.text]
      split_ifs <;> simp [hbackslash, hd]
  | backslash => exact hrun _
  | quote => exact hwire _
  | space =>
      show c ∉ backslashes (2 ^ level) ++ ['s']
      simp [hrun, hmark.2.2.2]
  | guarding last =>
      rw [Atom.wire]
      split_ifs <;> simp [hwire]

variable {all dollars : Bool} {level : Nat}

/-- What follows an unescaped dollar is read by none. -/
theorem endsDollar_wire {atom : Atom} {atoms : List Atom} (hrendered : atom.Rendered level)
    (hdollar : atom ≠ .plain '$') (hbrace : atom ≠ .plain '{') (x : Text) :
    EndsDollar (wire true dollars (level + 1) (atom :: atoms) ++ x) := by
  rw [wire_cons, List.append_assoc]
  exact endsDollar_append (Atom.wire_ne_nil (hrendered.solid (Nat.le_succ level)))
    (hrendered.notMem_wire (.inl rfl) hdollar fun h => absurd h (by decide))
    (hrendered.notMem_wire (.inr rfl) hbrace fun _ => hdollar) _

/-- An escaped dollar is not followed by a bare one. -/
theorem head_wire_escaped {atom : Atom} {atoms : List Atom}
    (hrendered : atom.Rendered level) (x : Text) :
    (wire true true (level + 1) (atom :: atoms) ++ x).head? ≠ some '$' := by
  by_cases hdollar : atom = .plain '$'
  · subst hdollar
    simp [Atom.wire]
  · rw [wire_cons, List.append_assoc,
      List.head?_append_of_ne_nil _ (Atom.wire_ne_nil (hrendered.solid (Nat.le_succ level)))]
    exact fun h => hrendered.notMem_wire (.inl rfl) hdollar (fun h => absurd h (by decide))
      (List.mem_of_mem_head? h)

/-- Expansion takes one level off the atoms of a field. -/
theorem Expands.wire (hall : dollars = true → all = true) (hlevel : 0 < level) {atoms : List Atom}
    (hrendered : ∀ atom ∈ atoms, atom.Rendered level)
    (hapart : atoms.IsChain (Apart dollars)) {x y : Text}
    (hends : EndsDollar x) (h : Expands all x y) :
    Expands all (SwitchPasses.wire true dollars (level + 1) atoms ++ x)
      (render level atoms ++ y) := by
  induction atoms with
  | nil => exact h
  | cons atom atoms ih =>
      obtain ⟨hatom, hatoms⟩ := List.forall_mem_cons.mp hrendered
      obtain ⟨hnext, hlater⟩ := List.isChain_cons.mp hapart
      have hrest := ih hatoms hlater
      rw [wire_cons, render_cons, List.append_assoc, List.append_assoc]
      cases atom with
      | plain c =>
          by_cases hdollar : c = '$'
          · subst hdollar
            cases dollars with
            | true =>
                refine .escapedDollar (hall rfl) ?_ hrest
                cases atoms with
                | nil => exact hends.1
                | cons next atoms => exact head_wire_escaped (hatoms next List.mem_cons_self) x
            | false =>
                refine .dollar ?_ hrest
                cases atoms with
                | nil => exact hends
                | cons next atoms =>
                    obtain ⟨hdollar, hbrace⟩ := hnext next rfl rfl rfl
                    exact endsDollar_wire (hatoms next List.mem_cons_self) hdollar hbrace x
          · rw [Atom.wire, if_neg fun h => hdollar h.2]
            exact .plain hatom.1 hdollar hrest
      | escaped c last =>
          have htext : Atom.text level (.escaped c last) = ['\\', c] := if_pos hatom.1
          have htext' : Atom.wire true dollars (level + 1) (.escaped c last) = ['\\', c] :=
            if_pos (Nat.le_succ_of_le hatom.1)
          rw [htext, htext']
          rcases hatom.2 with rfl | rfl | rfl <;>
            exact .kept (by decide) (by decide) (by decide) hrest
      | backslash =>
          show Expands all (SwitchPasses.backslashes (2 ^ (level + 1)) ++ _)
              (SwitchPasses.backslashes (2 ^ level) ++ _)
          rw [Nat.pow_succ, Nat.mul_comm]
          exact hrest.backslashes _
      | quote =>
          rw [Atom.text, List.append_assoc]
          exact hrest.wireQuote level
      | space =>
          obtain ⟨level, rfl⟩ : ∃ below, level = below + 1 := ⟨level - 1, by omega⟩
          show Expands all (SwitchPasses.backslashes (2 ^ (level + 1)) ++ ['s'] ++ _)
            (SwitchPasses.backslashes (2 ^ level) ++ ['s'] ++ _)
          rw [Nat.pow_succ, Nat.mul_comm, List.append_assoc, List.append_assoc]
          exact (Expands.plain (by decide) (by decide) hrest).backslashes _
      | guarding last =>
          have hle : last ≤ level := hatom
          have hsub : level + 1 - last = level - last + 1 := Nat.succ_sub hle
          rw [Atom.wire, if_pos (Nat.le_succ_of_le hle), Atom.text, if_pos hle, hsub]
          simp only [List.append_assoc, List.cons_append, List.nil_append]
          exact (hrest.wireQuote _).wireQuote _

theorem Expands.dollarGuard {x y : Text} (h : Expands all x y) (dollars : Bool) :
    Expands all (SwitchPasses.dollarGuard dollars ++ x) y := by
  cases dollars with
  | false => exact h
  | true => exact .quote h

/-- Expansion takes one level off a field, its quotes left. -/
theorem Expands.wireText (hall : dollars = true → all = true) (hlevel : 0 < level)
    {atoms : List Atom}
    (hrendered : ∀ atom ∈ atoms, atom.Rendered level)
    (hapart : atoms.IsChain (Apart dollars)) {x y : Text}
    (hends : EndsDollar x) (h : Expands all x y) :
    Expands all (SwitchPasses.wireText true dollars (level + 1) atoms ++ x)
      (fieldText true level atoms ++ y) := by
  have hquote : EndsDollar ('\'' :: x) := by simp [EndsDollar]
  rw [SwitchPasses.wireText, fieldText, Bool.true_and]
  split_ifs
  · simp only [quoted, List.cons_append, List.append_assoc, List.nil_append]
    have hclose : Expands all ('\'' :: x) ('\'' :: y) := .plain (by decide) (by decide) h
    exact .plain (by decide) (by decide)
      ((Expands.wire hall hlevel hrendered hapart hquote hclose).dollarGuard dollars)
  · rw [List.append_assoc]
    exact (Expands.wire hall hlevel hrendered hapart hends h).dollarGuard dollars

/-! ### The atoms of a text -/

theorem varCheckFrom_infix {dollar : Bool} {text : Text} (h : varCheckFrom dollar text = false) :
    ¬ ['$', '{'] <:+: text := by
  induction text generalizing dollar with
  | nil => simp
  | cons c rest ih =>
      rw [List.infix_cons_iff, not_or]
      rw [varCheckFrom] at h
      split_ifs at h with hdollar hbrace hbackslash
      · refine ⟨?_, ih h⟩
        rintro ⟨later, hlater⟩
        obtain ⟨-, rfl⟩ := List.cons.inj hlater
        have hfound : varCheckFrom true ('{' :: later) = true := by
          rw [varCheckFrom, if_neg (by decide), if_pos ⟨rfl, rfl⟩]
        exact Bool.noConfusion (h.symm.trans hfound)
      all_goals
        refine ⟨?_, ih h⟩
        rintro ⟨later, hlater⟩
        exact hdollar (List.cons.inj hlater).1.symm

/-- In a text that names no variable a dollar is followed by no brace, and by no dollar unless
escaped. -/
theorem isChain_dollars {text : Text} (hvariable : namesAVariable text = false) {dollars : Bool}
    (hdollars : dollars = false → hasDoubleDollar text = false) :
    text.IsChain fun c d => dollars = false → c = '$' → d ≠ '$' ∧ d ≠ '{' := by
  have hbrace := varCheckFrom_infix hvariable
  have hpair : dollars = false → ¬ ['$', '$'] <:+: text := fun h => by
    rw [← Search.isSome_find_iff, Bool.not_eq_true]
    exact hdollars h
  clear hvariable hdollars
  induction text with
  | nil => exact .nil
  | cons c rest ih =>
      rw [List.infix_cons_iff, not_or] at hbrace
      have hpair' : dollars = false → ¬ ['$', '$'] <+: c :: rest ∧ ¬ ['$', '$'] <:+: rest :=
        fun h => by
        have := hpair h
        rwa [List.infix_cons_iff, not_or] at this
      rw [List.isChain_cons]
      refine ⟨?_, ih hbrace.2 fun h => (hpair' h).2⟩
      rintro d hd hfalse rfl
      obtain ⟨later, rfl⟩ := List.head?_eq_some_iff.mp hd
      constructor
      · rintro rfl
        exact (hpair' hfalse).1 (List.prefix_append ['$', '$'] later)
      · rintro rfl
        exact hbrace.1 (List.prefix_append ['$', '{'] later)

/-- The atom of a dollar or of a brace is that char's. -/
theorem EscapedField.charAtom_eq_plain {field : EscapedField} {c d : Char}
    (h : field.charAtom c = .plain d) :
    c = d := by
  unfold EscapedField.charAtom at h
  split_ifs at h
  cases hlevel : field.level c with
  | none =>
      rw [hlevel] at h
      exact Atom.plain.inj h
  | some last =>
      rw [hlevel] at h
      cases h

/-- Spaces at the edges leave a chain of atoms that a space may stand between. -/
theorem isChain_edges {apart : Atom → Atom → Prop} (hbehind : ∀ atom, apart .space atom)
    (hahead : ∀ atom, apart atom .space) {atoms : List Atom} (h : atoms.IsChain apart) :
    (edgeLast (edgeHead atoms)).IsChain apart := by
  have hhead : (edgeHead atoms).IsChain apart := by
    cases atoms with
    | nil => exact .nil
    | cons atom rest =>
        by_cases hatom : atom = .plain ' '
        · subst hatom
          exact List.isChain_cons.mpr ⟨fun next _ => hbehind next, (List.isChain_cons.mp h).2⟩
        · rwa [edgeHead_of_ne hatom]
  unfold edgeLast
  split_ifs
  · refine hhead.dropLast.append (List.isChain_singleton _) fun first _ second hsecond => ?_
    obtain rfl := Option.some.inj hsecond
    exact hahead first
  · exact hhead

/-- An atom other than a dollar's or a brace's may stand behind any. -/
theorem Apart.of_ne {first second : Atom} (hdollar : second ≠ .plain '$')
    (hbrace : second ≠ .plain '{') :
    Apart dollars first second :=
  fun _ _ => ⟨hdollar, hbrace⟩

theorem isChain_concat {atoms : List Atom} (h : atoms.IsChain (Apart dollars)) {atom : Atom}
    (hdollar : atom ≠ .plain '$') (hbrace : atom ≠ .plain '{') :
    (atoms ++ [atom]).IsChain (Apart dollars) := by
  refine h.append (List.isChain_singleton _) fun first _ second hsecond => ?_
  obtain rfl := Option.some.inj hsecond
  exact Apart.of_ne hdollar hbrace

/-- The guards of commas leave the first atom. -/
theorem head_guardCommas (atoms : List Atom) : (guardCommas atoms).head? = atoms.head? := by
  cases atoms with
  | nil => rfl
  | cons atom rest =>
      obtain ⟨later, hlater⟩ := guardCommas_cons atom rest
      rw [hlater]
      rfl

theorem isChain_guardCommas {atoms : List Atom} (h : atoms.IsChain (Apart dollars)) :
    (guardCommas atoms).IsChain (Apart dollars) := by
  induction atoms with
  | nil => exact .nil
  | cons atom rest ih =>
      obtain ⟨hhead, hrest⟩ := List.isChain_cons.mp h
      unfold guardCommas
      split_ifs with hcut
      · obtain ⟨rfl, -⟩ := hcut
        refine List.isChain_cons.mpr ⟨fun next _ _ hbackslash => (by cases hbackslash), ?_⟩
        exact List.isChain_cons.mpr ⟨fun next _ _ hguarding => (by cases hguarding), ih hrest⟩
      · exact List.isChain_cons.mpr ⟨head_guardCommas rest ▸ hhead, ih hrest⟩

/-- The dollars of a field stand apart. -/
theorem EscapedField.isChain_atoms (field : EscapedField) {text : Text}
    (hvariable : namesAVariable text = false) (hdollars : dollars = false →
      hasDoubleDollar text = false) :
    (field.atoms text).IsChain (Apart dollars) := by
  have hmap : (text.map field.charAtom).IsChain (Apart dollars) := by
    rw [List.isChain_map]
    refine (isChain_dollars hvariable hdollars).imp fun c d happart hfalse hc => ?_
    obtain ⟨hdollar, hbrace⟩ := happart hfalse (EscapedField.charAtom_eq_plain hc)
    exact ⟨fun h => hdollar (EscapedField.charAtom_eq_plain h), fun h =>
      hbrace (EscapedField.charAtom_eq_plain h)⟩
  have hguard : (field.guardAtoms text (text.map field.charAtom)).IsChain (Apart dollars) := by
    unfold EscapedField.guardAtoms
    split
    · split_ifs
      · exact isChain_concat hmap (by simp) (by simp)
      · exact hmap
    · exact isChain_guardCommas hmap
    · exact isChain_guardCommas hmap
    all_goals exact hmap
  have hedges := isChain_edges (fun _ _ hspace => (by cases hspace))
    (fun _ => Apart.of_ne (by simp) (by simp)) hguard
  unfold EscapedField.atoms EscapedField.caretAtoms
  split
  · split_ifs
    · exact List.isChain_cons.mpr ⟨fun next _ _ hguarding => (by cases hguarding), hedges⟩
    · exact hedges
  all_goals exact hedges

end SwitchPasses
end EslTokio
