import Mathlib.Data.List.Infix
import Mathlib.Tactic.Common

/-!
# Substring search with a resumable watermark

A streaming parser searches a growing buffer for a fixed needle.  Searching from the start after
every read is quadratic, so the search is resumed near the end of what was already inspected.

* `find` — the offset of the first occurrence of a needle, the specification of a substring search.
* `splitOnce` — the parts before and after that occurrence.
* `Clear` — the watermark invariant: no occurrence lies wholly inside the first `mark` elements.
* **`find_eq_resume`** — under `Clear`, a search that starts `needle.length - 1` elements before the
  watermark finds exactly what a search from the start finds.
* `find_append_of_some` / `Clear.append` — appending input moves neither a match nor the watermark.
* `infix_intercalate`, `infix_intercalate_seam` — where in joined lists a needle can occur.
-/

namespace EslTokio
namespace Library
namespace Search

variable {α : Type*}

/-- No occurrence of `needle` lies wholly inside the first `mark` elements of `hay`. -/
def Clear (needle : List α) (mark : Nat) (hay : List α) : Prop :=
  ∀ offset, offset + needle.length ≤ mark → ¬ needle <+: hay.drop offset

/-- An occurrence that ends before the appended part is an occurrence without it. -/
theorem prefix_drop_of_append {needle hay extra : List α} {offset : Nat}
    (hfit : offset + needle.length ≤ hay.length)
    (h : needle <+: (hay ++ extra).drop offset) : needle <+: hay.drop offset := by
  rw [List.drop_append_of_le_length (by omega)] at h
  exact List.prefix_of_prefix_length_le h (List.prefix_append _ _)
    (by rw [List.length_drop]; omega)

/-- Nothing has been inspected yet. -/
theorem Clear.zero {needle : List α} (hneedle : needle ≠ []) (hay : List α) :
    Clear needle 0 hay := by
  intro offset hoffset
  have hpos := List.length_pos_iff.mpr hneedle
  omega

/-- The watermark survives appended input. -/
theorem Clear.append {needle hay : List α} {mark : Nat} (h : Clear needle mark hay)
    (hmark : mark ≤ hay.length) (extra : List α) : Clear needle mark (hay ++ extra) :=
  fun offset hoffset hocc => h offset hoffset (prefix_drop_of_append (by omega) hocc)

/-- Consuming `count` elements moves the watermark back by as many. -/
theorem Clear.drop {needle hay : List α} {mark : Nat} (h : Clear needle mark hay)
    (hneedle : needle ≠ []) (count : Nat) : Clear needle (mark - count) (hay.drop count) := by
  intro offset hoffset hocc
  have hpos := List.length_pos_iff.mpr hneedle
  rw [List.drop_drop] at hocc
  exact h (count + offset) (by omega) hocc

variable [DecidableEq α]

/-- Offset of the first occurrence of `needle` in the second argument. -/
def find (needle : List α) : List α → Option Nat
  | [] => if needle = [] then some 0 else none
  | head :: tail =>
      if needle.isPrefixOf (head :: tail) then some 0
      else (find needle tail).map (· + 1)

/-- A reported offset is an occurrence, and no earlier offset is one. -/
theorem find_eq_some {needle hay : List α} {pos : Nat} (h : find needle hay = some pos) :
    needle <+: hay.drop pos ∧ ∀ offset < pos, ¬ needle <+: hay.drop offset := by
  induction hay generalizing pos with
  | nil =>
      simp only [find] at h
      split at h
      · rename_i hneedle
        obtain rfl : 0 = pos := by simpa using h
        subst hneedle
        exact ⟨List.nil_prefix, fun offset hoffset => absurd hoffset (Nat.not_lt_zero _)⟩
      · simp at h
  | cons head tail ih =>
      simp only [find] at h
      split at h
      · rename_i hprefix
        obtain rfl : 0 = pos := by simpa using h
        exact ⟨List.isPrefixOf_iff_prefix.mp hprefix,
          fun offset hoffset => absurd hoffset (Nat.not_lt_zero _)⟩
      · rename_i hprefix
        obtain ⟨rel, hrel, rfl⟩ := Option.map_eq_some_iff.mp h
        obtain ⟨hocc, hfirst⟩ := ih hrel
        refine ⟨by simpa using hocc, ?_⟩
        intro offset hoffset
        cases offset with
        | zero => simpa [List.isPrefixOf_iff_prefix] using hprefix
        | succ offset => simpa using hfirst offset (by omega)

/-- A failed search means that no offset is an occurrence. -/
theorem find_eq_none {needle hay : List α} (h : find needle hay = none) (offset : Nat) :
    ¬ needle <+: hay.drop offset := by
  induction hay generalizing offset with
  | nil =>
      simp only [find] at h
      split at h
      · simp at h
      · simpa using ‹¬needle = []›
  | cons head tail ih =>
      simp only [find] at h
      split at h
      · simp at h
      · rename_i hprefix
        have htail : find needle tail = none := by simpa using h
        cases offset with
        | zero => simpa [List.isPrefixOf_iff_prefix] using hprefix
        | succ offset => simpa using ih htail offset

/-- The first occurrence is unique, so exhibiting it determines the search. -/
theorem find_eq_some_of_first {needle hay : List α} {pos : Nat}
    (hocc : needle <+: hay.drop pos) (hfirst : ∀ offset < pos, ¬ needle <+: hay.drop offset) :
    find needle hay = some pos := by
  cases hfind : find needle hay with
  | none => exact absurd hocc (find_eq_none hfind pos)
  | some found =>
      obtain ⟨hfound, hleast⟩ := find_eq_some hfind
      rcases Nat.lt_trichotomy found pos with hlt | heq | hgt
      · exact absurd hfound (hfirst found hlt)
      · rw [heq]
      · exact absurd hocc (hleast pos hgt)

/-- A search succeeds on exactly the lists that hold the needle. -/
theorem isSome_find_iff {needle hay : List α} : (find needle hay).isSome = true ↔
    needle <:+: hay := by
  constructor
  · intro h
    obtain ⟨pos, hpos⟩ := Option.isSome_iff_exists.mp h
    exact (find_eq_some hpos).1.isInfix.trans (List.drop_suffix pos hay).isInfix
  · rintro ⟨before, after, rfl⟩
    cases hfind : find needle (before ++ needle ++ after) with
    | some pos => rfl
    | none =>
        refine absurd ?_ (find_eq_none hfind before.length)
        rw [List.append_assoc, List.drop_left]
        exact List.prefix_append needle after

/-- The parts before and after the first occurrence. -/
def splitOnce (needle hay : List α) : Option (List α × List α) :=
  (find needle hay).map fun pos => (hay.take pos, hay.drop (pos + needle.length))

theorem splitOnce_append {needle before : List α} (after : List α)
    (hfirst : ∀ offset < before.length, ¬ needle <+: (before ++ needle ++ after).drop offset) :
    splitOnce needle (before ++ needle ++ after) = some (before, after) := by
  have hocc : needle <+: (before ++ needle ++ after).drop before.length := by
    rw [List.append_assoc, List.drop_left]
    exact List.prefix_append needle after
  rw [splitOnce, find_eq_some_of_first hocc hfirst, Option.map_some, ← List.length_append,
    List.drop_left, List.append_assoc, List.take_left]

theorem splitOnce_some {needle hay before after : List α}
    (h : splitOnce needle hay = some (before, after)) :
    hay = before ++ needle ++ after ∧ ∀ offset < before.length, ¬ needle <+: hay.drop offset := by
  obtain ⟨pos, hpos, heq⟩ := Option.map_eq_some_iff.mp h
  obtain ⟨rfl, rfl⟩ := Prod.mk.inj heq
  obtain ⟨⟨rest, hocc⟩, hfirst⟩ := find_eq_some hpos
  have hrest : hay.drop (pos + needle.length) = rest := by
    rw [← List.drop_drop, ← hocc, List.drop_left]
  refine ⟨?_, fun offset hoffset => hfirst offset ?_⟩
  · rw [hrest, List.append_assoc, hocc, List.take_append_drop]
  · exact lt_of_lt_of_le hoffset (List.length_take_le pos hay)

theorem splitOnce_eq_none {needle hay : List α} : splitOnce needle hay = none ↔
    ¬ needle <:+: hay := by
  rw [splitOnce, Option.map_eq_none_iff, ← isSome_find_iff, Option.not_isSome_iff_eq_none]

omit [DecidableEq α] in
/-- An occurrence without a separator stands on one side of it. -/
theorem infix_append_cons {needle left right : List α} {sep : α} (hsep : sep ∉ needle)
    (h : needle <:+: left ++ sep :: right) : needle <:+: left ∨ needle <:+: right := by
  obtain ⟨before, after, h⟩ := h
  rcases List.append_eq_append_iff.mp h with ⟨rest, hleft, -⟩ | ⟨rest, hneedle, hright⟩
  · exact .inl (hleft ▸ ⟨before, rest, rfl⟩)
  cases rest with
  | nil => exact .inl ⟨before, [], by rw [List.append_nil, hneedle, List.append_nil]⟩
  | cons c rest =>
      obtain ⟨rfl, rfl⟩ := List.cons.inj hright
      rcases List.append_eq_append_iff.mp hneedle with ⟨middle, -, hmiddle⟩ | ⟨middle, -, hmiddle⟩
      · exact absurd (hmiddle ▸ List.mem_append_right _ List.mem_cons_self) hsep
      · cases middle with
        | nil =>
            obtain rfl : sep :: rest = needle := hmiddle
            exact absurd List.mem_cons_self hsep
        | cons d middle =>
            obtain ⟨-, rfl⟩ := List.cons.inj hmiddle
            exact .inr ⟨middle, after, rfl⟩

omit [DecidableEq α] in
/-- An occurrence without the separator of joined lists stands in one of them. -/
theorem infix_intercalate {needle : List α} {sep : α} (hne : needle ≠ []) (hsep : sep ∉ needle)
    {lists : List (List α)} (h : needle <:+: [sep].intercalate lists) :
    ∃ list ∈ lists, needle <:+: list := by
  induction lists with
  | nil => exact absurd (List.infix_nil.mp h) hne
  | cons list lists ih =>
      cases lists with
      | nil => exact ⟨list, List.mem_cons_self, by rwa [List.intercalate_singleton] at h⟩
      | cons next later =>
          rw [List.intercalate_cons_cons, List.append_assoc, List.singleton_append] at h
          rcases infix_append_cons hsep h with h | h
          · exact ⟨list, List.mem_cons_self, h⟩
          · obtain ⟨found, hfound, hinfix⟩ := ih h
            exact ⟨found, List.mem_cons_of_mem list hfound, hinfix⟩

omit [DecidableEq α] in
/-- A list stands in what it is joined into. -/
theorem infix_intercalate_of_mem {sep list : List α} {lists : List (List α)} (h : list ∈ lists) :
    list <:+: sep.intercalate lists := by
  induction lists with
  | nil => cases h
  | cons next later ih =>
      rcases List.mem_cons.mp h with rfl | h
      · cases later with
        | nil => rw [List.intercalate_singleton]
        | cons third later =>
            rw [List.intercalate_cons_cons, List.append_assoc]
            exact (List.prefix_append _ _).isInfix
      · obtain ⟨third, later, rfl⟩ := List.exists_cons_of_ne_nil (List.ne_nil_of_mem h)
        rw [List.intercalate_cons_cons]
        exact (ih h).trans (List.suffix_append _ _).isInfix

omit [DecidableEq α] in
/-- Two elements side by side in an appended list are in one part, or meet at the seam. -/
theorem infix_append_pair {a b : α} {left right : List α} (h : [a, b] <:+: left ++ right) :
    [a, b] <:+: left ∨ [a, b] <:+: right ∨ (left.getLast? = some a ∧ right.head? = some b) := by
  induction left with
  | nil => exact .inr (.inl h)
  | cons c left ih =>
      rw [List.cons_append, List.infix_cons_iff] at h
      rcases h with hprefix | hlater
      · obtain ⟨rfl, hnext⟩ := List.cons_prefix_cons.mp hprefix
        cases left with
        | nil =>
            obtain ⟨d, right, rfl⟩ := List.exists_cons_of_ne_nil
              (hnext.ne_nil (List.cons_ne_nil b []))
            obtain ⟨rfl, -⟩ := List.cons_prefix_cons.mp hnext
            exact .inr (.inr ⟨rfl, rfl⟩)
        | cons d left =>
            obtain ⟨rfl, -⟩ := List.cons_prefix_cons.mp hnext
            exact .inl ⟨[], left, rfl⟩
      · rcases ih hlater with hleft | hright | ⟨hlast, hhead⟩
        · exact .inl (List.infix_cons hleft)
        · exact .inr (.inl hright)
        · refine .inr (.inr ⟨?_, hhead⟩)
          cases left with
          | nil => cases hlast
          | cons d left => rwa [List.getLast?_cons_cons]

omit [DecidableEq α] in
/-- An occurrence around a separator is at a seam, or behind it. -/
theorem infix_cons_seam {a b sep : α} (hfirst : a ≠ sep) {left right : List α} (hleft : sep ∉ left)
    (h : [a, sep, b] <:+: left ++ sep :: right) :
    (left.getLast? = some a ∧ right.head? = some b) ∨ [a, sep, b] <:+: right := by
  obtain ⟨before, after, h⟩ := h
  have hseams : (before ++ [a]) ++ sep :: b :: after = left ++ sep :: right := by
    rw [← h]
    simp
  rcases List.append_eq_append_iff.mp hseams with ⟨rest, rfl, hrest⟩ | ⟨rest, hbefore, hrest⟩
  · cases rest with
    | nil =>
        obtain rfl : b :: after = right := (List.cons.inj hrest).2
        exact .inl ⟨by simp, rfl⟩
    | cons c rest =>
        obtain ⟨rfl, -⟩ := List.cons.inj hrest
        exact absurd (List.mem_append_right _ List.mem_cons_self) hleft
  · rcases List.eq_nil_or_concat' rest with rfl | ⟨rest, c, rfl⟩
    · obtain rfl : right = b :: after := (List.cons.inj hrest).2
      rw [List.append_nil] at hbefore
      exact .inl ⟨by rw [← hbefore, List.getLast?_concat], rfl⟩
    · obtain ⟨rfl, hc⟩ : before = left ++ rest ∧ a = c := by
        rw [← List.append_assoc] at hbefore
        simpa using List.append_inj' hbefore rfl
      subst hc
      cases rest with
      | nil => exact absurd (List.cons.inj hrest).1 hfirst.symm
      | cons d rest =>
          obtain ⟨rfl, rfl⟩ := List.cons.inj hrest
          exact .inr ⟨rest, after, by simp⟩

omit [DecidableEq α] in
/-- An occurrence around the separator of joined lists is where two of them meet. -/
theorem infix_intercalate_seam {a b sep : α} (hfirst : a ≠ sep) {lists : List (List α)}
    (hlists : ∀ list ∈ lists, list ≠ [] ∧ sep ∉ list) :
    [a, sep, b] <:+: [sep].intercalate lists ↔ ∃ left first second right,
      lists = left ++ first :: second :: right ∧ first.getLast? = some a ∧
        second.head? = some b := by
  induction lists with
  | nil =>
      refine iff_of_false (fun h => absurd (List.infix_nil.mp h) (List.cons_ne_nil _ _)) ?_
      rintro ⟨left, first, second, right, hlists, -⟩
      simp at hlists
  | cons list lists ih =>
      obtain ⟨⟨hne, hlist⟩, hlater⟩ := List.forall_mem_cons.mp hlists
      cases lists with
      | nil =>
          rw [List.intercalate_singleton]
          refine iff_of_false (fun h => hlist (h.subset (by simp))) ?_
          rintro ⟨left, first, second, right, hlists, -⟩
          have hlength := congrArg List.length hlists
          rw [List.length_singleton, List.length_append, List.length_cons, List.length_cons]
            at hlength
          omega
      | cons next later =>
          rw [List.intercalate_cons_cons, List.append_assoc, List.singleton_append]
          have hhead : ([sep].intercalate (next :: later)).head? = next.head? := by
            cases later with
            | nil => rw [List.intercalate_singleton]
            | cons third later =>
                rw [List.intercalate_cons_cons, List.append_assoc,
                  List.head?_append_of_ne_nil _ (hlater next List.mem_cons_self).1]
          constructor
          · intro h
            rcases infix_cons_seam hfirst hlist h with ⟨hlast, hnext⟩ | h
            · exact ⟨[], list, next, later, rfl, hlast, hhead ▸ hnext⟩
            · obtain ⟨left, first, second, right, hlists, hseam⟩ := (ih hlater).mp h
              exact ⟨list :: left, first, second, right, by rw [hlists]; rfl, hseam⟩
          · rintro ⟨left, first, second, right, hlists, hlast, hnext⟩
            cases left with
            | nil =>
                obtain ⟨rfl, hrest⟩ := List.cons.inj hlists
                obtain ⟨rfl, rfl⟩ := List.cons.inj hrest
                obtain ⟨init, rfl⟩ : ∃ init, list = init ++ [a] :=
                  ⟨_, (List.dropLast_append_getLast? _ hlast).symm⟩
                obtain ⟨tail, htail⟩ := List.head?_eq_some_iff.mp (hhead.trans hnext)
                rw [htail]
                exact ⟨init, tail, by simp⟩
            | cons c left =>
                obtain ⟨rfl, hrest⟩ := List.cons.inj hlists
                have hinfix := (ih hlater).mpr ⟨left, first, second, right, hrest, hlast, hnext⟩
                exact hinfix.trans ⟨list ++ [sep], [], by simp⟩

omit [DecidableEq α] in
/-- An occurrence does not start in chars it does not hold. -/
theorem infix_of_append_notMem {needle left right : List α} (hne : needle ≠ [])
    (hleft : ∀ c ∈ left, c ∉ needle) (h : needle <:+: left ++ right) : needle <:+: right := by
  induction left with
  | nil => exact h
  | cons c left ih =>
      obtain ⟨hc, hlater⟩ := List.forall_mem_cons.mp hleft
      rcases List.infix_cons_iff.mp h with hprefix | hinfix
      · obtain ⟨d, needle, rfl⟩ := List.exists_cons_of_ne_nil hne
        obtain ⟨rfl, -⟩ := List.cons_prefix_cons.mp hprefix
        exact absurd List.mem_cons_self hc
      · exact ih hlater hinfix

omit [DecidableEq α] in
/-- An occurrence does not start ahead of where its first element can be. -/
theorem infix_of_append_head {a : α} {needle left right : List α} (hleft : a ∉ left)
    (h : a :: needle <:+: left ++ right) : a :: needle <:+: right := by
  induction left with
  | nil => exact h
  | cons c left ih =>
      obtain ⟨hc, hlater⟩ := not_or.mp (List.mem_cons.not.mp hleft)
      rcases List.infix_cons_iff.mp h with hprefix | hinfix
      · exact absurd (List.cons_prefix_cons.mp hprefix).1 hc
      · exact ih hlater hinfix

/-- An occurrence ends inside the searched list. -/
theorem find_add_length_le {needle hay : List α} {pos : Nat} (hneedle : needle ≠ [])
    (h : find needle hay = some pos) : pos + needle.length ≤ hay.length := by
  have hlen := (find_eq_some h).1.length_le
  have hpos := List.length_pos_iff.mpr hneedle
  rw [List.length_drop] at hlen
  omega

/-- Appending to the haystack keeps the first occurrence where it was. -/
theorem find_append_of_some {needle hay : List α} {pos : Nat} (hneedle : needle ≠ [])
    (h : find needle hay = some pos) (extra : List α) :
    find needle (hay ++ extra) = some pos := by
  have hfit := find_add_length_le hneedle h
  obtain ⟨hocc, hfirst⟩ := find_eq_some h
  apply find_eq_some_of_first
  · rw [List.drop_append_of_le_length (by omega)]
    exact hocc.trans (List.prefix_append _ _)
  · intro offset hoffset hearlier
    exact hfirst offset hoffset (prefix_drop_of_append (by omega) hearlier)

/-- A failed search inspects the whole haystack. -/
theorem Clear.of_find_eq_none {needle hay : List α} (h : find needle hay = none) (mark : Nat) :
    Clear needle mark hay :=
  fun offset _ => find_eq_none h offset

/-- A search resumed `needle.length - 1` elements before a clear watermark agrees with a search
from the start. -/
theorem find_eq_resume {needle hay : List α} {mark : Nat} (hneedle : needle ≠ [])
    (h : Clear needle mark hay) :
    find needle hay =
      (find needle (hay.drop (mark - (needle.length - 1)))).map
        (mark - (needle.length - 1) + ·) := by
  have hpos := List.length_pos_iff.mpr hneedle
  set start := mark - (needle.length - 1) with hstart
  cases hfind : find needle (hay.drop start) with
  | some rel =>
      obtain ⟨hocc, hfirst⟩ := find_eq_some hfind
      rw [List.drop_drop] at hocc
      apply find_eq_some_of_first hocc
      intro offset hoffset hearlier
      by_cases hbefore : offset < start
      · exact h offset (by omega) hearlier
      · refine hfirst (offset - start) (by omega) ?_
        rw [List.drop_drop, Nat.add_sub_cancel' (by omega)]
        exact hearlier
  | none =>
      cases hwhole : find needle hay with
      | none => rfl
      | some pos =>
          -- The whole search would have to hit before `start`, which the watermark excludes.
          have hocc := (find_eq_some hwhole).1
          by_cases hbefore : pos < start
          · exact absurd hocc (h pos (by omega))
          · refine absurd ?_ (find_eq_none hfind (pos - start))
            rw [List.drop_drop, Nat.add_sub_cancel' (by omega)]
            exact hocc

end Search
end Library
end EslTokio
