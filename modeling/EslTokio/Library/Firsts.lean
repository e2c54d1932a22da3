import Mathlib.Data.List.Basic
import Mathlib.Data.List.Pairwise
import Mathlib.Tactic.Common

/-!
# The first item of each class

A pass that drops an item when an earlier one has its key.  It compares with every earlier item,
kept or not.

* `firsts` — the pass.
* `firsts_eq_filter` — what it keeps, by position.
* `pairwise_firsts`, `exists_mem_firsts`, `firsts_idem` — keys kept are distinct, all there are, and
  stay.
* `firsts_map` — a map that keeps keys commutes with the pass.
-/

namespace EslTokio
namespace Library

variable {α κ : Type*} [DecidableEq κ]

/-- The items whose key no earlier item has, with some items already behind. -/
def firstsFrom (key : α → κ) (earlier : List α) : List α → List α
  | [] => []
  | item :: rest =>
      if earlier.any (fun other => key item = key other) then
        firstsFrom key (earlier ++ [item]) rest
      else item :: firstsFrom key (earlier ++ [item]) rest

/-- The items whose key no earlier item has. -/
def firsts (key : α → κ) (items : List α) : List α := firstsFrom key [] items

/-- No item of a list has the key of an item. -/
def Fresh (key : α → κ) (earlier : List α) (item : α) :
    Prop := ∀ other ∈ earlier, key item ≠ key other

instance (key : α → κ) (earlier : List α) (item : α) : Decidable (Fresh key earlier item) :=
  inferInstanceAs (Decidable (∀ other ∈ earlier, key item ≠ key other))

variable {key : α → κ}

theorem fresh_iff {earlier : List α} {item : α} :
    Fresh key earlier item ↔ earlier.any (fun other => key item = key other) = false := by
  simp [Fresh]

theorem firstsFrom_cons_of_fresh {earlier : List α} {item : α} (h : Fresh key earlier item)
    (rest : List α) :
    firstsFrom key earlier (item :: rest) = item :: firstsFrom key (earlier ++ [item]) rest := by
  rw [firstsFrom, fresh_iff.mp h]
  rfl

theorem firstsFrom_cons_of_not_fresh {earlier : List α} {item : α} (h : ¬Fresh key earlier item)
    (rest : List α) : firstsFrom key earlier (item :: rest) = firstsFrom key
    (earlier ++ [item]) rest := by
  rw [firstsFrom, if_pos (by simpa [fresh_iff] using h)]

theorem firstsFrom_eq_filter (earlier items : List α) :
    firstsFrom key earlier items =
      ((items.zipIdx earlier.length).filter fun place =>
        Fresh key ((earlier ++ items).take place.2) place.1).map Prod.fst := by
  induction items generalizing earlier with
  | nil => rfl
  | cons item rest ih =>
      have hlater := ih (earlier ++ [item])
      rw [List.length_append, List.length_singleton, List.append_assoc,
        List.singleton_append] at hlater
      have htake : (earlier ++ item :: rest).take earlier.length = earlier := List.take_left' rfl
      rw [List.zipIdx_cons]
      by_cases hfresh : Fresh key earlier item
      · rw [firstsFrom_cons_of_fresh hfresh,
          List.filter_cons_of_pos (by simpa [htake] using hfresh), List.map_cons, hlater]
      · rw [firstsFrom_cons_of_not_fresh hfresh,
          List.filter_cons_of_neg (by simpa [htake] using hfresh), hlater]

/-- **The pass keeps an item exactly when no earlier one has its key, in the order they stand.** -/
theorem firsts_eq_filter (items : List α) :
    firsts key items =
      (items.zipIdx.filter fun place => Fresh key (items.take place.2) place.1).map Prod.fst :=
  firstsFrom_eq_filter [] items

theorem fresh_of_mem_firstsFrom {earlier items : List α} {item : α}
    (h : item ∈ firstsFrom key earlier items) :
    Fresh key earlier item := by
  induction items generalizing earlier with
  | nil => exact absurd h List.not_mem_nil
  | cons head rest ih =>
      by_cases hfresh : Fresh key earlier head
      · rw [firstsFrom_cons_of_fresh hfresh] at h
        rcases List.mem_cons.mp h with rfl | h
        · exact hfresh
        · intro other hother
          exact ih h other (List.mem_append_left _ hother)
      · rw [firstsFrom_cons_of_not_fresh hfresh] at h
        intro other hother
        exact ih h other (List.mem_append_left _ hother)

theorem pairwise_firstsFrom (earlier items : List α) :
    (firstsFrom key earlier items).Pairwise fun left right => key left ≠ key right := by
  induction items generalizing earlier with
  | nil => exact List.Pairwise.nil
  | cons item rest ih =>
      by_cases hfresh : Fresh key earlier item
      · rw [firstsFrom_cons_of_fresh hfresh, List.pairwise_cons]
        refine ⟨fun other hother => ?_, ih _⟩
        exact (fresh_of_mem_firstsFrom hother item (by simp)).symm
      · rw [firstsFrom_cons_of_not_fresh hfresh]
        exact ih _

/-- The keys kept are distinct. -/
theorem pairwise_firsts (items : List α) :
    (firsts key items).Pairwise fun left right => key left ≠ key right :=
  pairwise_firstsFrom [] items

theorem exists_mem_firstsFrom (earlier : List α) {items : List α} {item : α} (h : item ∈ items) :
    ¬Fresh key earlier item ∨ ∃ kept ∈ firstsFrom key earlier items, key kept = key item := by
  induction items generalizing earlier with
  | nil => exact absurd h List.not_mem_nil
  | cons head rest ih =>
      by_cases hsame : key head = key item
      · by_cases hfresh : Fresh key earlier head
        · rw [firstsFrom_cons_of_fresh hfresh]
          exact .inr ⟨head, List.mem_cons_self, hsame⟩
        · refine .inl fun hitem => hfresh ?_
          intro other hother
          rw [hsame]
          exact hitem other hother
      · have hrest : item ∈ rest := by
          rcases List.mem_cons.mp h with rfl | h
          · exact absurd rfl hsame
          · exact h
        have hpart : ∀ kept ∈ firstsFrom key (earlier ++ [head]) rest,
            kept ∈ firstsFrom key earlier (head :: rest) := by
          intro kept hkept
          by_cases hfresh : Fresh key earlier head
          · rw [firstsFrom_cons_of_fresh hfresh]
            exact List.mem_cons_of_mem _ hkept
          · rwa [firstsFrom_cons_of_not_fresh hfresh]
        rcases ih (earlier ++ [head]) hrest with hstale | ⟨kept, hkept, hkey⟩
        · refine .inl fun hfresh => hstale ?_
          intro other hother
          rcases List.mem_append.mp hother with hother | hother
          · exact hfresh other hother
          · rw [List.mem_singleton.mp hother]
            exact Ne.symm hsame
        · exact .inr ⟨kept, hpart kept hkept, hkey⟩

/-- Every key there is is kept. -/
theorem exists_mem_firsts {items : List α} {item : α} (h : item ∈ items) :
    ∃ kept ∈ firsts key items, key kept = key item :=
  (exists_mem_firstsFrom [] h).resolve_left fun hstale => hstale fun _ hother =>
    absurd hother List.not_mem_nil

theorem firstsFrom_of_pairwise {earlier items : List α}
    (h : (earlier ++ items).Pairwise fun left right => key left ≠ key right) :
    firstsFrom key earlier items = items := by
  induction items generalizing earlier with
  | nil => rfl
  | cons item rest ih =>
      have hfresh : Fresh key earlier item := by
        intro other hother
        exact ((List.pairwise_append.mp h).2.2 other hother item List.mem_cons_self).symm
      rw [firstsFrom_cons_of_fresh hfresh, ih (by rwa [List.append_assoc])]

/-- A second pass drops nothing. -/
theorem firsts_idem (items : List α) : firsts key (firsts key items) = firsts key items :=
  firstsFrom_of_pairwise (pairwise_firsts items)

/-- A map that keeps keys commutes with the pass. -/
theorem firsts_map {change : α → α} (h : ∀ item, key (change item) = key item) (items : List α) :
    firsts key (items.map change) = (firsts key items).map change := by
  have hfrom : ∀ earlier : List α, firstsFrom key (earlier.map change) (items.map change) =
      (firstsFrom key earlier items).map change := by
    induction items with
    | nil => exact fun _ => rfl
    | cons item rest ih =>
        intro earlier
        have hmap : Fresh key (earlier.map change) (change item) ↔ Fresh key earlier item := by
          simp [Fresh, h]
        have hlater := ih (earlier ++ [item])
        rw [List.map_append, List.map_singleton] at hlater
        rw [List.map_cons]
        by_cases hfresh : Fresh key earlier item
        · rw [firstsFrom_cons_of_fresh hfresh, firstsFrom_cons_of_fresh (hmap.mpr hfresh), hlater,
            List.map_cons]
        · rw [firstsFrom_cons_of_not_fresh hfresh, firstsFrom_cons_of_not_fresh (mt hmap.mp hfresh),
            hlater]
  exact hfrom []

end Library
end EslTokio
