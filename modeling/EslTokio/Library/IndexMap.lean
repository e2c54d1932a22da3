import Mathlib.Data.List.Nodup
import Mathlib.Tactic.Common

/-!
# Insertion-ordered maps

A map that iterates in insertion order: writing to a present key replaces the value in place, and
writing to a new key appends it.  The key list has no duplicates, carried as a field.
-/

namespace EslTokio
namespace Library

/-- An insertion-ordered map. -/
structure IndexMap (κ : Type*) (ν : Type*) where
  /-- The entries, oldest key first. -/
  entries : List (κ × ν)
  /-- Every key occurs once. -/
  nodup : (entries.map Prod.fst).Nodup

namespace IndexMap

variable {κ ν : Type*}

@[ext] theorem ext {left right : IndexMap κ ν} (h : left.entries = right.entries) :
    left = right := by
  cases left
  cases right
  simp only at h
  subst h
  rfl

instance [DecidableEq κ] [DecidableEq ν] : DecidableEq (IndexMap κ ν) := fun left right =>
  decidable_of_iff (left.entries = right.entries) ⟨ext, fun h => by rw [h]⟩

/-- The empty map. -/
def empty : IndexMap κ ν := ⟨[], List.nodup_nil⟩

variable [DecidableEq κ]

/-- Write a value over the entry of `key`, or behind the last entry when there is none. -/
def insertEntry (key : κ) (value : ν) : List (κ × ν) → List (κ × ν)
  | [] => [(key, value)]
  | entry :: rest =>
      if entry.1 = key then (key, value) :: rest
      else entry :: insertEntry key value rest

theorem mem_map_fst_insertEntry {key other : κ} {value : ν} {entries : List (κ × ν)} :
    other ∈ (insertEntry key value entries).map Prod.fst ↔
      other = key ∨ other ∈ entries.map Prod.fst := by
  induction entries with
  | nil => simp [insertEntry]
  | cons entry rest ih =>
      by_cases hkey : entry.1 = key
      · rw [insertEntry, if_pos hkey]
        simp [hkey]
      · simp only [insertEntry, if_neg hkey, List.map_cons, List.mem_cons, ih]
        tauto

theorem nodup_insertEntry {key : κ} {value : ν} {entries : List (κ × ν)}
    (h : (entries.map Prod.fst).Nodup) : ((insertEntry key value entries).map Prod.fst).Nodup := by
  induction entries with
  | nil => simp [insertEntry]
  | cons entry rest ih =>
      rw [List.map_cons, List.nodup_cons] at h
      by_cases hkey : entry.1 = key
      · simpa [insertEntry, hkey] using h
      · rw [insertEntry, if_neg hkey, List.map_cons, List.nodup_cons, mem_map_fst_insertEntry]
        refine ⟨?_, ih h.2⟩
        rintro (heq | hmem)
        · exact hkey heq
        · exact h.1 hmem

/-- Insert or overwrite. -/
def insert (key : κ) (value : ν) (map : IndexMap κ ν) : IndexMap κ ν :=
  ⟨insertEntry key value map.entries, nodup_insertEntry map.nodup⟩

/-- The value stored under `key`. -/
def get? (map : IndexMap κ ν) (key : κ) : Option ν :=
  (map.entries.find? (·.1 = key)).map Prod.snd

/-- A new key is appended. -/
theorem insertEntry_of_notMem {key : κ} {value : ν} {entries : List (κ × ν)}
    (h : key ∉ entries.map Prod.fst) :
    insertEntry key value entries = entries ++ [(key, value)] := by
  induction entries with
  | nil => rfl
  | cons entry rest ih =>
      rw [List.map_cons, List.mem_cons, not_or] at h
      rw [insertEntry, if_neg (Ne.symm h.1), ih h.2, List.cons_append]

/-- Inserting pairs with distinct new keys, in order, appends them. -/
theorem entries_foldl_insert (pairs : List (κ × ν)) (map : IndexMap κ ν)
    (h : ((map.entries ++ pairs).map Prod.fst).Nodup) :
    (pairs.foldl (fun map pair => map.insert pair.1 pair.2) map).entries =
    map.entries ++ pairs := by
  induction pairs generalizing map with
  | nil => simp
  | cons pair pairs ih =>
      have hnew : pair.1 ∉ map.entries.map Prod.fst := by
        rw [List.map_append, List.map_cons] at h
        intro hmem
        exact (List.nodup_append.mp h).2.2 pair.1 hmem pair.1 List.mem_cons_self rfl
      have hinsert : (map.insert pair.1 pair.2).entries = map.entries ++ [pair] :=
        insertEntry_of_notMem hnew
      rw [List.foldl_cons, ih _ (by rw [hinsert]; simpa using h), hinsert]
      simp

/-- `shift_remove`: the entry of `key` goes, and the later ones move up. -/
def shiftRemove (key : κ) (map : IndexMap κ ν) : IndexMap κ ν :=
  ⟨map.entries.filter fun entry => entry.1 ≠ key,
    map.nodup.sublist (List.filter_sublist.map Prod.fst)⟩

theorem get?_insert (map : IndexMap κ ν) (key other : κ) (value : ν) :
    (map.insert key value).get? other = if other = key then some value else map.get? other := by
  have hentries : ∀ entries : List (κ × ν),
      ((insertEntry key value entries).find? (·.1 = other)).map Prod.snd =
        if other = key then some value else (entries.find? (·.1 = other)).map Prod.snd := by
    intro entries
    induction entries with
    | nil =>
        by_cases hother : other = key
        · simp [insertEntry, hother]
        · simp [insertEntry, hother, Ne.symm hother]
    | cons entry rest ih =>
        rw [insertEntry]
        by_cases hentry : entry.1 = key
        · by_cases hother : other = key
          · simp [hentry, hother]
          · simp [hentry, hother, Ne.symm hother]
        · by_cases hother : entry.1 = other
          · have hne : other ≠ key := fun heq => hentry (hother.trans heq)
            simp [hother, hne]
          · simp [hentry, hother, ih]
  exact hentries map.entries

theorem get?_shiftRemove (map : IndexMap κ ν) (key other : κ) :
    (map.shiftRemove key).get? other = if other = key then none else map.get? other := by
  have hentries : ∀ entries : List (κ × ν),
      ((entries.filter fun entry => entry.1 ≠ key).find? (·.1 = other)).map Prod.snd =
        if other = key then none else (entries.find? (·.1 = other)).map Prod.snd := by
    intro entries
    induction entries with
    | nil => simp
    | cons entry rest ih =>
        by_cases hentry : entry.1 = key
        · rw [List.filter_cons_of_neg (by simp [hentry]), ih]
          by_cases hother : other = key
          · simp [hother]
          · simp [hother, hentry, Ne.symm hother]
        · rw [List.filter_cons_of_pos (by simp [hentry])]
          by_cases hother : entry.1 = other
          · have hne : other ≠ key := fun heq => hentry (hother.trans heq)
            simp [hother, hne]
          · rw [List.find?_cons_of_neg (by simp [hother]), ih,
              List.find?_cons_of_neg (by simp [hother])]
  exact hentries map.entries

theorem mem_keys_of_get? {map : IndexMap κ ν} {key : κ} {value : ν}
    (h : map.get? key = some value) :
    key ∈ map.entries.map Prod.fst := by
  obtain ⟨entry, hfound, -⟩ := Option.map_eq_some_iff.mp h
  have hkey : entry.1 = key := by simpa using List.find?_some hfound
  exact hkey ▸ List.mem_map_of_mem (List.mem_of_find?_eq_some hfound)

end IndexMap
end Library
end EslTokio
