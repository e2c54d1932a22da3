import EslTokio.Library.Search
import EslTokio.Library.Text

/-!
# Blocks of lines

A block is a sequence of non-empty lines, each followed by a terminator, and it ends at the first
blank line.  What follows the blank line is opaque, so a reader that searches for two terminators in
a row must stop at the block's own end whatever the payload holds.

* `renderLines` — the lines, each with its terminator.
* **`find_blankLine`** — the first double terminator is the one that closes the block.
* `encode_renderLines`, `BlockLines.encode` — the same block as bytes.
* **`lines_renderLines_dropLast`** — a text block splits back into its lines.
-/

namespace EslTokio
namespace Library

section Generic

variable {α : Type*}

/-- Lines, each followed by the terminator. -/
def renderLines (terminator : α) (lines : List (List α)) : List α :=
  lines.flatMap fun line => line ++ [terminator]

@[simp] theorem renderLines_nil (terminator : α) : renderLines terminator [] = [] := rfl

@[simp] theorem renderLines_cons (terminator : α) (line : List α) (lines : List (List α)) :
    renderLines terminator (line :: lines) = line ++ terminator ::
      renderLines terminator lines := by
  simp [renderLines]

@[simp] theorem renderLines_append (terminator : α) (left right : List (List α)) :
    renderLines terminator (left ++ right) =
      renderLines terminator left ++ renderLines terminator right := by
  simp [renderLines]

theorem renderLines_ne_nil {terminator : α} {lines : List (List α)} (h : lines ≠ []) :
    renderLines terminator lines ≠ [] := by
  cases lines with
  | nil => exact absurd rfl h
  | cons line lines => simp

/-- A block ends in its terminator. -/
theorem dropLast_renderLines_append {terminator : α} {lines : List (List α)} (h : lines ≠ []) :
    (renderLines terminator lines).dropLast ++ [terminator] = renderLines terminator lines := by
  obtain ⟨init, last, rfl⟩ := List.eq_nil_or_concat lines |>.resolve_left h
  simp

/-- A block without its last terminator: the line alone, or the line in front of the rest. -/
theorem dropLast_renderLines_cons (terminator : α) (line : List α) (lines : List (List α)) :
    (renderLines terminator (line :: lines)).dropLast =
      if lines = [] then line
      else line ++ terminator :: (renderLines terminator lines).dropLast := by
  rw [renderLines_cons]
  split
  · rename_i hlines
    subst hlines
    simp
  · rename_i hlines
    have hne : renderLines terminator lines ≠ [] := renderLines_ne_nil hlines
    rw [List.dropLast_append_of_ne_nil (by simp), List.dropLast_cons_of_ne_nil hne]

/-- Every line of a block is non-empty and free of the terminator. -/
def BlockLines (terminator : α) (lines : List (List α)) : Prop :=
  ∀ line ∈ lines, line ≠ [] ∧ terminator ∉ line

variable [DecidableEq α]

/-- A single terminator is passed over. -/
theorem find_skip_line {terminator : α} {line rest : List α} (hline : terminator ∉ line)
    (hrest : rest.head? ≠ some terminator) :
    Search.find [terminator, terminator] (line ++ terminator :: rest) =
      (Search.find [terminator, terminator] rest).map (line.length + 1 + ·) := by
  induction line with
  | nil =>
      have hprefix : ¬[terminator, terminator].isPrefixOf (terminator :: rest) = true := by
        cases rest with
        | nil => simp [List.isPrefixOf]
        | cons head tail =>
            intro hboth
            simp only [List.isPrefixOf, BEq.rfl, Bool.true_and, Bool.and_true,
              beq_iff_eq] at hboth
            exact hrest (by rw [← hboth]; rfl)
      rw [List.nil_append, Search.find, if_neg hprefix]
      congr 1
      funext offset
      simp [Nat.add_comm]
  | cons head line ih =>
      have hhead : terminator ≠ head := fun heq => hline (by simp [heq])
      have htail : terminator ∉ line := fun hmem => hline (by simp [hmem])
      have hprefix : ¬[terminator, terminator].isPrefixOf
          (head :: (line ++ terminator :: rest)) = true := by
        simp [List.isPrefixOf, hhead]
      rw [List.cons_append, Search.find, if_neg hprefix, ih htail, Option.map_map]
      congr 1
      funext offset
      simp only [Function.comp_apply, List.length_cons]
      omega

/-- A blank line is found right behind the line it follows. -/
theorem find_last_line {terminator : α} {line : List α} (hline : terminator ∉ line)
    (rest : List α) :
    Search.find [terminator, terminator] (line ++ terminator :: terminator :: rest) =
      some line.length := by
  induction line with
  | nil => simp [Search.find, List.isPrefixOf]
  | cons head line ih =>
      have hhead : terminator ≠ head := fun heq => hline (by simp [heq])
      have htail : terminator ∉ line := fun hmem => hline (by simp [hmem])
      have hprefix : ¬[terminator, terminator].isPrefixOf
          (head :: (line ++ terminator :: terminator :: rest)) = true := by
        simp [List.isPrefixOf, hhead]
      rw [List.cons_append, Search.find, if_neg hprefix, ih htail]
      rfl

/-- **The first double terminator closes the block**, whatever follows it. -/
theorem find_blankLine {terminator : α} {lines : List (List α)} (hne : lines ≠ [])
    (hlines : BlockLines terminator lines) (rest : List α) :
    Search.find [terminator, terminator] (renderLines terminator lines ++ terminator :: rest) =
      some ((renderLines terminator lines).length - 1) := by
  induction lines with
  | nil => exact absurd rfl hne
  | cons line lines ih =>
      have hline := (hlines line (by simp)).2
      rw [renderLines_cons, List.append_assoc, List.cons_append]
      cases lines with
      | nil =>
          rw [renderLines_nil, List.nil_append, find_last_line hline]
          simp
      | cons next lines =>
          have hnext := hlines next (by simp)
          have hhead : (renderLines terminator (next :: lines) ++ terminator :: rest).head? ≠
              some terminator := by
            obtain ⟨first, more, hcons⟩ := List.exists_cons_of_ne_nil hnext.1
            rw [renderLines_cons, hcons, List.cons_append, List.cons_append, List.head?_cons]
            intro heq
            apply hnext.2
            rw [hcons, Option.some.inj heq]
            exact List.mem_cons_self
          rw [find_skip_line hline hhead,
            ih (List.cons_ne_nil _ _) fun other hmem => hlines other (List.mem_cons_of_mem _ hmem)]
          have hpos : 0 < (renderLines terminator (next :: lines)).length :=
            List.length_pos_iff.mpr (renderLines_ne_nil (List.cons_ne_nil next lines))
          simp only [Option.map_some, List.length_append, List.length_cons]
          congr 1
          omega

end Generic

/-- The bytes of a block are the block of its lines' bytes. -/
theorem encode_renderLines (lines : List Text) :
    Utf8.encode (renderLines '\n' lines) = renderLines 0x0A (lines.map Utf8.encode) := by
  induction lines with
  | nil => rfl
  | cons line lines ih =>
      have hfeed : Utf8.encode ('\n' :: renderLines '\n' lines) =
          0x0A :: Utf8.encode (renderLines '\n' lines) := rfl
      rw [renderLines_cons, Utf8.encode_append, hfeed, ih, List.map_cons, renderLines_cons]

theorem BlockLines.encode {lines : List Text} (h : BlockLines '\n' lines) :
    BlockLines 0x0A (lines.map Utf8.encode) := by
  intro bytes hbytes
  obtain ⟨line, hline, rfl⟩ := List.mem_map.mp hbytes
  exact ⟨Utf8.encode_ne_nil (h line hline).1, Utf8.lineFeed_notMem_encode (h line hline).2⟩

namespace Text

theorem linesFrom_append {line : Text} (hline : '\n' ∉ line) (current rest : Text) :
    linesFrom current (line ++ rest) = linesFrom (current ++ line) rest := by
  induction line generalizing current with
  | nil => simp
  | cons c line ih =>
      have hc : c ≠ '\n' := fun heq => hline (by simp [heq])
      have htail : '\n' ∉ line := fun hmem => hline (by simp [hmem])
      rw [List.cons_append, linesFrom, if_neg hc, ih htail]
      simp

/-- **A block splits back into its lines**, when none of them ends in a carriage return. -/
theorem lines_renderLines_dropLast {block : List Text} (hlines : BlockLines '\n' block)
    (hcr : ∀ line ∈ block, stripSuffix '\r' line = line) :
    lines (renderLines '\n' block).dropLast = block := by
  induction block with
  | nil => rfl
  | cons line block ih =>
      have hline := hlines line (by simp)
      have hrest : BlockLines '\n' block :=
        fun other hmem => hlines other (List.mem_cons_of_mem _ hmem)
      rw [dropLast_renderLines_cons]
      split
      · rename_i hblock
        subst hblock
        rw [lines, ← List.append_nil line, linesFrom_append hline.2]
        simp [linesFrom, hline.1]
      · rw [lines, linesFrom_append hline.2, linesFrom, if_pos rfl, List.nil_append,
          hcr line (by simp), ← lines, ih hrest fun other hmem => hcr other (by simp [hmem])]

/-- No line of a text holds a line feed. -/
theorem newline_notMem_of_mem_lines {text line : Text}
    (h : line ∈ lines text) : '\n' ∉ line := by
  suffices hfrom : ∀ (text current : Text), '\n' ∉ current →
      ∀ line ∈ linesFrom current text, '\n' ∉ line from
    hfrom text [] List.not_mem_nil line h
  intro text
  induction text with
  | nil =>
      intro current hcurrent line hline
      rw [linesFrom] at hline
      split at hline
      · cases hline
      · rwa [List.mem_singleton.mp hline]
  | cons c rest ih =>
      intro current hcurrent line hline
      rw [linesFrom] at hline
      split at hline
      · rcases List.mem_cons.mp hline with rfl | hline
        · exact fun hmem => hcurrent (mem_of_mem_stripSuffix hmem)
        · exact ih [] List.not_mem_nil line hline
      · rename_i hc
        refine ih (current ++ [c]) ?_ line hline
        simp [hcurrent, Ne.symm hc]

end Text
end Library
end EslTokio
