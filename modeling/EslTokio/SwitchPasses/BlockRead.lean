import Mathlib.Data.List.Forall2
import EslTokio.SwitchPasses.Brackets
import EslTokio.SwitchPasses.Spelling

/-!
# A block read in place

What `parseBlock` reads of a block whose text is known, wherever in a buffer the block stands, and
that it changes no entry outside the block.

* `Slots.cStr` — the strings a split left are read back from their slots.
* `PairReads`, `SplitReads`, `DataReads` — what the `=` split and the pair split read of a text, in
  place.
* **`parseBlock_inPlace`** — the block read of a balanced text.
-/

namespace EslTokio
namespace SwitchPasses

open Library

/-- Strings in slots are read from where they start. -/
theorem Slots.cStr {base : Nat} {body : List Traced} {starts : List Nat}
    {texts : List (List Traced)}
    (h : Slots base body starts texts) (pre post : List Traced) (hbase : pre.length = base) :
    List.Forall₂ (fun start text => (CBuffer.mk (pre ++ body ++ post)).cStr start = text) starts
      texts := by
  induction h generalizing pre with
  | nil => exact .nil
  | @cons base lead text junk rest nul starts texts htext hnul hrest ih =>
      refine .cons ?_ ?_
      · have hbuffer : pre ++ (lead ++ text ++ nul :: junk ++ rest) ++ post =
            (pre ++ lead) ++ text ++ nul :: (junk ++ rest ++ post) := by simp
        rw [hbuffer, ← hbase, ← List.length_append]
        exact cStr_append htext hnul
      · have hlater := ih (pre ++ (lead ++ text ++ nul :: junk))
          (by rw [List.length_append, hbase])
        simpa only [List.append_assoc, List.cons_append] using hlater

/-- What the `=` split reads of a token, wherever it stands. -/
def PairReads (blockParse : BlockParse) (text : List Traced) (read : Pair) : Prop :=
  ∀ (pre post : List Traced) (nul : Traced), nul.char = '\x00' →
    ∃ body, body.length = text.length + 1 ∧
      pair ⟨pre ++ text ++ nul :: post⟩ pre.length blockParse = (⟨pre ++ body ++ post⟩, read)

/-- What the pair split and the `=` splits read of a block's data, wherever it stands. -/
def DataReads (blockParse : BlockParse) (comma : Char) (data : List Traced) (pairs : List Pair) :
    Prop :=
  ∀ (pre post : List Traced) (nul : Traced), nul.char = '\x00' →
    ∃ body delim, body.length = data.length + 1 ∧
      readData blockParse ⟨pre ++ data ++ nul :: post⟩ pre.length comma =
        ⟨⟨pre ++ body ++ post⟩, delim, pairs, false⟩

theorem chars_eq_append {cells : List Traced} {left right : Text}
    (h : chars cells = left ++ right) :
    ∃ first second, cells = first ++ second ∧ chars first = left ∧ chars second = right :=
  List.map_eq_append_iff.mp h

theorem chars_eq_cons {cells : List Traced} {c : Char} {right : Text}
    (h : chars cells = c :: right) :
    ∃ cell second, cells = cell :: second ∧ cell.char = c ∧ chars second = right :=
  List.map_eq_cons_iff.mp h

/-- The value a pair's text leaves. -/
def valueEffect : Text → PairEffect
  | [] => .cleared
  | value => .set value

/-- The `=` split of a pair whose key it does not cut. -/
theorem pair_inPlace {lo : Nat} {s : List Traced} {left right key value : Text}
    (hspelled : Spelled 0 lo s) (hfree : NulFree s) (hchars : chars s = left ++ '=' :: right)
    (hhead : Headless (chars s)) (hleft : left ≠ []) (hright : right ≠ [])
    (hthrough : Through '=' false left) (htrimmed : Trimmed left) (htrimmed' : Trimmed right)
    (hkey : written (some '=') false left = spell key)
    (hvalue : written (some '=') false right = spell value) (blockParse : BlockParse) :
    PairReads blockParse s ⟨key, valueEffect value⟩ := by
  intro pre post nul hnul
  obtain ⟨first, second, rfl, hfirst, hsecond⟩ := chars_eq_append hchars
  obtain ⟨cell, second, rfl, hcell, hsecond⟩ := chars_eq_cons hsecond
  have hascii : cell.char.toNat < 128 := by
    rw [hcell]
    decide
  obtain ⟨hspelled₁, hspelled₂⟩ := hspelled.append (ne_continuation hascii)
  have hspelled₂ := hspelled₂.tail_mono hascii
  have hne : first ≠ [] := by
    rintro rfl
    exact hleft hfirst.symm
  have hne' : second ≠ [] := by
    rintro rfl
    exact hright hsecond.symm
  have hpieces : Pieces '=' (some 2) (first ++ cell :: second) [first, second] := by
    refine .cut hne hfree.append_left (by rwa [hfirst]) rfl hcell ?_
    exact .last hne' (fun c hc => hfree c (by simp [hc])) (.inl rfl)
  have hcutting : Cutting '=' := by
    constructor <;> decide
  obtain ⟨body, tokens, hinto⟩ :=
    separate_inPlace hcutting (by decide) hpieces hfree hhead pre post hnul
  refine ⟨body, hinto.length, ?_⟩
  have hascii' : ∀ d ∈ some '=', d.toNat < 128 := by
    rintro d hd
    cases hd
    decide
  have hread := hinto.slots.cStr pre post rfl
  obtain ⟨token, token', rfl⟩ : ∃ token token', tokens = [token, token'] := by
    have hlength := hread.length_eq
    simp only [List.length_map, List.length_cons, List.length_nil] at hlength
    exact List.length_eq_two.mp hlength
  simp only [List.map_cons, List.map_nil, List.forall₂_cons, List.Forall₂.nil, and_true] at hread
  have hkeyText : untrace (cleanup first (some '=')) = key :=
    untrace_eq (hspelled₁.cleanup hascii' (by rwa [hfirst]))
      (by rw [chars_cleanup _ (by rwa [hfirst]), hfirst, hkey])
  have hvalueText : untrace (cleanup second (some '=')) = value :=
    untrace_eq (hspelled₂.cleanup hascii' (by rwa [hsecond]))
      (by rw [chars_cleanup _ (by rwa [hsecond]), hsecond, hvalue])
  have hsplit : blockSplit ⟨pre ++ (first ++ cell :: second) ++ nul :: post⟩ pre.length '=' (some 2)
      blockParse = (⟨pre ++ body ++ post⟩, ⟨[token, token'], '=', false, false, false⟩) := by
    cases blockParse
    exact hinto.result_eq
  rw [pair, hsplit]
  simp only [Bool.false_eq_true, if_false, List.head?_cons, Option.elim_some, hread.1, hread.2,
    hkeyText, hvalueText]
  cases value <;> rfl

/-- The pairs of tokens in slots, each read in its own. -/
theorem readPairs_inPlace {blockParse : BlockParse} {base : Nat} {body : List Traced}
    {starts : List Nat} {texts : List (List Traced)} (hslots : Slots base body starts texts)
    {tokens : List SplitToken} (htokens : tokens.map (·.start) = starts) {pairs : List Pair}
    (hpairs : List.Forall₂ (PairReads blockParse) texts pairs)
    (hreadable : ∀ read ∈ pairs, read.effect ≠ .unreadable) (pre post : List Traced)
    (hbase : pre.length = base) :
    ∃ body', body'.length = body.length ∧
      readPairs blockParse ⟨pre ++ body ++ post⟩ tokens =
        (⟨pre ++ body' ++ post⟩, pairs, false) := by
  induction hslots generalizing tokens pairs pre with
  | nil base =>
      cases hpairs
      obtain rfl := List.map_eq_nil_iff.mp htokens
      exact ⟨[], rfl, rfl⟩
  | @cons base lead text junk rest nul starts texts htext hnul hrest ih =>
      cases hpairs with
      | @cons _ read _ pairs hread hpairs =>
      obtain ⟨token, tokens, rfl, htoken, htokens⟩ := List.map_eq_cons_iff.mp htokens
      obtain ⟨hfirst, hlater⟩ := List.forall_mem_cons.mp hreadable
      obtain ⟨slot, hslot, hpair⟩ := hread (pre ++ lead) (junk ++ rest ++ post) nul hnul
      have hlength : (pre ++ (lead ++ slot ++ junk)).length =
          base + (lead ++ text ++ nul :: junk).length := by
        simp only [List.length_append, List.length_cons] at hslot ⊢
        omega
      obtain ⟨rest', hrest', hrun⟩ := ih htokens hpairs hlater _ hlength
      refine ⟨lead ++ slot ++ junk ++ rest', ?_, ?_⟩
      · simp only [List.length_append, List.length_cons] at hslot ⊢
        omega
      · have hbuffer : pre ++ (lead ++ text ++ nul :: junk ++ rest) ++ post =
            (pre ++ lead) ++ text ++ nul :: (junk ++ rest ++ post) := by simp
        have hstart : token.start = (pre ++ lead).length := by
          rw [htoken, List.length_append, hbase]
        have hbuffer' : pre ++ lead ++ slot ++ (junk ++ rest ++ post) =
            pre ++ (lead ++ slot ++ junk) ++ rest ++ post := by simp
        rw [readPairs, hbuffer, hstart, hpair, hbuffer']
        simp only [hrun, hfirst, decide_false, Bool.and_false, Bool.or_false]
        rw [List.append_assoc pre _ rest']

/-- What a pair split at a delimiter and the `=` splits read of a text, wherever it stands. -/
def SplitReads (blockParse : BlockParse) (delim : Char) (text : List Traced) (pairs : List Pair) :
    Prop :=
  ∀ (pre post : List Traced) (nul : Traced), nul.char = '\x00' →
    ∃ body, body.length = text.length + 1 ∧
      ∃ tokens split, blockSplit ⟨pre ++ text ++ nul :: post⟩ pre.length delim (some blockPairs)
          blockParse = (⟨pre ++ split ++ post⟩, ⟨tokens, delim, false, false, false⟩) ∧
        readPairs blockParse ⟨pre ++ split ++ post⟩ tokens = (⟨pre ++ body ++ post⟩, pairs, false)

/-- Data cut into pieces is read as the pairs of its pieces. -/
theorem splitReads_pieces {blockParse : BlockParse} {delim : Char} (hdelim : Cutting delim)
    {s : List Traced} {ps : List (List Traced)} {pairs : List Pair}
    (hpieces : Pieces delim (some blockPairs) s ps) (hfree : NulFree s) (hhead : Headless (chars s))
    (hpairs : List.Forall₂ (fun p read =>
      PairReads blockParse (cleanup p (some delim)) read) ps pairs)
    (hreadable : ∀ read ∈ pairs, read.effect ≠ .unreadable) :
    SplitReads blockParse delim s pairs := by
  intro pre post nul hnul
  obtain ⟨split, tokens, hinto⟩ :=
    separate_inPlace hdelim (by decide) hpieces hfree hhead pre post hnul
  obtain ⟨body, hbody, hread⟩ := readPairs_inPlace hinto.slots rfl
    (List.forall₂_map_left_iff.mpr hpairs) hreadable pre post rfl
  refine ⟨body, by rw [hbody, hinto.length], tokens, split, ?_, hread⟩
  cases blockParse
  exact hinto.result_eq

/-- A split of nothing cuts nothing. -/
theorem splitReads_nil (blockParse : BlockParse) {delim : Char} (hdelim : Cutting delim) :
    SplitReads blockParse delim [] [] := by
  intro pre post nul hnul
  have hstr : (CBuffer.mk (pre ++ nul :: post)).cStr pre.length = [] := by
    have hempty : (CBuffer.mk (pre ++ [] ++ nul :: post)).cStr pre.length = [] :=
      cStr_append (fun c hc => absurd hc List.not_mem_nil) hnul
    rwa [List.append_nil] at hempty
  have hcut : charDelim (chars ((pre ++ nul :: post).drop pre.length)) delim (some blockPairs) =
      ⟨[], false, false⟩ := by
    rw [List.drop_left, chars_cons, hnul, charDelim]
    unfold charDelimFrom
    rfl
  refine ⟨[nul], rfl, [], [nul], ?_, ?_⟩
  · cases blockParse
    rw [List.append_nil, blockSplit, CBuffer.separate, hstr, CBuffer.split]
    simp only [hcut, if_neg hdelim.ne_space, List.append_assoc, List.singleton_append]
    rfl
  · rfl

theorem charAt_pre (pre cells : List Traced) (i : Nat) :
    (CBuffer.mk (pre ++ cells)).charAt (pre.length + i) = (CBuffer.mk cells).charAt i := by
  rw [CBuffer.charAt, CBuffer.charAt, List.getElem?_append_right (Nat.le_add_right _ _),
    Nat.add_sub_cancel_left]

/-- Data that opens with no head is read with the delimiter it is handed. -/
theorem dataReads_headless {blockParse : BlockParse} {delim : Char} {s : List Traced}
    {pairs : List Pair} (hhead : Headless (chars s)) (h : SplitReads blockParse delim s pairs) :
    DataReads blockParse delim s pairs := by
  intro pre post nul hnul
  obtain ⟨body, hbody, tokens, split, hsplit, hread⟩ := h pre post nul hnul
  have hheaded : ¬ ((CBuffer.mk (pre ++ s ++ nul :: post)).charAt pre.length = '^' ∧
      (CBuffer.mk (pre ++ s ++ nul :: post)).charAt (pre.length + 1) = '^') := by
    rw [List.append_assoc, ← Nat.add_zero pre.length, Nat.add_zero pre.length, charAt_pre,
      show (CBuffer.mk (pre ++ (s ++ nul :: post))).charAt pre.length =
        (CBuffer.mk (s ++ nul :: post)).charAt 0 from charAt_pre pre (s ++ nul :: post) 0]
    rintro ⟨hzero, hone⟩
    apply hhead
    cases s with
    | nil => simp [CBuffer.charAt, hnul] at hzero
    | cons first s =>
        cases s with
        | nil => simp [CBuffer.charAt, hnul] at hone
        | cons second s =>
            simp only [CBuffer.charAt, List.cons_append, List.getElem?_cons_zero,
              List.getElem?_cons_succ, Option.elim_some] at hzero hone
            simp [hzero, hone]
  refine ⟨body, delim, hbody, ?_⟩
  rw [readData]
  simp only [hheaded, if_false, hsplit, Bool.false_eq_true, hread]

/-- Data behind a head is read with the delimiter the head names. -/
theorem dataReads_headed {blockParse : BlockParse} {comma delim : Char} {s head : List Traced}
    {pairs : List Pair} (hnamed : chars head = ['^', '^', delim])
    (h : SplitReads blockParse delim s pairs) : DataReads blockParse comma (head ++ s) pairs := by
  intro pre post nul hnul
  obtain ⟨body, hbody, tokens, split, hsplit, hread⟩ := h (pre ++ head) post nul hnul
  obtain ⟨first, head, rfl, hfirst, hnamed⟩ := chars_eq_cons hnamed
  obtain ⟨second, head, rfl, hsecond, hnamed⟩ := chars_eq_cons hnamed
  obtain ⟨third, head, rfl, hthird, hnamed⟩ := chars_eq_cons hnamed
  obtain rfl := List.map_eq_nil_iff.mp hnamed
  have hbuffer : pre ++ ([first, second, third] ++ s) ++ nul :: post =
      (pre ++ [first, second, third]) ++ s ++ nul :: post := by simp
  have hcells : (pre ++ [first, second, third]) ++ s ++ nul :: post =
      pre ++ (first :: second :: third :: (s ++ nul :: post)) := by simp
  have hzero : (CBuffer.mk ((pre ++ [first, second, third]) ++ s ++ nul :: post)).charAt
      pre.length =
      '^' := by
    rw [hcells]
    exact (charAt_pre pre _ 0).trans hfirst
  have hone : (CBuffer.mk ((pre ++ [first, second, third]) ++ s ++ nul :: post)).charAt
      (pre.length + 1) = '^' := by
    rw [hcells]
    exact (charAt_pre pre _ 1).trans hsecond
  have htwo : (CBuffer.mk ((pre ++ [first, second, third]) ++ s ++ nul :: post)).charAt
      (pre.length + 2) = delim := by
    rw [hcells]
    exact (charAt_pre pre _ 2).trans hthird
  have hindex : pre.length + 3 = (pre ++ [first, second, third]).length := by
    rw [List.length_append]
    rfl
  refine ⟨[first, second, third] ++ body, delim, ?_, ?_⟩
  · simp only [List.length_append, List.length_cons, List.length_nil] at hbody ⊢
    omega
  · rw [hbuffer, readData]
    simp only [hzero, hone, htwo, and_self, if_true, hindex, hsplit, Bool.false_eq_true, if_false,
      hread]
    rw [List.append_assoc pre]

/-! ### The end of a block -/

/-- The close of a text that leaves as many brackets open as it found. -/
theorem closeFrom_depth {opener closer : Char} (hne : opener ≠ closer) {x : Text}
    {depth depth' : Nat}
    (h : depthFrom opener closer depth x = some depth') (i : Nat) (rest : Text) :
    closeFrom opener closer i (depth + 1) (x ++ rest) =
      closeFrom opener closer (i + x.length) (depth' + 1) rest := by
  induction x generalizing depth i with
  | nil =>
      obtain rfl := Option.some.inj h
      rfl
  | cons c x ih =>
      unfold depthFrom at h
      rw [List.cons_append, closeFrom]
      have hlength : i + (c :: x).length = i + 1 + x.length := by
        rw [List.length_cons]
        omega
      by_cases hopen : c = opener
      · rw [if_pos hopen] at h
        rw [if_pos ⟨hopen, hne⟩, ih h, hlength]
      · rw [if_neg hopen] at h
        rw [if_neg fun hc => hopen hc.1]
        by_cases hclose : c = closer
        · rw [if_pos hclose] at h
          cases depth with
          | zero => cases h
          | succ depth => rw [if_pos hclose, if_neg (by omega), Nat.add_sub_cancel, ih h, hlength]
        · rw [if_neg hclose] at h
          rw [if_neg hclose, ih h, hlength]

theorem leadingSpaces_cons {c : Char} (h : c ≠ ' ') (x : Text) : leadingSpaces (c :: x) = 0 := by
  simp [leadingSpaces, h]

/-- A text with as many closes as opens, none of them early. -/
def Balanced (opener closer : Char) (x : Text) : Prop := depthFrom opener closer 0 x = some 0

theorem findEndParen_balanced {opener closer : Char} (hne : opener ≠ closer) (hspace : opener ≠ ' ')
    {x : Text} (h : Balanced opener closer x) (rest : Text) :
    findEndParen (opener :: (x ++ closer :: rest)) opener closer = some (x.length + 1) := by
  have hclose : closeFrom opener closer 1 1 (x ++ closer :: rest) = some (x.length + 1) := by
    rw [closeFrom_depth hne h 1, closeFrom, if_neg fun hc => hne hc.1.symm, if_pos rfl, if_pos rfl,
      Nat.add_comm]
  rw [findEndParen, leadingSpaces_cons hspace]
  simp [hclose]

/-- Nothing is read behind a block that another kind of text follows. -/
theorem followingBlock_none {pre rest post : List Traced} {nul : Traced} {opener closer : Char}
    (hfree : NulFree rest) (hnul : nul.char = '\x00')
    (hrest : ∀ c ∈ (chars rest).head?, c ≠ ' ' ∧ c ≠ opener) :
    followingBlock ⟨pre ++ rest ++ nul :: post⟩ pre.length opener closer = none := by
  rw [followingBlock, cStr_append hfree hnul]
  cases rest with
  | nil => rfl
  | cons cell rest =>
      obtain ⟨hspace, hopener⟩ := hrest cell.char rfl
      rw [chars_cons]
      simp [leadingSpaces_cons hspace, hopener]

/-- **What `parseBlock` reads of a block of balanced text, in place.** -/
theorem parseBlock_inPlace {blockParse : BlockParse} {opener closer comma : Char}
    (hne : opener ≠ closer) (hspace : opener ≠ ' ') {cell close nul : Traced}
    {data rest : List Traced} (hcell : cell.char = opener) (hclose : close.char = closer)
    (hnul : nul.char = '\x00') (hfree : NulFree (cell :: (data ++ close :: rest)))
    (hbalanced : Balanced opener closer (chars data))
    (hsep : (blockSeparator comma (chars data)).toNat < 128)
    (hrest : ∀ c ∈ (chars rest).head?, c ≠ ' ' ∧ c ≠ opener) {pairs : List Pair}
    (hdata : DataReads blockParse comma data pairs) (pre post : List Traced) :
    ∃ body, body.length = data.length + 2 ∧
      parseBlock ⟨pre ++ (cell :: (data ++ close :: rest)) ++ nul :: post⟩ pre.length opener closer
          comma blockParse =
        some (⟨pre ++ body ++ rest ++ nul :: post⟩,
          ⟨⟨opener, blockSeparator comma (chars data), pairs, false⟩,
            pre.length + (data.length + 2), false⟩) := by
  have hrestFree : NulFree rest := fun c hc => hfree c (by simp [hc])
  have hstr : (CBuffer.mk (pre ++ (cell :: (data ++ close :: rest)) ++ nul :: post)).cStr
      pre.length =
      cell :: (data ++ close :: rest) := cStr_append hfree hnul
  have htext : chars (cell :: (data ++ close :: rest)) =
      opener :: (chars data ++ closer :: chars rest) := by
    simp [hcell, hclose]
  have hfind : findEndParen (opener :: (chars data ++ closer :: chars rest)) opener closer =
      some (data.length + 1) := by
    rw [findEndParen_balanced hne hspace hbalanced, length_chars]
  have hinside : ((opener :: (chars data ++ closer :: chars rest)).drop 1).take data.length =
      chars data := by
    rw [List.drop_one, List.tail_cons, ← length_chars data, List.take_left]
  -- The close becomes the data's terminator, and everything behind it stays.
  have hterminate : (CBuffer.mk (pre ++ (cell :: (data ++ close :: rest)) ++ nul :: post)).terminate
      (pre.length + (data.length + 1)) =
        ⟨(pre ++ [cell]) ++ data ++ { close with char := '\x00' } :: (rest ++ nul :: post)⟩ := by
    have hbuffer : pre ++ (cell :: (data ++ close :: rest)) ++ nul :: post =
        (pre ++ [cell] ++ data) ++ close :: (rest ++ nul :: post) := by simp
    have hindex : pre.length + (data.length + 1) = (pre ++ [cell] ++ data).length := by
      simp only [List.length_append, List.length_cons, List.length_nil]
      omega
    rw [hbuffer, hindex, terminate_append]
  obtain ⟨body, delim, hbody, hread⟩ :=
    hdata (pre ++ [cell]) (rest ++ nul :: post) { close with char := '\x00' } rfl
  have hnext : pre.length + (data.length + 1) + 1 =
      (pre ++ [cell] ++ data ++ [{ close with char := '\x00' }]).length := by
    simp only [List.length_append, List.length_cons, List.length_nil]
    omega
  have hnext' : pre.length + (data.length + 1) + 1 = (pre ++ [cell] ++ body).length := by
    simp only [List.length_append, List.length_cons, List.length_nil]
    omega
  have hfollowing : followingBlock
      ⟨(pre ++ [cell]) ++ data ++ { close with char := '\x00' } :: (rest ++ nul :: post)⟩
      (pre.length + (data.length + 1) + 1) opener closer = none := by
    have hbuffer : (pre ++ [cell]) ++ data ++ { close with char := '\x00' } ::
      (rest ++ nul :: post) =
        (pre ++ [cell] ++ data ++ [{ close with char := '\x00' }]) ++ rest ++ nul :: post := by simp
    rw [hnext, hbuffer]
    exact followingBlock_none hrestFree hnul hrest
  have hbehind : (CBuffer.mk (pre ++ (cell :: (data ++ close :: rest)) ++ nul :: post)).cStr
      (pre.length + (data.length + 1) + 1) = rest := by
    have hbuffer : pre ++ (cell :: (data ++ close :: rest)) ++ nul :: post =
        (pre ++ [cell] ++ data ++ [close]) ++ rest ++ nul :: post := by simp
    have hindex : pre.length + (data.length + 1) + 1 =
        (pre ++ [cell] ++ data ++ [close]).length := by
      simp only [List.length_append, List.length_cons, List.length_nil]
      omega
    rw [hbuffer, hindex]
    exact cStr_append hrestFree hnul
  have hbehind' : (CBuffer.mk (pre ++ [cell] ++ body ++ (rest ++ nul :: post))).cStr
      (pre.length + (data.length + 1) + 1) = rest := by
    rw [hnext', ← List.append_assoc _ rest]
    exact cStr_append hrestFree hnul
  have hdataIndex : pre.length + 1 = (pre ++ [cell]).length := by simp
  refine ⟨cell :: body, by rw [List.length_cons, hbody], ?_⟩
  rw [parseBlock, hstr, htext]
  simp only [hfind, hinside]
  rw [if_neg (by omega)]
  simp only [hterminate, hfollowing, hdataIndex, hread, hbehind, hbehind', ne_eq, not_true_eq_false,
    decide_false]
  simp [Nat.add_assoc]

end SwitchPasses
end EslTokio
