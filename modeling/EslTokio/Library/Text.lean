import EslTokio.Library.Utf8
import Mathlib.Algebra.Ring.Nat

/-!
# Text and number operations of the source language

A text is a list of Unicode scalars.  The operations below are the string methods the program calls,
each with the boundary behaviour its documentation gives: a line iterator that drops one carriage
return before each line feed but keeps a bare one at the end, an unsigned integer parser that
accepts a leading plus sign, the debug format of a byte's char, ASCII-only case mapping, and
percent-decoding that passes a stray percent sign through.  Percent-encoding keeps ASCII letters and
digits only, and is inverted by the decoder (`percentDecode_percentEncode`).
-/

namespace EslTokio
namespace Library

/-- A text: the scalars of a string, in order. -/
abbrev Text := List Char

/-- The bytes of a string or of a wire buffer. -/
abbrev Bytes := List UInt8

namespace Text

/-- A property of every item is decided along the list, not over all items there can be. -/
instance (priority := 2000) decidableForallMem {α : Type*} (p : α → Prop) [DecidablePred p]
    (items : List α) :
    Decidable (∀ item ∈ items, p item) := List.decidableBAll p items

instance (priority := 2000) decidableForallMemOption {α : Type*} (p : α → Prop) [DecidablePred p]
    (item : Option α) : Decidable (∀ x ∈ item, p x) := Option.decidableForallMem item

/-- Drop one trailing `c`, if there is one. -/
def stripSuffix (c : Char) (text : Text) : Text :=
  if text.getLast? = some c then text.dropLast else text

/-- Drop one leading `c`, if there is one. -/
def stripPrefix (c : Char) : Text → Text
  | [] => []
  | head :: tail => if head = c then tail else head :: tail

/-- The text before and after the first `c`. -/
def splitFirst (c : Char) : Text → Option (Text × Text)
  | [] => none
  | head :: tail =>
      if head = c then some ([], tail)
      else (splitFirst c tail).map fun parts => (head :: parts.1, parts.2)

/-- The text before and after the last `c`. -/
def splitLast (c : Char) (text : Text) : Option (Text × Text) :=
  (splitFirst c text.reverse).map fun parts => (parts.2.reverse, parts.1.reverse)

/-- Equality up to ASCII case. -/
def eqIgnoreCase (left right : Text) : Bool := left.map Char.toLower = right.map Char.toLower

/-- A char with the Unicode property `White_Space`. -/
def isWhitespace (c : Char) : Bool :=
  let n := c.toNat
  (9 ≤ n && n ≤ 13) || n == 0x20 || n == 0x85 || n == 0xa0 || n == 0x1680 ||
    (0x2000 ≤ n && n ≤ 0x200a) ||
    n == 0x2028 || n == 0x2029 || n == 0x202f || n == 0x205f || n == 0x3000

/-- The parts of a text between runs of white space. -/
def splitWhitespace (text : Text) : List Text := (text.splitOnP isWhitespace).filter (· ≠ [])

/-- A text with no white space at its edges. -/
def trim (text : Text) : Text :=
  ((text.dropWhile isWhitespace).reverse.dropWhile isWhitespace).reverse

/-- How many bytes a text is encoded in. -/
def byteLength (text : Text) : Nat := (text.map Char.utf8Size).sum

@[simp] theorem byteLength_nil : byteLength [] = 0 := rfl

@[simp] theorem byteLength_cons (c : Char) (text : Text) :
    byteLength (c :: text) = c.utf8Size + byteLength text := List.sum_cons

@[simp] theorem byteLength_append (left right : Text) :
    byteLength (left ++ right) = byteLength left + byteLength right := by
  simp [byteLength]

/-- A byte offset between two chars of a text, or at its edge. -/
def IsBoundary (text : Text) (offset : Nat) : Prop :=
  ∃ left right, left ++ right = text ∧ offset = byteLength left

/-- The text behind the first `count` bytes, if these are whole chars. -/
def dropBytes : (count : Nat) → Text → Option Text
  | 0, text => some text
  | _ + 1, [] => none
  | count + 1, c :: text =>
      if c.utf8Size ≤ count + 1 then dropBytes (count + 1 - c.utf8Size) text else none

/-- The first `count` bytes of a text, if these are whole chars. -/
def takeBytes : (count : Nat) → Text → Option Text
  | 0, _ => some []
  | _ + 1, [] => none
  | count + 1, c :: text =>
      if c.utf8Size ≤ count + 1 then (takeBytes (count + 1 - c.utf8Size) text).map
        (c :: ·) else none

/-- The text between two byte offsets, or none where they are no char boundaries in order. -/
def get? (text : Text) (start stop : Nat) : Option Text :=
  if start ≤ stop then (dropBytes start text).bind (takeBytes (stop - start)) else none

theorem dropBytes_append (left rest : Text) :
    dropBytes (byteLength left) (left ++ rest) = some rest := by
  induction left with
  | nil =>
      rw [byteLength_nil, List.nil_append]
      cases rest <;> rfl
  | cons c left ih =>
      obtain ⟨count, hcount⟩ : ∃ count, c.utf8Size + byteLength left = count + 1 :=
        ⟨c.utf8Size + byteLength left - 1, by have := c.utf8Size_pos; omega⟩
      rw [byteLength_cons, List.cons_append, hcount, dropBytes, if_pos (by omega), ← hcount,
        Nat.add_sub_cancel_left]
      exact ih

theorem takeBytes_append (left rest : Text) :
    takeBytes (byteLength left) (left ++ rest) = some left := by
  induction left with
  | nil =>
      rw [byteLength_nil, List.nil_append]
      cases rest <;> rfl
  | cons c left ih =>
      obtain ⟨count, hcount⟩ : ∃ count, c.utf8Size + byteLength left = count + 1 :=
        ⟨c.utf8Size + byteLength left - 1, by have := c.utf8Size_pos; omega⟩
      rw [byteLength_cons, List.cons_append, hcount, takeBytes, if_pos (by omega), ← hcount,
        Nat.add_sub_cancel_left, ih]
      rfl

/-- What is taken opens the text and is as long as asked for. -/
theorem takeBytes_some {count : Nat} {text taken : Text} (h : takeBytes count text = some taken) :
    ∃ rest, text = taken ++ rest := by
  induction text generalizing count taken with
  | nil =>
      cases count with
      | zero =>
          obtain rfl := Option.some.inj h
          exact ⟨[], rfl⟩
      | succ count => cases h
  | cons c text ih =>
      cases count with
      | zero =>
          obtain rfl := Option.some.inj h
          exact ⟨c :: text, rfl⟩
      | succ count =>
          rw [takeBytes] at h
          split_ifs at h
          obtain ⟨taken, htaken, rfl⟩ := Option.map_eq_some_iff.mp h
          obtain ⟨rest, rfl⟩ := ih htaken
          exact ⟨rest, rfl⟩

/-- **The bytes between two boundaries are the text between them.** -/
theorem get?_append (left mid right : Text) :
    get? (left ++ mid ++ right) (byteLength left) (byteLength (left ++ mid)) = some mid := by
  rw [get?, if_pos (by simp), List.append_assoc, dropBytes_append, byteLength_append,
    Nat.add_sub_cancel_left]
  exact takeBytes_append mid right

/-- The remaining lines, `current` being the part of this line already read. -/
def linesFrom (current : Text) : Text → List Text
  | [] => if current = [] then [] else [current]
  | c :: rest =>
      if c = '\n' then stripSuffix '\r' current :: linesFrom [] rest
      else linesFrom (current ++ [c]) rest

/-- Lines ended by `\n` or `\r\n`; a last line without its line feed is kept as it is. -/
def lines (text : Text) : List Text := linesFrom [] text

/-- Split at every `ab`, leftmost first. -/
def splitPair (a b : Char) : Text → List Text
  | [] => [[]]
  | [c] => [[c]]
  | c :: d :: rest =>
      if c = a ∧ d = b then [] :: splitPair a b rest
      else (splitPair a b (d :: rest)).modifyHead (c :: ·)

/-- A text without the separator is one piece. -/
theorem splitPair_of_clear {a b : Char} {text : Text} (h : ¬[a, b] <:+: text) :
    splitPair a b text = [text] := by
  induction text with
  | nil => rfl
  | cons c text ih =>
      have hlater : ¬[a, b] <:+: text := fun hpart => h (List.infix_cons hpart)
      cases text with
      | nil => rfl
      | cons d rest =>
          have hnot : ¬(c = a ∧ d = b) := by
            rintro ⟨rfl, rfl⟩
            exact h ⟨[], rest, rfl⟩
          rw [splitPair, if_neg hnot, ih hlater]
          rfl

/-- The first piece is what stands before the first separator: a piece that ends in `a` or a rest
that opens with `b` makes no separator of its own. -/
theorem splitPair_append {a b : Char} (hab : a ≠ b) {piece : Text} (h : ¬[a, b] <:+: piece)
    (rest : Text) :
    splitPair a b (piece ++ a :: b :: rest) = piece :: splitPair a b rest := by
  induction piece with
  | nil => simp [splitPair]
  | cons c piece ih =>
      have hlater : ¬[a, b] <:+: piece := fun hpart => h (List.infix_cons hpart)
      cases piece with
      | nil =>
          have hnot : ¬(c = a ∧ a = b) := fun heq => hab heq.2
          show splitPair a b (c :: a :: b :: rest) = _
          rw [splitPair, if_neg hnot, ← List.nil_append (a :: b :: rest), ih hlater]
          rfl
      | cons d piece =>
          have hnot : ¬(c = a ∧ d = b) := by
            rintro ⟨rfl, rfl⟩
            exact h ⟨[], piece, rfl⟩
          show splitPair a b (c :: d :: (piece ++ a :: b :: rest)) = _
          rw [splitPair, if_neg hnot, ← List.cons_append, ih hlater]
          rfl

/-- Pieces without the separator are split back from their join. -/
theorem splitPair_intercalate {a b : Char} (hab : a ≠ b) {pieces : List Text} (hne : pieces ≠ [])
    (h : ∀ piece ∈ pieces, ¬[a, b] <:+: piece) :
    splitPair a b ([a, b].intercalate pieces) = pieces := by
  induction pieces with
  | nil => exact absurd rfl hne
  | cons piece pieces ih =>
      obtain ⟨hpiece, hpieces⟩ := List.forall_mem_cons.mp h
      cases pieces with
      | nil =>
          rw [List.intercalate_singleton]
          exact splitPair_of_clear hpiece
      | cons next pieces =>
          rw [List.intercalate_cons_cons, List.append_assoc]
          show splitPair a b (piece ++ a :: b :: [a, b].intercalate (next :: pieces)) = _
          rw [splitPair_append hab hpiece, ih (by simp) hpieces]

/-- A text that opens with no char of a kind. -/
def Stops (p : Char → Bool) (text : Text) : Prop := ∀ c ∈ text.head?, p c = false

theorem stops_nil (p : Char → Bool) : Stops p [] := fun _ hc => absurd hc (by simp)

theorem stops_cons {p : Char → Bool} {c : Char} (h : p c = false) (text : Text) :
    Stops p (c :: text) := by
  intro d hd
  rw [List.head?_cons, Option.mem_some_iff] at hd
  exact hd ▸ h

theorem stops_dropWhile (p : Char → Bool) (text : Text) : Stops p (text.dropWhile p) := by
  intro c hc
  have hhead := List.head?_dropWhile_not p text
  rw [Option.mem_def.mp hc] at hhead
  simpa using hhead

/-- A run of a kind is taken whole, up to where it stops. -/
theorem takeWhile_append_of_stops {p : Char → Bool} {run rest : Text} (hrun : ∀ c ∈ run, p c = true)
    (hrest : Stops p rest) : (run ++ rest).takeWhile p = run := by
  rw [List.takeWhile_append_of_pos hrun]
  cases rest with
  | nil => exact List.append_nil run
  | cons c rest =>
      have hc : ¬p c = true := by simp [hrest c rfl]
      rw [List.takeWhile_cons_of_neg hc, List.append_nil]

/-- A run of a kind is dropped whole, up to where it stops. -/
theorem dropWhile_append_of_stops {p : Char → Bool} {run rest : Text} (hrun : ∀ c ∈ run, p c = true)
    (hrest : Stops p rest) : (run ++ rest).dropWhile p = rest := by
  rw [List.dropWhile_append_of_pos hrun]
  cases rest with
  | nil => rfl
  | cons c rest =>
      have hc : ¬p c = true := by simp [hrest c rfl]
      exact List.dropWhile_cons_of_neg hc

/-- The value of a decimal digit. -/
def digitValue (c : Char) : Option Nat :=
  if c.isDigit then some (c.toNat - '0'.toNat) else none

/-- Read decimal digits onto `acc`, failing on anything else. -/
def parseDigits (acc : Nat) : Text → Option Nat
  | [] => some acc
  | c :: rest => (digitValue c).bind fun digit => parseDigits (acc * 10 + digit) rest

/-- An unsigned integer of `width` bits: an optional plus sign, then one or more digits. -/
def parseUnsigned (width : Nat) (text : Text) : Option Nat :=
  let digits := stripPrefix '+' text
  if digits = [] then none
  else (parseDigits 0 digits).filter (· < 2 ^ width)

/-- Decimal rendering of a number. -/
def ofNat (n : Nat) : Text := Nat.toDigits 10 n

/-- A byte as the debug format quotes the char of that number: a quote and a backslash behind a
backslash, and what does not print by its name or its number. -/
def debugByte (b : UInt8) : Text :=
  let shown : Text :=
    if b = 0x00 then ['\\', '0']
    else if b = 0x09 then ['\\', 't']
    else if b = 0x0A then ['\\', 'n']
    else if b = 0x0D then ['\\', 'r']
    else if b = 0x27 ∨ b = 0x5C then ['\\', Char.ofNat b.toNat]
    else if b < 0x20 ∨ (0x7F ≤ b ∧ b ≤ 0xA0) ∨ b = 0xAD then
      "\\u\x7b".toList ++ Nat.toDigits 16 b.toNat ++ "\x7d".toList
    else [Char.ofNat b.toNat]
  '\'' :: shown ++ ['\'']

example : debugByte 0xA0 = "'\\u\x7ba0\x7d'".toList := by decide

theorem isDigit_of_mem_ofNat {n : Nat} {c : Char} (h : c ∈ ofNat n) : c.isDigit = true :=
  Nat.isDigit_of_mem_toDigits (by decide) (by decide) h

theorem ofNat_ne_nil (n : Nat) : ofNat n ≠ [] := Nat.toDigits_ne_nil

theorem parseDigits_of_isDigit {digits : Text} (h : ∀ c ∈ digits, c.isDigit = true) (acc : Nat) :
    parseDigits acc digits = some (Nat.ofDigitChars 10 digits acc) := by
  induction digits generalizing acc with
  | nil => rfl
  | cons c digits ih =>
      have hc : digitValue c = some (c.toNat - '0'.toNat) := by
        rw [digitValue, if_pos (h c List.mem_cons_self)]
      rw [parseDigits, hc, Nat.ofDigitChars_cons, Nat.mul_comm]
      exact ih (fun d hd => h d (List.mem_cons_of_mem _ hd)) _

/-- A rendered number is read back. -/
theorem parseDigits_ofNat (n : Nat) : parseDigits 0 (ofNat n) = some n := by
  rw [parseDigits_of_isDigit fun c hc => isDigit_of_mem_ofNat hc]
  exact congrArg some Nat.ofDigitChars_ten_toDigits

theorem stripPrefix_ofNat {c : Char} (hc : c.isDigit = false) (n : Nat) :
    stripPrefix c (ofNat n) = ofNat n := by
  cases htext : ofNat n with
  | nil => rfl
  | cons d rest =>
      have hd : d.isDigit = true := isDigit_of_mem_ofNat (htext ▸ List.mem_cons_self)
      rw [stripPrefix, if_neg]
      rintro rfl
      rw [hd] at hc
      cases hc

/-- A rendered number that fits is read back. -/
theorem parseUnsigned_ofNat {width n : Nat} (h : n < 2 ^ width) :
    parseUnsigned width (ofNat n) = some n := by
  rw [parseUnsigned]
  simp only [stripPrefix_ofNat (by decide : ('+' : Char).isDigit = false), if_neg (ofNat_ne_nil n),
    parseDigits_ofNat]
  rw [Option.filter_some, if_pos (decide_eq_true h)]

/-- A character before the first `c` is not split off. -/
theorem splitFirst_append {c : Char} {before : Text} (h : c ∉ before) (after : Text) :
    splitFirst c (before ++ c :: after) = some (before, after) := by
  induction before with
  | nil => simp [splitFirst]
  | cons head before ih =>
      have hhead : head ≠ c := fun heq => h (by simp [heq])
      have htail : c ∉ before := fun hmem => h (by simp [hmem])
      rw [List.cons_append, splitFirst, if_neg hhead, ih htail]
      rfl

theorem splitFirst_some {c : Char} {text before after : Text}
    (h : splitFirst c text = some (before, after)) :
    c ∉ before ∧ text = before ++ c :: after := by
  induction text generalizing before with
  | nil => cases h
  | cons head tail ih =>
      rw [splitFirst] at h
      split at h
      · rename_i hhead
        obtain ⟨rfl, rfl⟩ := Prod.mk.inj (Option.some.inj h)
        exact ⟨List.not_mem_nil, by rw [hhead]; rfl⟩
      · rename_i hhead
        obtain ⟨parts, hparts, heq⟩ := Option.map_eq_some_iff.mp h
        obtain ⟨rfl, rfl⟩ := Prod.mk.inj heq
        obtain ⟨hbefore, htail⟩ := ih hparts
        refine ⟨?_, by rw [htail]; rfl⟩
        rw [List.mem_cons, not_or]
        exact ⟨fun heq => hhead heq.symm, hbefore⟩

theorem mem_of_mem_stripSuffix {c d : Char} {text : Text}
    (h : d ∈ stripSuffix c text) : d ∈ text := by
  rw [stripSuffix] at h
  split at h
  · exact List.dropLast_subset text h
  · exact h

/-- Nothing is stripped from a text without the character. -/
theorem stripSuffix_of_notMem {c : Char} {text : Text} (h : c ∉ text) :
    stripSuffix c text = text := by
  rw [stripSuffix, if_neg]
  intro hlast
  exact h (List.mem_of_getLast? hlast)

/-- ASCII lower case; every other scalar is unchanged. -/
def toAsciiLowercase (text : Text) : Text := text.map Char.toLower

end Text

/-- A property of every scalar, from the ASCII ones one by one and the others at once. -/
theorem char_cases {motive : Char → Prop} (hascii : ∀ n < 128, motive (Char.ofNat n))
    (hother : ∀ c : Char, 128 ≤ c.toNat → motive c) (c : Char) : motive c := by
  by_cases hc : c.toNat < 128
  · have hof := hascii c.toNat hc
    rwa [Char.ofNat_toNat] at hof
  · exact hother c (by omega)

theorem toUpper_of_not_ascii {c : Char} (h : 128 ≤ c.toNat) : c.toUpper = c := by
  have hval : ¬('a'.val ≤ c.val ∧ c.val ≤ 'z'.val) := by
    rintro ⟨-, hle⟩
    have hnat : c.toNat ≤ 'z'.toNat := UInt32.le_iff_toNat_le.mp hle
    have hz : 'z'.toNat = 122 := rfl
    omega
  exact dif_neg hval

theorem toLower_of_not_ascii {c : Char} (h : 128 ≤ c.toNat) : c.toLower = c := by
  have hval : ¬(c.val ≥ 'A'.val ∧ c.val ≤ 'Z'.val) := by
    rintro ⟨-, hle⟩
    have hnat : c.toNat ≤ 'Z'.toNat := UInt32.le_iff_toNat_le.mp hle
    have hz : 'Z'.toNat = 90 := rfl
    omega
  exact dif_neg hval

/-- The value of a hexadecimal digit byte. -/
def hexValue (b : UInt8) : Option Nat :=
  if 0x30 ≤ b && b ≤ 0x39 then some (b.toNat - 0x30)
  else if 0x41 ≤ b && b ≤ 0x46 then some (b.toNat - 0x41 + 10)
  else if 0x61 ≤ b && b ≤ 0x66 then some (b.toNat - 0x61 + 10)
  else none

/-- Replace every `%XX` by the byte it names; a percent sign without two hexadecimal digits after
it stays. -/
def percentDecode : Bytes → Bytes
  | b :: high :: low :: rest =>
      if b = 0x25 then
        match hexValue high, hexValue low with
        | some x, some y => UInt8.ofNat (16 * x + y) :: percentDecode rest
        | _, _ => b :: percentDecode (high :: low :: rest)
      else b :: percentDecode (high :: low :: rest)
  | b :: rest => b :: percentDecode rest
  | [] => []

/-- The upper-case hexadecimal digit of a number below sixteen. -/
def hexDigit (n : Nat) : Char :=
  if n < 10 then Char.ofNat (0x30 + n) else Char.ofNat (0x37 + n)

/-- An ASCII letter or digit. -/
def isAlphanumericByte (b : UInt8) : Bool :=
  (0x30 ≤ b && b ≤ 0x39) || (0x41 ≤ b && b ≤ 0x5A) || (0x61 ≤ b && b ≤ 0x7A)

/-- A byte as it stands, or as `%XX`. -/
def percentEncodeByte (b : UInt8) : Text :=
  if isAlphanumericByte b then [Char.ofNat b.toNat]
  else ['%', hexDigit (b.toNat / 16), hexDigit (b.toNat % 16)]

/-- Percent-encode everything but ASCII letters and digits. -/
def percentEncode (bytes : Bytes) : Text := bytes.flatMap percentEncodeByte

/-- What an encoded byte is on the wire: itself, or a percent sign and its two digits. -/
theorem encode_percentEncodeByte (b : UInt8) :
    (b ≠ 0x25 ∧ Utf8.encode (percentEncodeByte b) = [b]) ∨
    ∃ high low, ∃ x y, Utf8.encode (percentEncodeByte b) = [0x25, high, low] ∧
      hexValue high = some x ∧ hexValue low = some y ∧ UInt8.ofNat (16 * x + y) = b := by
  -- Two hundred and fifty-six bytes: the digits are read off and every case evaluated.
  have hall : ∀ n < 256,
      (UInt8.ofNat n ≠ 0x25 ∧
        Utf8.encode (percentEncodeByte (UInt8.ofNat n)) = [UInt8.ofNat n]) ∨
      ∃ high ∈ Utf8.encode [hexDigit (n / 16)], ∃ low ∈ Utf8.encode [hexDigit (n % 16)],
        Utf8.encode (percentEncodeByte (UInt8.ofNat n)) = [0x25, high, low] ∧
          hexValue high = some (n / 16) ∧ hexValue low = some (n % 16) := by
    decide +kernel
  have hsize : b.toNat < 256 := b.toNat_lt
  have hb : UInt8.ofNat b.toNat = b := UInt8.ofNat_toNat
  have hcase := hall b.toNat hsize
  rw [hb] at hcase
  refine hcase.imp_right ?_
  rintro ⟨high, -, low, -, hbytes, hhigh, hlow⟩
  refine ⟨high, low, b.toNat / 16, b.toNat % 16, hbytes, hhigh, hlow, ?_⟩
  rw [Nat.div_add_mod, hb]

/-- A byte that is no percent sign is passed through. -/
theorem percentDecode_cons {b : UInt8} (hb : b ≠ 0x25) (rest : Bytes) :
    percentDecode (b :: rest) = b :: percentDecode rest := by
  match rest with
  | [] => rfl
  | [_] => rfl
  | _ :: _ :: _ => rw [percentDecode, if_neg hb]

/-- **Percent-decoding inverts percent-encoding**, on every byte string. -/
theorem percentDecode_percentEncode (bytes : Bytes) :
    percentDecode (Utf8.encode (percentEncode bytes)) = bytes := by
  induction bytes with
  | nil => rfl
  | cons b bytes ih =>
      have hsplit : Utf8.encode (percentEncode (b :: bytes)) =
          Utf8.encode (percentEncodeByte b) ++ Utf8.encode (percentEncode bytes) := by
        simp [percentEncode, Utf8.encode]
      rw [hsplit]
      obtain ⟨hb, hbytes⟩ | ⟨high, low, x, y, hbytes, hhigh, hlow, hvalue⟩ :=
        encode_percentEncodeByte b
      · rw [hbytes, List.singleton_append, percentDecode_cons hb, ih]
      · rw [hbytes, List.cons_append, List.cons_append, List.singleton_append, percentDecode,
          if_pos rfl, hhigh, hlow]
        simp only [hvalue, ih]

example : Text.lines "a: 1\r\nb\r".toList = ["a: 1".toList, "b\r".toList] := by decide

example : Text.parseUnsigned 64 "+12".toList = some 12 := by decide

example : percentDecode (Utf8.encode "a%2Bb%2".toList) = Utf8.encode "a+b%2".toList := by decide

end Library
end EslTokio
