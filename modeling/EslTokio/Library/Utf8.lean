import Mathlib.Data.List.Infix
import Mathlib.Tactic.Common

/-!
# UTF-8 validation, decoding and lossy decoding

A byte string is read one scalar at a time.  `next` inspects the bytes after a character boundary
and reports a scalar with its width, or an ill-formed sequence with the length of its maximal
well-formed prefix (`none` when the input ends inside it).  These are the two numbers a decoder
error carries; strict and lossy decoding only differ in what they do with them.

* **`decode_encode`** — a text is what its own bytes decode to.
* **`blankLine_of_decodeLossyFrom`** — substitution never makes a blank line.

Both decoders recurse structurally on the byte list: `skip` counts the bytes of the current
sequence that are still to be passed over.
-/

namespace EslTokio
namespace Library
namespace Utf8

/-- Why and where a byte string stopped being UTF-8. -/
structure DecodeError where
  /-- Bytes before the ill-formed sequence. -/
  validUpTo : Nat
  /-- Length of the ill-formed sequence, `none` when the input ended inside a sequence. -/
  errorLen : Option Nat
deriving DecidableEq, Repr

/-- What follows a character boundary. -/
inductive Next where
  | scalar (c : Char) (width : Nat)
  | illFormed (errorLen : Option Nat)
deriving DecidableEq, Repr

/-- A continuation byte, `80..BF`. -/
def isContinuation (b : UInt8) : Bool := 0x80 ≤ b && b ≤ 0xBF

/-- Whether `second` may follow the leading byte of a three-byte sequence. -/
def threeByteSecond (first second : UInt8) : Bool :=
  (first == 0xE0 && 0xA0 ≤ second && second ≤ 0xBF) ||
  (0xE1 ≤ first && first ≤ 0xEC && isContinuation second) ||
  (first == 0xED && 0x80 ≤ second && second ≤ 0x9F) ||
  (0xEE ≤ first && first ≤ 0xEF && isContinuation second)

/-- Whether `second` may follow the leading byte of a four-byte sequence. -/
def fourByteSecond (first second : UInt8) : Bool :=
  (first == 0xF0 && 0x90 ≤ second && second ≤ 0xBF) ||
  (0xF1 ≤ first && first ≤ 0xF3 && isContinuation second) ||
  (first == 0xF4 && 0x80 ≤ second && second ≤ 0x8F)

/-- The payload bits of a continuation byte. -/
def payload (b : UInt8) : Nat := b.toNat % 64

/-- Read one scalar whose leading byte is `first`. -/
def next (first : UInt8) (rest : List UInt8) : Next :=
  if first < 0x80 then .scalar (Char.ofNat first.toNat) 1
  else if 0xC2 ≤ first && first ≤ 0xDF then
    match rest with
    | [] => .illFormed none
    | b :: _ =>
        if isContinuation b then
          .scalar (Char.ofNat (first.toNat % 32 * 64 + payload b)) 2
        else .illFormed (some 1)
  else if 0xE0 ≤ first && first ≤ 0xEF then
    match rest with
    | [] => .illFormed none
    | b :: rest =>
        if threeByteSecond first b then
          match rest with
          | [] => .illFormed none
          | c :: _ =>
              if isContinuation c then
                .scalar (Char.ofNat ((first.toNat % 16 * 64 + payload b) * 64 + payload c)) 3
              else .illFormed (some 2)
        else .illFormed (some 1)
  else if 0xF0 ≤ first && first ≤ 0xF4 then
    match rest with
    | [] => .illFormed none
    | b :: rest =>
        if fourByteSecond first b then
          match rest with
          | [] => .illFormed none
          | c :: rest =>
              if isContinuation c then
                match rest with
                | [] => .illFormed none
                | d :: _ =>
                    if isContinuation d then
                      .scalar (Char.ofNat
                        (((first.toNat % 8 * 64 + payload b) * 64 + payload c) * 64 + payload d)) 4
                    else .illFormed (some 3)
              else .illFormed (some 2)
        else .illFormed (some 1)
  else .illFormed (some 1)

/-- Strict decoding from byte offset `index`, after passing over `skip` bytes. -/
def decodeFrom (index skip : Nat) : List UInt8 → Except DecodeError (List Char)
  | [] => .ok []
  | b :: rest =>
      match skip with
      | skip + 1 => decodeFrom (index + 1) skip rest
      | 0 =>
          match next b rest with
          | .scalar c width => (decodeFrom (index + 1) (width - 1) rest).map (c :: ·)
          | .illFormed errorLen => .error ⟨index, errorLen⟩

/-- Decode a whole byte string, or say where it stops being UTF-8. -/
def decode (bytes : List UInt8) : Except DecodeError (List Char) :=
  decodeFrom 0 0 bytes

/-- The replacement character. -/
def replacement : Char := '\uFFFD'

/-- Lossy decoding after passing over `skip` bytes: each ill-formed sequence becomes one
replacement character. -/
def decodeLossyFrom (skip : Nat) : List UInt8 → List Char
  | [] => []
  | b :: rest =>
      match skip with
      | skip + 1 => decodeLossyFrom skip rest
      | 0 =>
          match next b rest with
          | .scalar c width => c :: decodeLossyFrom (width - 1) rest
          | .illFormed (some errorLen) => replacement :: decodeLossyFrom (errorLen - 1) rest
          -- The input ends inside this sequence, so all of it is replaced at once.
          | .illFormed none => replacement :: decodeLossyFrom rest.length rest

/-- Decode a whole byte string, substituting what is not UTF-8. -/
def decodeLossy (bytes : List UInt8) : List Char :=
  decodeLossyFrom 0 bytes

/-- The UTF-8 bytes of a text. -/
def encode (text : List Char) : List UInt8 :=
  text.flatMap String.utf8EncodeChar

/-! ### A text decodes from its own bytes

One lemma for each sequence length: the leading byte selects the branch of `next`, and the payload
bits put the scalar together again. -/

theorem toNat_ofNat_of_lt {n : Nat} (h : n < 0x100) : (UInt8.ofNat n).toNat = n := by
  simp only [UInt8.toNat_ofNat']
  omega

theorem isContinuation_ofNat {n : Nat} (h : n < 0x40) :
    isContinuation (UInt8.ofNat (n + 0x80)) = true := by
  simp only [isContinuation, Bool.and_eq_true, decide_eq_true_eq, UInt8.le_iff_toNat_le,
    UInt8.toNat_ofNat', UInt8.reduceToNat]
  omega

theorem payload_ofNat {n : Nat} (h : n < 0x40) : payload (UInt8.ofNat (n + 0x80)) = n := by
  simp only [payload, UInt8.toNat_ofNat']
  omega

theorem next_one {n : Nat} (h : n < 0x80) (rest : List UInt8) :
    next (UInt8.ofNat n) rest = .scalar (Char.ofNat n) 1 := by
  have htoNat : (UInt8.ofNat n).toNat = n :=
    toNat_ofNat_of_lt (by omega)
  have hlt : UInt8.ofNat n < 0x80 := by
    simp only [UInt8.lt_iff_toNat_lt, htoNat, UInt8.reduceToNat]
    exact h
  rw [next.eq_def, if_pos hlt, htoNat]

theorem next_two {a b : Nat} (ha : 2 ≤ a) (ha' : a < 0x20) (hb : b < 0x40) (rest : List UInt8) :
    next (UInt8.ofNat (a + 0xC0)) (UInt8.ofNat (b + 0x80) :: rest) =
      .scalar (Char.ofNat (a * 64 + b)) 2 := by
  have htoNat : (UInt8.ofNat (a + 0xC0)).toNat = a + 0xC0 :=
    toNat_ofNat_of_lt (by omega)
  have hfirst : ¬UInt8.ofNat (a + 0xC0) < 0x80 := by
    simp only [UInt8.lt_iff_toNat_lt, htoNat, UInt8.reduceToNat]
    omega
  have hrange : (0xC2 ≤ UInt8.ofNat (a + 0xC0) && UInt8.ofNat (a + 0xC0) ≤ 0xDF) = true := by
    simp only [Bool.and_eq_true, decide_eq_true_eq, UInt8.le_iff_toNat_le, htoNat,
      UInt8.reduceToNat]
    omega
  have hbits : (a + 0xC0) % 32 = a := by omega
  rw [next.eq_def, if_neg hfirst, if_pos hrange]
  simp only [isContinuation_ofNat hb, if_true, payload_ofNat hb, htoNat, hbits]

theorem next_three {a b c : Nat} (ha : a < 0x10) (hb : b < 0x40) (hc : c < 0x40)
    (hlow : 0x800 ≤ (a * 64 + b) * 64 + c)
    (hscalar : (a * 64 + b) * 64 + c < 0xD800 ∨ 0xDFFF < (a * 64 + b) * 64 + c)
    (rest : List UInt8) :
    next (UInt8.ofNat (a + 0xE0)) (UInt8.ofNat (b + 0x80) :: UInt8.ofNat (c + 0x80) :: rest) =
      .scalar (Char.ofNat ((a * 64 + b) * 64 + c)) 3 := by
  have htoNat : (UInt8.ofNat (a + 0xE0)).toNat = a + 0xE0 :=
    toNat_ofNat_of_lt (by omega)
  have hsecond : (UInt8.ofNat (b + 0x80)).toNat = b + 0x80 :=
    toNat_ofNat_of_lt (by omega)
  have hone : ¬UInt8.ofNat (a + 0xE0) < 0x80 := by
    simp only [UInt8.lt_iff_toNat_lt, htoNat, UInt8.reduceToNat]
    omega
  have htwo : ¬(0xC2 ≤ UInt8.ofNat (a + 0xE0) && UInt8.ofNat (a + 0xE0) ≤ 0xDF) = true := by
    simp only [Bool.and_eq_true, decide_eq_true_eq, UInt8.le_iff_toNat_le, htoNat,
      UInt8.reduceToNat]
    omega
  have hrange : (0xE0 ≤ UInt8.ofNat (a + 0xE0) && UInt8.ofNat (a + 0xE0) ≤ 0xEF) = true := by
    simp only [Bool.and_eq_true, decide_eq_true_eq, UInt8.le_iff_toNat_le, htoNat,
      UInt8.reduceToNat]
    omega
  have hpair : threeByteSecond (UInt8.ofNat (a + 0xE0)) (UInt8.ofNat (b + 0x80)) = true := by
    simp only [threeByteSecond, isContinuation, Bool.or_eq_true, Bool.and_eq_true,
      decide_eq_true_eq, beq_iff_eq, UInt8.le_iff_toNat_le, ← UInt8.toNat_inj, htoNat, hsecond,
      UInt8.reduceToNat]
    omega
  have hbits : (a + 0xE0) % 16 = a := by omega
  rw [next.eq_def, if_neg hone, if_neg htwo, if_pos hrange]
  simp only [hpair, isContinuation_ofNat hc, if_true, payload_ofNat hb, payload_ofNat hc, htoNat,
    hbits]

theorem next_four {a b c d : Nat} (ha : a < 0x08) (hb : b < 0x40) (hc : c < 0x40) (hd : d < 0x40)
    (hlow : 0x10000 ≤ ((a * 64 + b) * 64 + c) * 64 + d)
    (hhigh : ((a * 64 + b) * 64 + c) * 64 + d < 0x110000) (rest : List UInt8) :
    next (UInt8.ofNat (a + 0xF0))
        (UInt8.ofNat (b + 0x80) :: UInt8.ofNat (c + 0x80) :: UInt8.ofNat (d + 0x80) :: rest) =
      .scalar (Char.ofNat (((a * 64 + b) * 64 + c) * 64 + d)) 4 := by
  have htoNat : (UInt8.ofNat (a + 0xF0)).toNat = a + 0xF0 :=
    toNat_ofNat_of_lt (by omega)
  have hsecond : (UInt8.ofNat (b + 0x80)).toNat = b + 0x80 :=
    toNat_ofNat_of_lt (by omega)
  have hone : ¬UInt8.ofNat (a + 0xF0) < 0x80 := by
    simp only [UInt8.lt_iff_toNat_lt, htoNat, UInt8.reduceToNat]
    omega
  have htwo : ¬(0xC2 ≤ UInt8.ofNat (a + 0xF0) && UInt8.ofNat (a + 0xF0) ≤ 0xDF) = true := by
    simp only [Bool.and_eq_true, decide_eq_true_eq, UInt8.le_iff_toNat_le, htoNat,
      UInt8.reduceToNat]
    omega
  have hthree : ¬(0xE0 ≤ UInt8.ofNat (a + 0xF0) && UInt8.ofNat (a + 0xF0) ≤ 0xEF) = true := by
    simp only [Bool.and_eq_true, decide_eq_true_eq, UInt8.le_iff_toNat_le, htoNat,
      UInt8.reduceToNat]
    omega
  have hrange : (0xF0 ≤ UInt8.ofNat (a + 0xF0) && UInt8.ofNat (a + 0xF0) ≤ 0xF4) = true := by
    simp only [Bool.and_eq_true, decide_eq_true_eq, UInt8.le_iff_toNat_le, htoNat,
      UInt8.reduceToNat]
    omega
  have hpair : fourByteSecond (UInt8.ofNat (a + 0xF0)) (UInt8.ofNat (b + 0x80)) = true := by
    simp only [fourByteSecond, isContinuation, Bool.or_eq_true, Bool.and_eq_true,
      decide_eq_true_eq, beq_iff_eq, UInt8.le_iff_toNat_le, ← UInt8.toNat_inj, htoNat, hsecond,
      UInt8.reduceToNat]
    omega
  have hbits : (a + 0xF0) % 8 = a := by omega
  rw [next.eq_def, if_neg hone, if_neg htwo, if_neg hthree, if_pos hrange]
  simp only [hpair, isContinuation_ofNat hc, isContinuation_ofNat hd, if_true, payload_ofNat hb,
    payload_ofNat hc, payload_ofNat hd, htoNat, hbits]

/-- The bytes of one scalar are read back as that scalar, whatever follows them. -/
theorem next_utf8EncodeChar (c : Char) (rest : List UInt8) :
    ∃ b bs, String.utf8EncodeChar c = b :: bs ∧
      next b (bs ++ rest) = .scalar c (bs.length + 1) := by
  have hvalid : c.val.toNat < 0xD800 ∨ 0xDFFF < c.val.toNat ∧ c.val.toNat < 0x110000 := c.valid
  have hof : Char.ofNat c.val.toNat = c := Char.ofNat_toNat c
  fun_cases String.utf8EncodeChar c with
  | case1 v h1 =>
    refine ⟨_, _, rfl, ?_⟩
    rw [next_one (by omega)]
    simp [v]
  | case2 v h1 h2 =>
    refine ⟨_, _, rfl, ?_⟩
    simp only [List.cons_append, List.nil_append]
    rw [next_two (by omega) (by omega) (by omega)]
    have hjoin : v / 64 % 0x20 * 64 + v % 0x40 = c.val.toNat := by omega
    rw [hjoin, hof]
    rfl
  | case3 v h1 h2 h3 =>
    refine ⟨_, _, rfl, ?_⟩
    simp only [List.cons_append, List.nil_append]
    have hjoin : (v / 4096 % 0x10 * 64 + v / 64 % 0x40) * 64 + v % 0x40 = c.val.toNat := by omega
    rw [next_three (by omega) (by omega) (by omega) (by omega) (by omega), hjoin, hof]
    rfl
  | case4 v h1 h2 h3 =>
    refine ⟨_, _, rfl, ?_⟩
    simp only [List.cons_append, List.nil_append]
    have hjoin : ((v / 262144 % 0x08 * 64 + v / 4096 % 0x40) * 64 + v / 64 % 0x40) * 64 + v % 0x40
        = c.val.toNat := by omega
    rw [next_four (by omega) (by omega) (by omega) (by omega) (by omega) (by omega), hjoin, hof]
    rfl

/-- Passing over exactly the bytes that remain of a sequence. -/
theorem decodeFrom_skip (index skip : Nat) (passed rest : List UInt8) (h : passed.length = skip) :
    decodeFrom index skip (passed ++ rest) = decodeFrom (index + skip) 0 rest := by
  induction passed generalizing index skip with
  | nil =>
      subst h
      rfl
  | cons b passed ih =>
      subst h
      rw [List.cons_append, List.length_cons, decodeFrom, ih (index + 1) passed.length rfl]
      congr 1
      omega

theorem decodeFrom_encode (index : Nat) (text : List Char) :
    decodeFrom index 0 (encode text) = .ok text := by
  induction text generalizing index with
  | nil => rfl
  | cons c text ih =>
      obtain ⟨b, bs, hbytes, hnext⟩ := next_utf8EncodeChar c (encode text)
      have hencode : encode (c :: text) = b :: (bs ++ encode text) := by
        rw [encode, List.flatMap_cons, hbytes]
        rfl
      rw [hencode, decodeFrom, hnext]
      simp only [Nat.add_sub_cancel]
      rw [decodeFrom_skip _ _ bs _ rfl, ih]
      rfl

/-- A text is what its own bytes decode to. -/
theorem decode_encode (text : List Char) : decode (encode text) = .ok text :=
  decodeFrom_encode 0 text

@[simp] theorem encode_nil : encode [] = [] := rfl

@[simp] theorem encode_append (left right : List Char) :
    encode (left ++ right) = encode left ++ encode right :=
  List.flatMap_append

/-- A line feed byte comes from a line feed only. -/
theorem mem_utf8EncodeChar_lineFeed {c : Char} (h : 0x0A ∈ String.utf8EncodeChar c) : c = '\n' := by
  have hof : Char.ofNat c.val.toNat = c := Char.ofNat_toNat c
  have hbyte : ∀ n < 0x100, (0x0A : UInt8) = UInt8.ofNat n → n = 0x0A := by
    intro n hn heq
    have hnat := congrArg UInt8.toNat heq
    rw [toNat_ofNat_of_lt hn] at hnat
    exact hnat.symm
  revert h
  fun_cases String.utf8EncodeChar c with
  | case1 v h1 =>
      intro h
      rw [List.mem_singleton] at h
      have hv : c.val.toNat = 0x0A := hbyte v (by omega) h
      rw [← hof, hv]
  | case2 v h1 h2 =>
      intro h
      simp only [List.mem_cons, List.not_mem_nil, or_false] at h
      rcases h with h | h
      all_goals
        have hn := hbyte _ (by omega) h
        omega
  | case3 v h1 h2 h3 =>
      intro h
      simp only [List.mem_cons, List.not_mem_nil, or_false] at h
      rcases h with h | h | h
      all_goals
        have hn := hbyte _ (by omega) h
        omega
  | case4 v h1 h2 h3 =>
      intro h
      simp only [List.mem_cons, List.not_mem_nil, or_false] at h
      rcases h with h | h | h | h
      all_goals
        have hn := hbyte _ (by omega) h
        omega

/-- Every byte of a scalar outside ASCII is outside ASCII. -/
theorem le_of_mem_utf8EncodeChar {c : Char} (hc : 128 ≤ c.toNat) {b : UInt8}
    (h : b ∈ String.utf8EncodeChar c) : 128 ≤ b.toNat := by
  have hbyte : ∀ n < 0x100, 128 ≤ n → b = UInt8.ofNat n → 128 ≤ b.toNat := by
    rintro n hn hle rfl
    rwa [toNat_ofNat_of_lt hn]
  have hval : 128 ≤ c.val.toNat := hc
  revert h
  fun_cases String.utf8EncodeChar c with
  | case1 v h1 => omega
  | case2 v h1 h2 =>
      intro h
      simp only [List.mem_cons, List.not_mem_nil, or_false] at h
      rcases h with h | h
      all_goals exact hbyte _ (by omega) (by omega) h
  | case3 v h1 h2 h3 =>
      intro h
      simp only [List.mem_cons, List.not_mem_nil, or_false] at h
      rcases h with h | h | h
      all_goals exact hbyte _ (by omega) (by omega) h
  | case4 v h1 h2 h3 =>
      intro h
      simp only [List.mem_cons, List.not_mem_nil, or_false] at h
      rcases h with h | h | h | h
      all_goals exact hbyte _ (by omega) (by omega) h

theorem lineFeed_notMem_encode {text : List Char} (h : '\n' ∉ text) : 0x0A ∉ encode text := by
  intro hmem
  obtain ⟨c, hc, hbyte⟩ := List.mem_flatMap.mp hmem
  exact h (mem_utf8EncodeChar_lineFeed hbyte ▸ hc)

theorem encode_ne_nil {text : List Char} (h : text ≠ []) : encode text ≠ [] := by
  cases text with
  | nil => exact absurd rfl h
  | cons c text =>
      rw [encode, List.flatMap_cons]
      intro hnil
      exact String.utf8EncodeChar_ne_nil (List.append_eq_nil_iff.mp hnil).1

theorem decodeLossyFrom_of_decodeFrom {bytes : List UInt8} {index skip : Nat} {text : List Char}
    (h : decodeFrom index skip bytes = .ok text) : decodeLossyFrom skip bytes = text := by
  induction bytes generalizing index skip text with
  | nil => exact Except.ok.inj h
  | cons b rest ih =>
      rw [decodeFrom.eq_def] at h
      rw [decodeLossyFrom.eq_def]
      cases skip with
      | succ skip => exact ih h
      | zero =>
          simp only at h ⊢
          split at h
          · rename_i c width hnext
            simp only [Except.map] at h
            split at h
            · cases h
            · rename_i more hmore
              obtain rfl := Except.ok.inj h
              simp only [hnext, ih hmore]
          · cases h

/-- Lossy decoding agrees with decoding where that succeeds. -/
theorem decodeLossy_of_decode {bytes : List UInt8} {text : List Char}
    (h : decode bytes = .ok text) :
    decodeLossy bytes = text := decodeLossyFrom_of_decodeFrom h

/-! ### Line feeds survive lossy decoding -/

theorem ofNat_eq_lineFeed {n : Nat} (h : Char.ofNat n = '\n') : n = 10 := by
  by_cases hvalid : n.isValidChar
  · have hchar : Char.ofNatAux n hvalid = '\n' := (dif_pos hvalid).symm.trans h
    exact congrArg Char.toNat hchar
  · have hchar : Char.ofNat n = '\x00' := dif_neg hvalid
    exact absurd (hchar.symm.trans h) (by decide)

/-- A line feed is read from its own byte only, whatever the leading byte. -/
theorem next_lineFeed {first : UInt8} {rest : List UInt8} {width : Nat}
    (h : next first rest = .scalar '\n' width) : first = 0x0A ∧ width = 1 := by
  have hpayload : ∀ b : UInt8, payload b < 64 := fun b => Nat.mod_lt _ (by decide)
  have hlt : first.toNat < 256 := first.toNat_lt
  unfold next at h
  split at h
  · rename_i hascii
    obtain ⟨hchar, rfl⟩ := Next.scalar.inj h
    have hnat := ofNat_eq_lineFeed hchar
    exact ⟨UInt8.toNat_inj.mp hnat, rfl⟩
  · split at h
    · rename_i hrange
      simp only [Bool.and_eq_true, decide_eq_true_eq, UInt8.le_iff_toNat_le,
        UInt8.reduceToNat] at hrange
      split at h
      · cases h
      · split at h
        · have hnat := ofNat_eq_lineFeed (Next.scalar.inj h).1
          omega
        · cases h
    · split at h
      · rename_i hrange
        simp only [Bool.and_eq_true, decide_eq_true_eq, UInt8.le_iff_toNat_le,
          UInt8.reduceToNat] at hrange
        split at h
        · cases h
        · split at h
          · rename_i hsecond
            split at h
            · cases h
            · split at h
              · have hnat := ofNat_eq_lineFeed (Next.scalar.inj h).1
                simp only [threeByteSecond, isContinuation, payload, Bool.or_eq_true,
                  Bool.and_eq_true, decide_eq_true_eq, beq_iff_eq, UInt8.le_iff_toNat_le,
                  ← UInt8.toNat_inj, UInt8.reduceToNat] at hsecond hnat
                omega
              · cases h
          · cases h
      · split at h
        · rename_i hrange
          simp only [Bool.and_eq_true, decide_eq_true_eq, UInt8.le_iff_toNat_le,
            UInt8.reduceToNat] at hrange
          split at h
          · cases h
          · split at h
            · rename_i hsecond
              split at h
              · cases h
              · split at h
                · split at h
                  · cases h
                  · split at h
                    · have hnat := ofNat_eq_lineFeed (Next.scalar.inj h).1
                      simp only [fourByteSecond, isContinuation, payload, Bool.or_eq_true,
                        Bool.and_eq_true, decide_eq_true_eq, beq_iff_eq, UInt8.le_iff_toNat_le,
                        ← UInt8.toNat_inj, UInt8.reduceToNat] at hsecond hnat
                      omega
                    · cases h
                · cases h
            · cases h
        · cases h

/-- The first character of a lossy decoding is a line feed only for a line feed byte. -/
theorem decodeLossyFrom_head {bytes : List UInt8} {text : List Char}
    (h : decodeLossyFrom 0 bytes = '\n' :: text) :
    ∃ rest, bytes = 0x0A :: rest ∧ decodeLossyFrom 0 rest = text := by
  cases bytes with
  | nil => cases h
  | cons b rest =>
      rw [decodeLossyFrom] at h
      split at h
      · rename_i c width hnext
        obtain ⟨rfl, htext⟩ := List.cons.inj h
        obtain ⟨rfl, rfl⟩ := next_lineFeed hnext
        exact ⟨rest, rfl, htext⟩
      · exact absurd (List.cons.inj h).1 (by decide)
      · exact absurd (List.cons.inj h).1 (by decide)

/-- **Substitution never makes a blank line**: two line feeds in a row in a lossy decoding are two
line feed bytes in a row. -/
theorem blankLine_of_decodeLossyFrom (skip : Nat) (bytes : List UInt8)
    (h : ['\n', '\n'] <:+: decodeLossyFrom skip bytes) : [0x0A, 0x0A] <:+: bytes := by
  induction bytes generalizing skip with
  | nil =>
      have hlength := h.length_le
      simp [decodeLossyFrom] at hlength
  | cons b rest ih =>
      have hskip : ∀ skip, ['\n', '\n'] <:+: decodeLossyFrom skip rest →
          [0x0A, 0x0A] <:+: b :: rest :=
        fun skip htail => (ih skip htail).trans (List.suffix_cons b rest).isInfix
      rw [decodeLossyFrom.eq_def] at h
      cases skip with
      | succ skip => exact hskip skip h
      | zero =>
          simp only at h
          split at h
          · rename_i c width hnext
            rcases List.infix_cons_iff.mp h with hprefix | htail
            · obtain ⟨tail, htail⟩ := hprefix
              obtain ⟨rfl, hrest⟩ := List.cons.inj htail
              obtain ⟨rfl, rfl⟩ := next_lineFeed hnext
              obtain ⟨more, rfl, -⟩ := decodeLossyFrom_head hrest.symm
              exact List.IsPrefix.isInfix ⟨more, rfl⟩
            · exact hskip _ htail
          · rcases List.infix_cons_iff.mp h with hprefix | htail
            · obtain ⟨tail, htail⟩ := hprefix
              exact absurd (List.cons.inj htail).1 (by decide)
            · exact hskip _ htail
          · rcases List.infix_cons_iff.mp h with hprefix | htail
            · obtain ⟨tail, htail⟩ := hprefix
              exact absurd (List.cons.inj htail).1 (by decide)
            · exact hskip _ htail

example : decode [0x63, 0x61, 0x66, 0xC3, 0xA9] = .ok "café".toList := by decide

example : decode [0x61, 0xE2, 0x82] = .error ⟨1, none⟩ := by decide

example : decodeLossy [0x61, 0xE2, 0x28, 0xFF, 0x62] = "a\uFFFD(\uFFFDb".toList := by decide

end Utf8
end Library
end EslTokio
