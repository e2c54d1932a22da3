import EslTokio.Library.Search
import EslTokio.Library.Utf8

/-!
# Lossy decoding and lines

A line feed is a whole character and no part of another, well formed or not, so lossy decoding goes
line by line: what is decoded before a line feed does not depend on what follows it.

* `decodeLossy_lineFeed` — decoding comes apart at every line feed.
* **`find_blankLine_decodeLossy`** — the first blank line of a decoding is the decoding's end of
  what stands before the first blank line of the bytes.
-/

namespace EslTokio
namespace Library
namespace Utf8

theorem threeByteSecond_lineFeed (first : UInt8) : threeByteSecond first 0x0A = false := by
  simp [threeByteSecond, isContinuation]

theorem fourByteSecond_lineFeed (first : UInt8) : fourByteSecond first 0x0A = false := by
  simp [fourByteSecond, isContinuation]

/-- A sequence that ends within the input is read the same whatever follows. -/
theorem next_append_scalar {first : UInt8} {rest : List UInt8} {c : Char} {width : Nat}
    (h : next first rest = .scalar c width) (tail : List UInt8) :
    width - 1 ≤ rest.length ∧ next first (rest ++ tail) = .scalar c width := by
  rcases rest with _ | ⟨b, _ | ⟨d, _ | ⟨e, rest⟩⟩⟩
  all_goals
    simp only [next] at h
    simp only [next, List.nil_append, List.cons_append]
    split_ifs at h ⊢
    all_goals first
      | (cases h; done)
      | (obtain ⟨rfl, rfl⟩ := Next.scalar.inj h; simp)

theorem next_append_illFormed {first : UInt8} {rest : List UInt8} {length : Nat}
    (h : next first rest = .illFormed (some length)) (tail : List UInt8) :
    length - 1 ≤ rest.length ∧ next first (rest ++ tail) = .illFormed (some length) := by
  rcases rest with _ | ⟨b, _ | ⟨d, _ | ⟨e, rest⟩⟩⟩
  all_goals
    simp only [next] at h
    simp only [next, List.nil_append, List.cons_append]
    split_ifs at h ⊢
    all_goals first
      | (cases h; done)
      | (obtain rfl := Option.some.inj (Next.illFormed.inj h); simp)

/-- A sequence the input ends in is cut short by a line feed. -/
theorem next_append_lineFeed {first : UInt8} {rest : List UInt8}
    (h : next first rest = .illFormed none) (tail : List UInt8) :
    next first (rest ++ 0x0A :: tail) = .illFormed (some (rest.length + 1)) := by
  have hcontinuation : isContinuation 0x0A = false := rfl
  rcases rest with _ | ⟨b, _ | ⟨d, _ | ⟨e, rest⟩⟩⟩
  all_goals
    simp only [next] at h
    simp only [next, List.nil_append, List.cons_append, hcontinuation, threeByteSecond_lineFeed,
      fourByteSecond_lineFeed]
    split_ifs at h ⊢
    all_goals first
      | (cases h; done)
      | contradiction
      | rfl

theorem decodeLossyFrom_length (bytes : List UInt8) : decodeLossyFrom bytes.length bytes = [] := by
  induction bytes with
  | nil => rfl
  | cons b rest ih => exact ih

/-- Decoding comes apart at a line feed, wherever the bytes before it break off. -/
theorem decodeLossyFrom_lineFeed {skip : Nat} {bytes : List UInt8} (hskip : skip ≤ bytes.length)
    (tail : List UInt8) :
    decodeLossyFrom skip (bytes ++ 0x0A :: tail) =
      decodeLossyFrom skip bytes ++ '\n' :: decodeLossyFrom 0 tail := by
  induction bytes generalizing skip with
  | nil =>
      obtain rfl : skip = 0 := Nat.le_zero.mp hskip
      rfl
  | cons b rest ih =>
      rw [List.cons_append]
      cases skip with
      | succ skip =>
          show decodeLossyFrom skip (rest ++ 0x0A :: tail) = decodeLossyFrom skip rest ++ _
          exact ih (Nat.le_of_succ_le_succ hskip)
      | zero =>
          rw [decodeLossyFrom, decodeLossyFrom]
          cases hnext : next b rest with
          | scalar c width =>
              obtain ⟨hwidth, happend⟩ := next_append_scalar hnext (0x0A :: tail)
              rw [happend]
              simp only [ih hwidth, List.cons_append]
          | illFormed length =>
              cases length with
              | some length =>
                  obtain ⟨hlength, happend⟩ := next_append_illFormed hnext (0x0A :: tail)
                  rw [happend]
                  simp only [ih hlength, List.cons_append]
              | none =>
                  rw [next_append_lineFeed hnext tail]
                  simp only [Nat.add_sub_cancel, ih (Nat.le_refl _), decodeLossyFrom_length,
                    List.nil_append, List.cons_append]

theorem decodeLossy_lineFeed (bytes tail : List UInt8) :
    decodeLossy (bytes ++ 0x0A :: tail) = decodeLossy bytes ++ '\n' :: decodeLossy tail :=
  decodeLossyFrom_lineFeed (Nat.zero_le _) tail

/-- **The first blank line of the bytes is the first of their lossy decoding**, and each side of it
is decoded by itself. -/
theorem find_blankLine_decodeLossy {bytes : List UInt8} {pos : Nat}
    (h : Search.find [0x0A, 0x0A] bytes = some pos) :
    decodeLossy bytes = decodeLossy (bytes.take pos) ++
        '\n' :: '\n' :: decodeLossy (bytes.drop (pos + 2)) ∧
      Search.find ['\n', '\n'] (decodeLossy bytes) = some
        (decodeLossy (bytes.take pos)).length := by
  obtain ⟨⟨tail, htail⟩, hfirst⟩ := Search.find_eq_some h
  have hfit := Search.find_add_length_le (by simp) h
  have htail' : bytes.drop (pos + 2) = tail := by
    rw [← List.drop_drop, ← htail]
    rfl
  have hbytes : bytes = bytes.take pos ++ 0x0A :: 0x0A :: tail := by
    conv_lhs => rw [← List.take_append_drop pos bytes, ← htail]
    rfl
  have hsplit : decodeLossy bytes =
      decodeLossy (bytes.take pos) ++ '\n' :: '\n' :: decodeLossy tail := by
    conv_lhs => rw [hbytes, decodeLossy_lineFeed]
    exact congrArg (fun rest => decodeLossy (bytes.take pos) ++ '\n' :: rest)
      (decodeLossy_lineFeed [] tail)
  refine ⟨by rw [htail', hsplit], Search.find_eq_some_of_first ?_ ?_⟩
  · rw [hsplit, List.drop_left]
    exact ⟨decodeLossy tail, rfl⟩
  · -- An earlier blank line lies in what is decoded up to the first of the two line feeds.
    intro offset hoffset hocc
    have hshort : ['\n', '\n'] <:+: decodeLossy (bytes.take pos ++ [0x0A]) := by
      have hline : decodeLossy (bytes.take pos ++ [0x0A]) = decodeLossy
          (bytes.take pos) ++ ['\n'] :=
        decodeLossy_lineFeed (bytes.take pos) []
      have hwhole : decodeLossy bytes =
          (decodeLossy (bytes.take pos) ++ ['\n']) ++ '\n' :: decodeLossy tail := by
        rw [hsplit]
        simp
      rw [hwhole] at hocc
      have hprefix := Search.prefix_drop_of_append (by simp; omega) hocc
      rw [hline]
      exact hprefix.isInfix.trans (List.drop_suffix offset _).isInfix
    obtain ⟨left, right, hinfix⟩ := blankLine_of_decodeLossyFrom 0 _ hshort
    have hlength : left.length + 2 ≤ pos + 1 := by
      have hcount := congrArg List.length hinfix
      simp only [List.length_append, List.length_cons, List.length_nil, List.length_take] at hcount
      omega
    refine hfirst left.length (by omega) ?_
    have hall : bytes = left ++ [0x0A, 0x0A] ++ (right ++ 0x0A :: tail) := by
      conv_lhs => rw [hbytes]
      rw [← List.append_assoc, hinfix]
      simp
    rw [hall, List.append_assoc, List.drop_left]
    exact ⟨right ++ 0x0A :: tail, rfl⟩

end Utf8
end Library
end EslTokio
