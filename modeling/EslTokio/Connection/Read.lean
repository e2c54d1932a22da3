import EslTokio.Protocol.Chunking

/-!
# One read from the socket

`read_into_parser` of `src/connection/mod.rs`, the step the handshake and the reader loop take
between two `parse_message` calls.  What the socket does for one timed read is an input of the
model; a read that returns no bytes is the end of the stream.
-/

namespace EslTokio

open Library

/-- What the socket did for one read under a timeout. -/
inductive ReadOutcome where
  | bytes (data : Bytes)
  | failed (message : Text)
  | elapsed
deriving DecidableEq, Repr

/-- The bytes a read returned. -/
def ReadOutcome.data : ReadOutcome → Bytes
  | .bytes data => data
  | _ => []

/-- What one read observed on the socket. -/
inductive ReadStep where
  -- bytes arrived and were handed to the parser
  | fed
  -- the peer closed the connection cleanly
  | eof
  -- nothing arrived in time
  | idle
deriving DecidableEq, Repr

namespace EslParser

/-- Read once into the parser. -/
def readIntoParser (p : EslParser) : ReadOutcome → Except EslError ReadStep × EslParser
  | .elapsed => (.ok .idle, p)
  | .failed message => (.error (.io message), p)
  | .bytes data =>
      if data = [] then (.ok .eof, p)
      else
        match p.addData data with
        | (.error e, p) => (.error e, p)
        | (.ok (), p) => (.ok .fed, p)

/-- Everything one read can do. -/
theorem readIntoParser_cases (p : EslParser) (outcome : ReadOutcome) :
    (outcome = .elapsed ∧ p.readIntoParser outcome = (.ok .idle, p)) ∨
      (∃ message, outcome = .failed message ∧
        p.readIntoParser outcome = (.error (.io message), p)) ∨
      (outcome = .bytes [] ∧ p.readIntoParser outcome = (.ok .eof, p)) ∨
      (∃ data size limit, outcome = .bytes data ∧ data ≠ [] ∧
        Reference.checkSize (p.view.append data).bytes = .error (.bufferOverflow size limit) ∧
        p.readIntoParser outcome = (.error (.bufferOverflow size limit), (p.addData data).2)) ∨
      (∃ data, outcome = .bytes data ∧ data ≠ [] ∧
        Reference.checkSize (p.view.append data).bytes = .ok () ∧
        p.readIntoParser outcome = (.ok .fed, (p.addData data).2)) := by
  cases outcome with
  | elapsed => exact Or.inl ⟨rfl, rfl⟩
  | failed message => exact Or.inr (Or.inl ⟨message, rfl, rfl⟩)
  | bytes data =>
      refine Or.inr (Or.inr ?_)
      by_cases hdata : data = []
      · subst hdata
        exact Or.inl ⟨rfl, rfl⟩
      · refine Or.inr ?_
        have hadd : p.addData data =
            (Reference.checkSize (p.view.append data).bytes, (p.addData data).2) := rfl
        rcases Reference.checkSize_cases (p.view.append data).bytes with
          ⟨size, limit, hcheck⟩ | hcheck
        · refine Or.inl ⟨data, size, limit, rfl, hdata, hcheck, ?_⟩
          rw [readIntoParser, if_neg hdata, hadd, hcheck]
        · refine Or.inr ⟨data, rfl, hdata, hcheck, ?_⟩
          rw [readIntoParser, if_neg hdata, hadd, hcheck]

/-- A read that fed the parser brought bytes that fit. -/
theorem readIntoParser_eq_fed {p next : EslParser} {outcome : ReadOutcome}
    (h : p.readIntoParser outcome = (.ok .fed, next)) :
    ∃ data, outcome = .bytes data ∧ data ≠ [] ∧
      Reference.checkSize (p.view.append data).bytes = .ok () ∧ next = (p.addData data).2 := by
  rcases p.readIntoParser_cases outcome with ⟨-, heq⟩ | ⟨_, -, heq⟩ | ⟨-, heq⟩ |
    ⟨_, _, _, -, -, -, heq⟩ | ⟨data, houtcome, hdata, hfits, heq⟩
  all_goals
    rw [heq] at h
    cases h
  exact ⟨data, houtcome, hdata, hfits, rfl⟩

theorem readIntoParser_eq_eof {p next : EslParser} {outcome : ReadOutcome}
    (h : p.readIntoParser outcome = (.ok .eof, next)) : outcome = .bytes [] ∧ next = p := by
  rcases p.readIntoParser_cases outcome with ⟨-, heq⟩ | ⟨_, -, heq⟩ | ⟨houtcome, heq⟩ |
    ⟨_, _, _, -, -, -, heq⟩ | ⟨_, -, -, -, heq⟩
  all_goals
    rw [heq] at h
    cases h
  exact ⟨houtcome, rfl⟩

theorem readIntoParser_eq_idle {p next : EslParser} {outcome : ReadOutcome}
    (h : p.readIntoParser outcome = (.ok .idle, next)) : outcome = .elapsed ∧ next = p := by
  rcases p.readIntoParser_cases outcome with ⟨houtcome, heq⟩ | ⟨_, -, heq⟩ | ⟨-, heq⟩ |
    ⟨_, _, _, -, -, -, heq⟩ | ⟨_, -, -, -, heq⟩
  all_goals
    rw [heq] at h
    cases h
  exact ⟨houtcome, rfl⟩

end EslParser
end EslTokio
