import EslTokio.DialString.Target

/-!
# Dialplan expansion

`freeswitch-types/src/switch_passes/expansion.rs`: the escape handling that
`switch_channel_expand_variables_check` runs over a dialplan application's argument, and the
switch's test for a text that names a variable.

* `expandEscapes` — the expanded text and the spans of its output that hold a reference.
* `namesAVariable` — whether a text names a variable.
* `quoteBareAfter`, `protectsDollars` — what a render writes for it.
-/

namespace EslTokio
namespace SwitchPasses

open Library

/-- `switch_string_var_check_const`, a `$` seen with only backslashes behind it so far. -/
def varCheckFrom (dollar : Bool) : Text → Bool
  | [] => false
  | c :: rest =>
      if c = '$' then varCheckFrom true rest
      else if dollar = true ∧ c = '{' then true
      else if c ≠ '\\' then varCheckFrom false rest
      else varCheckFrom dollar rest

/-- `switch_string_var_check_const`. -/
def varCheckConst (text : Text) : Bool := varCheckFrom false text

/-- Whether a value names a variable. -/
def namesAVariable (value : Text) : Bool := varCheckConst value

/-- A quote reading bare once `passes` passes at `target` have run: the dialplan carrier's expansion
deletes a `\'` outright, where every other pass unescapes it. -/
def quoteBareAfter (target : DialStringTarget) (passes : Nat) : Text :=
  let consumedByCarrier := if target.carrier.expands then 2 else 1
  List.replicate (2 ^ passes - consumedByCarrier) '\\' ++ ['\'']

/-- Whether a text holds a `$$`. -/
def hasDoubleDollar (text : Text) : Bool := (Search.find ['$', '$'] text).isSome

/-- Whether a render escapes the dollars of a value: expansion drops the first `$` of a `$$` that
opens no reference. Text naming a variable is left to the switch. -/
def protectsDollars (value : Text) (target : DialStringTarget) : Bool :=
  target.carrier.expands && hasDoubleDollar value && !namesAVariable value

/-- A backslash before what expansion takes for an escape. -/
def hasEscapedData : Text → Bool
  | '\\' :: next :: rest =>
      ['\\', 'n', 's', 't', '\''].contains next || hasEscapedData (next :: rest)
  | _ :: rest => hasEscapedData rest
  | [] => false

/-- The length through the `}` closing a reference, from the first char of its name on. -/
def referenceLength (first : Bool) (depth : Nat) : Text → Nat
  | [] => 0
  | c :: rest =>
      if depth = 1 ∧ c = '}' then 1
      else if c = '{' ∧ first = false then referenceLength false (depth + 1) rest + 1
      else if 1 < depth ∧ c = '}' then referenceLength false (depth - 1) rest + 1
      else referenceLength false depth rest + 1

/-- The entries copied as they are for a reference: the reference itself, and the char behind it
unless that opens another. `dollars` counts the `$` ahead of the `{`. -/
def referenceCopies (dollars : Nat) (body : Text) : Nat :=
  let length := referenceLength true 1 body
  match body.drop length with
  | [] => dollars + 1 + length
  | next :: _ => if next = '$' then dollars + 1 + length else dollars + 1 + length + 1

/-- The loop of `switch_channel_expand_variables_check`, `copies` entries of a reference still to be
copied and `written` entries written. -/
def expandFrom (copies written : Nat) : List Traced → List Traced × List Span
  | [] => ([], [])
  | cell :: rest =>
      match copies with
      | copies + 1 =>
          let later := expandFrom copies (written + 1) rest
          (cell :: later.1, later.2)
      | 0 =>
          match rest with
          | [] => ([cell], [])
          | next :: rest =>
              if cell.char = '\\' ∧ next.char = '$' then
                match rest with
                | [] => ([next], [])
                | third :: rest =>
                    if third.char = '$' then
                      let later := expandFrom 0 (written + 1) rest
                      (third :: later.1, later.2)
                    else
                      let later := expandFrom 0 (written + 1) (third :: rest)
                      (next :: later.1, later.2)
              else if cell.char = '\\' ∧ next.char = '\'' then expandFrom 0 written rest
              else if cell.char = '\\' ∧ next.char = '\\' then
                let later := expandFrom 0 (written + 1) rest
                (⟨'\\', cell.start, next.stop⟩ :: later.1, later.2)
              else if cell.char = '$' ∧ next.char = '{' then
                let body := chars rest
                let length := 2 + referenceLength true 1 body
                let later := expandFrom (referenceCopies 1 body - 1) (written + 1) (next :: rest)
                (cell :: later.1, ⟨written, written + length⟩ :: later.2)
              else if cell.char = '$' ∧ next.char = '$' then
                match rest with
                | third :: rest =>
                    if third.char = '{' then
                      let body := chars rest
                      let length := 3 + referenceLength true 1 body
                      let later :=
                        expandFrom (referenceCopies 2 body - 1) (written + 1)
                          (next :: third :: rest)
                      (cell :: later.1, ⟨written, written + length⟩ :: later.2)
                    else
                      let later := expandFrom 0 (written + 1) (third :: rest)
                      (next :: later.1, later.2)
                | [] => ([next], [])
              else
                let later := expandFrom 0 (written + 1) (next :: rest)
                (cell :: later.1, later.2)

/-- The escape handling of `switch_channel_expand_variables_check`, and the spans of its output that
hold a reference the switch substitutes. -/
def expandEscapes (text : List Traced) : List Traced × List Span :=
  if hasEscapedData (chars text) = false ∧ varCheckConst (chars text) = false then (text, [])
  else expandFrom 0 0 text

end SwitchPasses
end EslTokio
