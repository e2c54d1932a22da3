import EslTokio.SwitchPasses.ApiArgument

/-!
# Where a dial string is headed

`freeswitch-types/src/commands/variables/target.rs` and the scopes of `variables/mod.rs`: the
command that carries a dial string, the block parser that reads it, and the split that cuts the
command's arguments.

* `DialStringTarget` — a target, which carries that only the API takes an argument separator, and
  only a usable one.
* `DialStringTarget.readArgument`, `writeArgument` — the argument split on the way in and out.
-/

namespace EslTokio

open Library SwitchPasses

/-- Scope of a variable block. -/
inductive VariablesType where
  | enterprise
  | default
  | channel
deriving DecidableEq, Repr

/-- The brackets of a scope. -/
def VariablesType.delimiters : VariablesType → Char × Char
  | .enterprise => ('<', '>')
  | .default => ('{', '}')
  | .channel => ('[', ']')

/-- Which command carries a dial string. -/
inductive DialStringCarrier where
  | eslApi
  | dialplan
deriving DecidableEq, Repr

/-- Dialplan variable expansion deletes an escaped quote outright and drops the first `$` of a `$$`.
-/
def DialStringCarrier.expands : DialStringCarrier → Bool
  | .eslApi => false
  | .dialplan => true

/-- Which revision of the block parser a dial string is rendered for. -/
inductive BlockParse where
  | pairSplitCleans
deriving DecidableEq, Repr

/-- The escape-consuming passes of the block's own splits. -/
def BlockParse.cleanupPasses : BlockParse → Nat
  | .pairSplitCleans => 2

/-- The carrier, the block-parser revision and the argument split. -/
structure DialStringTarget where
  carrier : DialStringCarrier
  blockParse : BlockParse
  argument : ArgumentPass
  /-- Only the API splits arguments, and only on a usable separator. -/
  valid : (∀ sep, argument = .char sep → carrier = .eslApi ∧ usableArgvSeparator sep = true) ∧
    (argument = .consumed → carrier = .eslApi)

/-- Why a target takes no argument separator. -/
inductive InvalidArgvSeparator where
  | wrongCarrier (carrier : DialStringCarrier)
  | unusable (sep : Char)
deriving DecidableEq, Repr

namespace DialStringTarget

/-- Target a carrier. -/
def new (carrier : DialStringCarrier) (blockParse : BlockParse) : DialStringTarget :=
  ⟨carrier, blockParse, .blank, nofun, nofun⟩

/-- Split `originate`'s arguments on `sep`. -/
def withArgvSeparator (target : DialStringTarget) (sep : Char) :
    Except InvalidArgvSeparator DialStringTarget :=
  match hcarrier : target.carrier with
  | .dialplan => .error (.wrongCarrier .dialplan)
  | .eslApi =>
      if husable : usableArgvSeparator sep = true then
        .ok { target with
          argument := .char sep
          valid := ⟨fun other hother => ⟨hcarrier, by cases hother; exact husable⟩, nofun⟩ }
      else .error (.unusable sep)

/-- The separator cutting `originate`'s arguments in place of the blank split. -/
def argvSeparator (target : DialStringTarget) : Option Char :=
  match target.argument with
  | .char sep => some sep
  | .blank | .consumed => none

/-- The delimiter of the argument split still ahead of this target, if any. -/
def splitDelimiter (target : DialStringTarget) : Option Char :=
  match target.carrier, target.argument with
  | .eslApi, .blank => some ' '
  | _, .char sep => some sep
  | .dialplan, .blank | _, .consumed => none

/-- This target inside an argument its split already read. -/
def inner (target : DialStringTarget) : DialStringTarget :=
  match hcarrier : target.carrier with
  | .dialplan => target
  | .eslApi => { target with argument := .consumed, valid := ⟨nofun, fun _ => hcarrier⟩ }

/-- The argument splits still ahead of this target. -/
def argumentPasses (target : DialStringTarget) : Nat :=
  match target.argument with
  | .blank | .char _ => 1
  | .consumed => 0

/-- A rendering at this target, escaped once at its edge for an argv separator's split. -/
def writeArgument (target : DialStringTarget) (render : DialStringTarget → Text) : Text :=
  match target.argvSeparator with
  | some sep => writeEscaped sep (render target.inner)
  | none => render target

/-- The one argument `originate`'s split leaves of a text, or none where no split reads it. -/
def splitArgument (target : DialStringTarget) (text : List Traced) :
    Option (Except ArgvCut (Option Token)) :=
  target.splitDelimiter.map (soleArgument text)

end DialStringTarget

end EslTokio
