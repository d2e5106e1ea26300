import FunLang.Number.Reading
import FunLang.Text.Quoted

set_option autoImplicit false

/-!
# Flags

A command takes flags in front of its other arguments. A flag `-name` is followed by its value, as the
next argument or after an equals sign; a switch needs none. One or two dashes make no difference.
Flags end at the first argument that is no flag, or after `--`.
-/

namespace FunLang

/-- A flag that changes settings of type `σ`. -/
structure Flag (σ : Type) where
  name : String
  /-- What the flag is for. -/
  help : String
  /-- What its value is called; a switch has none. -/
  operand : String
  isSwitch : Bool
  /-- The value without the flag, as the help shows it, unless it goes without saying. -/
  default : Option String
  /-- Takes in a written value. Settings may change even where the value is refused. -/
  set : String → σ → σ × Option String

namespace Flag

/-- The same flag where the settings are part of others. -/
def within {σ τ : Type} (get : τ → σ) (put : σ → τ → τ) (f : Flag σ) : Flag τ :=
  { name := f.name, help := f.help, operand := f.operand, isSwitch := f.isSwitch
    default := f.default
    set := fun value t =>
      let (s, e) := f.set value (get t)
      (put s t, e) }

/-- The truth value of a written switch. -/
def readBool? (value : String) : Option Bool :=
  if value ∈ ["1", "t", "T", "true", "TRUE", "True"] then some true
  else if value ∈ ["0", "f", "F", "false", "FALSE", "False"] then some false
  else none

/-- A switch that is off unless it is given. -/
def switch {σ : Type} (name help : String) (put : Bool → σ → σ) : Flag σ :=
  { name, help, operand := "", isSwitch := true, default := none
    set := fun value s =>
      match readBool? value with
      | some b => (put b s, none)
      | none => (s, some "parse error") }

/-- Why a number is refused. -/
def reason : Number.NumberError → String
  | .malformed => "parse error"
  | .outOfRange => "value out of range"

/-- A default that is not zero. -/
def shownNumber (n : Int) : Option String := if n = 0 then none else some (toString n)

/-- A flag whose value is an integer. -/
def int {σ : Type} (name help : String) (default : Int64) (put : Int64 → σ → σ) : Flag σ :=
  { name, help, operand := "int", isSwitch := false, default := shownNumber default.toInt
    set := fun value s =>
      match Number.readSigned Number.readNatural value.toList with
      | .ok n => (put n s, none)
      | .error e => (s, some (reason e)) }

/-- A flag whose value is a natural number. -/
def uint {σ : Type} (name help : String) (default : UInt64) (put : UInt64 → σ → σ) : Flag σ :=
  { name, help, operand := "uint", isSwitch := false, default := shownNumber default.toNat
    set := fun value s =>
      match Number.readNatural value.toList with
      | .ok n => (put n.toUInt64 s, none)
      | .error e => (s, some (reason e)) }

end Flag

/-- What can be wrong with flags. A request for help ends the reading of flags too. -/
inductive FlagError where
  | malformed (arg : String)
  | undefined (name : String)
  | missingValue (name : String)
  | badValue (name value reason : String)
  | badSwitch (name value reason : String)
  | helpRequested
deriving DecidableEq, Repr, Inhabited

def FlagError.message : FlagError → String
  | malformed arg => s!"bad flag syntax: {arg}"
  | undefined name => s!"flag provided but not defined: -{name}"
  | missingValue name => s!"flag needs an argument: -{name}"
  | badValue name value reason => s!"invalid value {Text.quote value} for flag -{name}: {reason}"
  | badSwitch name value reason => s!"invalid boolean value {Text.quote value} for -{name}: {reason}"
  | helpRequested => "flag: help requested"

namespace Flags

/-- Settings after some flags, the arguments that are left, and what went wrong. -/
structure Parsed (σ : Type) where
  settings : σ
  rest : List String
  error : Option FlagError

/-- An argument as flags see it. -/
inductive Arg where
  /-- No flag, and no flag after it. -/
  | operand
  /-- The mark after which there are no flags. -/
  | stop
  | malformed
  | flag (name : String) (value : Option String)

/-- The name and the value of a flag without its dashes. The name has at least one character. -/
def nameAndValue (cs : List Char) : String × Option String :=
  match cs with
  | [] => ("", none)
  | c :: cs =>
    let name := String.ofList (c :: cs.takeWhile (· != '='))
    match cs.dropWhile (· != '=') with
    | [] => (name, none)
    | _ :: value => (name, some (String.ofList value))

def classify (arg : String) : Arg :=
  let named (cs : List Char) : Arg :=
    match cs with
    | [] | '-' :: _ | '=' :: _ => .malformed
    | cs =>
      let (name, value) := nameAndValue cs
      .flag name value
  match arg.toList with
  | ['-', '-'] => .stop
  | '-' :: '-' :: cs => named cs
  | '-' :: c :: cs => named (c :: cs)
  | _ => .operand

/-- Reads flags into settings. -/
def parse {σ : Type} (flags : List (Flag σ)) (s : σ) : List String → Parsed σ
  | [] => ⟨s, [], none⟩
  | arg :: rest =>
    match classify arg with
    | .operand => ⟨s, arg :: rest, none⟩
    | .stop => ⟨s, rest, none⟩
    | .malformed => ⟨s, arg :: rest, some (.malformed arg)⟩
    | .flag name value =>
      match flags.find? (·.name == name) with
      | none =>
        if name = "help" ∨ name = "h" then ⟨s, rest, some .helpRequested⟩
        else ⟨s, rest, some (.undefined name)⟩
      | some f =>
        if f.isSwitch then
          match f.set (value.getD "true") s with
          | (s, none) => parse flags s rest
          | (s, some reason) => ⟨s, rest, some (.badSwitch name (value.getD "true") reason)⟩
        else
          match value, rest with
          | some v, rest =>
            match f.set v s with
            | (s, none) => parse flags s rest
            | (s, some reason) => ⟨s, rest, some (.badValue name v reason)⟩
          | none, v :: rest =>
            match f.set v s with
            | (s, none) => parse flags s rest
            | (s, some reason) => ⟨s, rest, some (.badValue name v reason)⟩
          | none, [] => ⟨s, [], some (.missingValue name)⟩

/-! ## Help -/

/-- The lines about a flag. The help of a switch of one letter stands beside it. -/
def usageOf {σ : Type} (f : Flag σ) : String :=
  let head := "  -" ++ f.name ++ if f.operand.isEmpty then "" else " " ++ f.operand
  head ++ (if head.utf8ByteSize ≤ 4 then "\t" else "\n    \t") ++ f.help
    ++ (match f.default with
      | some d => s!" (default {d})"
      | none => "") ++ "\n"

/-- The help of a command: its flags by name. -/
def usage {σ : Type} (command : String) (flags : List (Flag σ)) : String :=
  s!"Usage of {command}:\n"
    ++ String.join ((flags.mergeSort fun a b => a.name ≤ b.name).map usageOf)

/-- What is printed about an error in flags. -/
def complaint {σ : Type} (command : String) (flags : List (Flag σ)) : FlagError → String
  | .helpRequested => usage command flags
  | e => e.message ++ "\n" ++ usage command flags

end Flags

end FunLang
