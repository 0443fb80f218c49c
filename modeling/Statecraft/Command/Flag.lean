import Statecraft.Text.Duration
import Statecraft.Text.Integer
import Statecraft.Text.Quoted

/-! Flags of the command line. A flag is written with one or two dashes. A switch
may have a value after an equals sign; any other flag has its value there or in
the next argument. Flags end at the first argument that is none, or after a double
dash. -/
namespace Statecraft.Command

structure Options where
  verbose : Bool := false
  optimize : Bool := false
  /-- Zero or less is no limit. -/
  maxSteps : Int := 0
  /-- In nanoseconds; zero or less is no deadline. -/
  timeout : Int := 0
  /-- Where steps are recorded; the empty path records none. -/
  trace : String := ""
  history : String := ""
  hideLocations : Bool := false
  dot : Bool := false
deriving DecidableEq, Repr

/-- How the text of a flag sets options. A switch takes a truth value; the others
name their argument in the usage text. -/
inductive Flag.Setter where
  | switch (set : Bool → Options → Options)
  | integer (argument : String) (set : Int → Options → Options)
  | duration (argument : String) (set : Int → Options → Options)
  | text (argument : String) (set : String → Options → Options)

structure Flag where
  name : String
  setter : Flag.Setter
  usage : String
  /-- The value without the flag, where it is not empty. -/
  default : String := ""

namespace Flag

def argument? (f : Flag) : Option String :=
  match f.setter with
  | .switch _ => none
  | .integer argument _ | .duration argument _ | .text argument _ => some argument

/-- The flag in the usage text. The explanation of a flag with a short name and
without an argument stands beside it. -/
def usageText (f : Flag) : String :=
  let head := "  -" ++ f.name ++ ((f.argument?.map (" " ++ ·)).getD "")
  let gap := if head.utf8ByteSize ≤ 4 then "\t" else "\n    \t"
  let default := if f.default.isEmpty then "" else " (default " ++ Text.quoted f.default ++ ")"
  head ++ gap ++ f.usage ++ default ++ "\n"

def truth? (text : String) : Option Bool :=
  if text ∈ ["1", "t", "T", "true", "TRUE", "True"] then some true
  else if text ∈ ["0", "f", "F", "false", "FALSE", "False"] then some false
  else none

def set (f : Flag) (value : String) (options : Options) : Except String Options :=
  match f.setter with
  | .switch set =>
      match truth? value with
      | some b => .ok (set b options)
      | none => .error "parse error"
  | .integer _ set =>
      match Text.integerLiteral value with
      | .ok n => .ok (set n options)
      | .error .malformed => .error "parse error"
      | .error .outOfRange => .error "value out of range"
  | .duration _ set =>
      match Text.duration? value with
      | some d => .ok (set d options)
      | none => .error "parse error"
  | .text _ set => .ok (set value options)

inductive Refusal where
  /-- The usage text was asked for. -/
  | help
  | badSyntax (argument : String)
  | undefined (name : String)
  | argumentMissing (name : String)
  | badSwitch (value name reason : String)
  | badValue (value name reason : String)
deriving DecidableEq, Repr

def Refusal.message : Refusal → String
  | help => ""
  | badSyntax argument => "bad flag syntax: " ++ argument ++ "\n"
  | undefined name => "flag provided but not defined: -" ++ name ++ "\n"
  | argumentMissing name => "flag needs an argument: -" ++ name ++ "\n"
  | badSwitch value name reason =>
      "invalid boolean value " ++ Text.quoted value ++ " for -" ++ name ++ ": " ++ reason ++ "\n"
  | badValue value name reason =>
      "invalid value " ++ Text.quoted value ++ " for flag -" ++ name ++ ": " ++ reason ++ "\n"

inductive Argument where
  /-- No flag: flags end before it. -/
  | plain
  /-- The double dash: flags end after it. -/
  | close
  | malformed
  | flag (name : String) (value : Option String)
deriving DecidableEq, Repr

/-- Cuts a flag without its dashes at the first equals sign. -/
def named (cs : List Char) : Argument :=
  match cs with
  | [] => .malformed
  | first :: rest =>
      if first = '-' ∨ first = '=' then .malformed
      else
        let name := String.ofList (first :: rest.takeWhile (· ≠ '='))
        match rest.dropWhile (· ≠ '=') with
        | _ :: value => .flag name (some (String.ofList value))
        | [] => .flag name none

/-- How an argument is taken. A single dash is no flag. -/
def classify (argument : String) : Argument :=
  match argument.toList with
  | ['-', '-'] => .close
  | '-' :: '-' :: name => named name
  | ['-'] => .plain
  | '-' :: name => named name
  | _ => .plain

/-- Reads flags; the answer has the options and the arguments after the flags. -/
def readAll (flags : List Flag) : List String → Options → Except Refusal (Options × List String)
  | [], options => .ok (options, [])
  | argument :: rest, options =>
      match classify argument with
      | .plain => .ok (options, argument :: rest)
      | .close => .ok (options, rest)
      | .malformed => .error (.badSyntax argument)
      | .flag name value =>
          match flags.find? (·.name = name) with
          | none => .error (if name = "help" ∨ name = "h" then .help else .undefined name)
          | some flag =>
              match flag.argument?, value with
              | none, value =>
                  let value := value.getD "true"
                  match flag.set value options with
                  | .error reason => .error (.badSwitch value name reason)
                  | .ok options => readAll flags rest options
              | some _, some value =>
                  match flag.set value options with
                  | .error reason => .error (.badValue value name reason)
                  | .ok options => readAll flags rest options
              | some _, none =>
                  match rest with
                  | [] => .error (.argumentMissing name)
                  | value :: rest =>
                      match flag.set value options with
                      | .error reason => .error (.badValue value name reason)
                      | .ok options => readAll flags rest options

end Flag
end Statecraft.Command
