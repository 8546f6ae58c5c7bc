import OutputDescriptor.CommandLine.Arguments
import OutputDescriptor.Descriptor.Text
import OutputDescriptor.KeyRing
import OutputDescriptor.Whitespace

/-!
The commands of the command line and what they print.

A report is the lines printed for the user, the lines printed for the record, and the failure that
ended the command, if one did. Nothing is printed by these definitions themselves.
-/

namespace OutputDescriptor.CommandLine

inductive Failure
  | descriptor (error : DescriptorError)
  | checksum (error : ChecksumError)
  | indexRequired
  | selectorRequired
  | unresolvable
  | rangeOverflow (first count : Nat)
deriving DecidableEq

def Failure.message : Failure → String
  | descriptor error => error.message
  | checksum error => error.message
  | indexRequired => "descriptor is ranged and requires child number; use `--index` option."
  | selectorRequired => "combo descriptor requires output selector; use `--combo` option."
  | unresolvable =>
    "descriptor can't be compiled: some of its keys can't be resolved (a hardened derivation " ++
      "may require `--xpriv` option) or a witness output uses an uncompressed key."
  | rangeOverflow first count =>
    s!"child number range {first}..{first}+{count} exceeds the maximum unhardened index."

structure Report where
  lines : List String
  notes : List String
  failure : Option Failure
deriving DecidableEq

namespace Report

def printed (lines : List String) : Report := ⟨lines, [], none⟩

def failed (failure : Failure) : Report := ⟨[], [], some failure⟩

def withNote (note : String) (report : Report) : Report :=
  { report with notes := note :: report.notes }

/-- A report followed by another one, unless the first has failed. -/
def andThen (report : Report) (next : Unit → Report) : Report :=
  match report.failure with
  | some _ => report
  | none =>
    let next := next ()
    ⟨report.lines ++ next.lines, report.notes ++ next.notes, next.failure⟩

end Report

def padLeft (width : Nat) (text : String) : String :=
  String.ofList (List.replicate (width - text.length) ' ') ++ text

def padRight (width : Nat) (text : String) : String :=
  text ++ String.ofList (List.replicate (width - text.length) ' ')

/-- A line of a table, whose labels are filled up to one width. -/
def labelled (width : Nat) (label value : String) : String :=
  s!"{padRight width label} {value}"

def yesNo (flag : Bool) : String :=
  if flag then "yes" else "no"

/-- Goes on with the descriptor that a text stands for. -/
def withDescriptor (text : List Char) (next : Descriptor → Report) : Report :=
  match Descriptor.parse (Whitespace.trim text) with
  | .ok descriptor => next descriptor
  | .error error => .failed (.descriptor error)

variable [KeyArithmetic]

def checkLines (descriptor : Descriptor) : Except ChecksumError (List String) := do
  let row := labelled 14
  let text ← descriptor.checkedText
  let publicRow ←
    if descriptor.hasPrivateKeys then do
      let text ← descriptor.toPublic.checkedText
      pure [row "Public:" (String.ofList text)]
    else pure []
  return ["", row "Descriptor:" (String.ofList text)] ++ publicRow ++
    [row "Ranged:" (yesNo descriptor.isRanged),
     row "Private keys:" (yesNo descriptor.hasPrivateKeys),
     row "Combo:" (yesNo descriptor.isCombo), ""]

def check (descriptor : Descriptor) : Report :=
  match checkLines descriptor with
  | .ok lines => .printed lines
  | .error error => .failed (.checksum error)

def addressText? (network : Network) (script : Script) : Option String :=
  (Address.ofScript? network script).map fun address => String.ofList address.text

def hexText (script : Script) : String :=
  String.ofList (Bytes.toHex script)

def script (network : Network) (source : Option KeySource) (index : Option Nat)
    (selector : Option ComboSelector) (descriptor : Descriptor) : Report :=
  if descriptor.isRanged && index.isNone then .failed .indexRequired
  else if descriptor.isCombo && selector.isNone then .failed .selectorRequired
  else
    match descriptor.script? index source selector with
    | none => .failed .unresolvable
    | some script =>
      let row := labelled 9
      .printed ["", row "Script:" (hexText script), row "Asm:" script.asm,
        row "Address:" ((addressText? network script).getD "none"), ""]

/-- The lines for one child number: one for each script, and at least one. -/
def deriveOne (network : Network) (source : Option KeySource) (descriptor : Descriptor)
    (index : Option Nat) : Report :=
  match descriptor.scripts index source with
  | [] => .failed .unresolvable
  | scripts =>
    let label := padLeft 6 ((index.map toString).getD "")
    .printed <| scripts.map fun script =>
      let address := padRight 64 ((addressText? network script).getD "-")
      s!"{label} {address} {hexText script}"

/-- The lines for `count` child numbers from `first` on. -/
def deriveRange (network : Network) (source : Option KeySource) (descriptor : Descriptor) :
    (first count : Nat) → Report
  | _, 0 => .printed []
  | first, count + 1 =>
    (deriveOne network source descriptor (some first)).andThen fun _ =>
      deriveRange network source descriptor (first + 1) count

def derive (network : Network) (source : Option KeySource) (first count : Nat)
    (descriptor : Descriptor) : Report :=
  if !descriptor.isRanged then
    (deriveOne network source descriptor none).withNote
      "Descriptor is not ranged; it has a single set of outputs"
  else if first + count ≤ 0x80000000 then
    deriveRange network source descriptor first count
  else
    .failed (.rangeOverflow first count)

def execute (arguments : Arguments) : Report :=
  let source := (KeyRing.ofList arguments.keys).source?
  match arguments.command with
  | .check text => withDescriptor text check
  | .script text index selector =>
    withDescriptor text (script arguments.network source index selector)
  | .derive text first count =>
    withDescriptor text (derive arguments.network source first count)

/-- What a run of the program leaves behind. -/
structure Outcome where
  exitCode : UInt8
  out : String
  err : String
deriving DecidableEq

def ofLines (lines : List String) : String :=
  String.join (lines.map (· ++ "\n"))

def Report.outcome (report : Report) : Outcome where
  exitCode := if report.failure.isSome then 1 else 0
  out := ofLines report.lines
  err := ofLines (report.notes ++ match report.failure with
    | some failure => [s!"Error: {failure.message}", ""]
    | none => [])

def usage : String :=
  "usage: [--network=NAME] [--xpriv=KEY]... [--verbose]... COMMAND [OPTIONS] [--] DESCRIPTOR"

/-- Runs the program with the given arguments. -/
def run (arguments : List String) : Outcome :=
  match Arguments.parse? arguments with
  | some arguments => (execute arguments).outcome
  | none => ⟨2, "", ofLines [usage]⟩

end OutputDescriptor.CommandLine
