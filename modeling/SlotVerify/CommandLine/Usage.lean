import SlotVerify.CommandLine.Execution
/-
  The program from its command line on.

  A line that names no command is answered by the way the program is used: help and the version
  number are printed, everything else is a mistake and ends with a code of its own.
-/

namespace SlotVerify.CommandLine

/-- The code of a command line with a mistake. -/
def usageCode : Nat := 2

/-- The code of a program that broke down. -/
def breakdownCode : Nat := 101

/-- The line that `--version` prints. -/
def versionLine : String := "otaverify-cli 0.1.0\n"

/-- How each command is used. -/
def usageLines : List (String × String) :=
  [("verify", "otaverify verify [--no-write-verity] --plan FILE"),
   ("hash", "otaverify hash [--size SIZE] --image FILE"),
   ("write-verity",
     "otaverify write-verity [--block-size SIZE] [--hash-algorithm NAME] [--salt HEX] " ++
     "[--hash-tree-offset SIZE] [--hash-tree-size SIZE] [--fec-offset SIZE] [--fec-size SIZE] " ++
     "[--fec-roots COUNT] --data-size SIZE --image FILE"),
   ("help", "otaverify help [COMMAND]")]

/-- How one command is used, or all of them. -/
def usageText (command : Option String) : String :=
  let lines := usageLines.filter fun (name, _) => command.all (· == name)
  String.join (lines.map fun (_, line) => s!"Usage: {line}\n")

/-- What is wrong with a command line. -/
def Refusal.message : Refusal → String
  | .help _ | .version => ""
  | .nothingGiven => "no command given"
  | .unknownCommand word => s!"unrecognized subcommand {word}"
  | .unknownArgument word => s!"unexpected argument {word} found"
  | .missingValue option => s!"a value is required for --{option} but none was supplied"
  | .unwantedValue option => s!"unexpected value for --{option} found; no more were expected"
  | .repeated option => s!"the argument --{option} cannot be used multiple times"
  | .invalidValue option text fault => s!"invalid value {text} for --{option}: {fault.message}"
  | .missingOption option => s!"the required argument --{option} was not provided"

/-- Answers a command line that names no command. -/
def Refusal.answer : Refusal → Session Nat
  | .help command => request (.print (usageText command)) fun _ => .done 0
  | .version => request (.print versionLine) fun _ => .done 0
  | r => request (.remark s!"error: {r.message}\n\n{usageText none}") fun _ => .done usageCode

/-- The program; gives the number that it exits with. -/
def program (words : List String) : Session Nat :=
  match Command.ofWords words with
  | .error r => r.answer
  | .ok c => c.execute.bind conclude

end SlotVerify.CommandLine
