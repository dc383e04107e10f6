import YinFrontEnd.ErrorCode.Explanation
import YinFrontEnd.Expr.Parse
import YinFrontEnd.Report

/-!
# The command line

A command is a function of its arguments and of the files it asks for. What it does is
what it prints on its two outputs and the status with which it ends.
-/
namespace YinFrontEnd.Command

/-- What a command did. -/
structure Outcome where
  status : Nat
  output : String
  errors : String
  deriving DecidableEq, Repr

/-- Why a file could not be had. -/
inductive FileFault where
  | notFound
  | denied
  | notText
  | other (description : String)
  deriving DecidableEq, Repr

def FileFault.message (path : String) : FileFault → String
  | notFound => "cannot find file '" ++ path ++ "'"
  | denied => "permission denied reading '" ++ path ++ "'"
  | notText => "'" ++ path ++ "' contains invalid UTF-8 data"
  | other description => "error reading '" ++ path ++ "': " ++ description

/-- Lines, each of them ended. -/
def lines (ls : List String) : String := String.join (ls.map (· ++ "\n"))

def succeed (ls : List String) : Outcome := ⟨0, lines ls, ""⟩

def fail (ls : List String) : Outcome := ⟨1, "", lines ls⟩

def version : String := "0.1.0"

def usage : List String :=
  ["Yin front end",
    "",
    "Usage: yin <command> [options]",
    "",
    "Commands:",
    "  read <file.yin>      Read a file and print its pre-AST",
    "  parse <file.yin>     Parse a file and print its AST",
    "  explain <code>       Explain an error code (e.g., E1016)",
    "  help                 Show this help message",
    "  version              Show version information",
    "",
    "Options:",
    "  --color=<mode>       Diagnostic colors: auto (default), always, never",
    "",
    "Environment:",
    "  RUST_LOG             Enable tracing, e.g. RUST_LOG=yin_parse=debug",
    "",
    "Examples:",
    "  yin parse main.yin",
    "  yin read main.yin --color=never",
    "  yin explain E1010               # Explain mixed parameter styles"]

/-- The option that chooses the colours, before its value. -/
def colorOption : String := "--color="

/-- The mode of the last option, if all of them are right. -/
def colorMode (mode : Report.ColorMode) : List String → Except String Report.ColorMode
  | [] => .ok mode
  | option :: options =>
      if option.toList.take colorOption.length = colorOption.toList then
        let value := String.ofList (option.toList.drop colorOption.length)
        match Report.ColorMode.ofText? value with
        | some m => colorMode m options
        | none =>
            .error ("error: invalid color mode '" ++ value ++ "' (expected auto, always or never)")
      else .error ("error: unknown option '" ++ option ++ "'")

/-- The number of the only file that a command works on. -/
def mainFile : Nat := 1

/-- The report that ends a command. -/
def report (colors : Bool) (path content : String) (d : Diagnostic) : Outcome :=
  ⟨1, "", Report.write colors (Report.pieces (some ⟨path, content⟩) d ++ Report.summary 1)⟩

/-- Prints a file's forms. -/
def readFile (colors : Bool) (path content : String) : Outcome :=
  match Form.read mainFile .new content with
  | (names, .ok f) => if f.write names = "" then succeed [] else succeed [f.write names]
  | (_, .error e) => report colors path content e.diagnostic

/-- Prints a file's expressions. -/
def parseFile (colors : Bool) (path content : String) : Outcome :=
  match Expr.parse mainFile .new content with
  | (names, .ok e) => succeed (e.writeLines names)
  | (_, .error e) => report colors path content e.diagnostic

/-- Runs a command on the content of a file, after its options have been looked at. -/
def onFile (terminal : Bool) (fetch : String → Except FileFault String) (path : String)
    (options : List String) (act : Bool → String → String → Outcome) : Outcome :=
  match colorMode .auto options with
  | .error message => fail [message]
  | .ok mode =>
      match fetch path with
      | .error e => fail [e.message path]
      | .ok content => act (mode.enabled terminal) path content

def explain (text : String) : Outcome :=
  match ErrorCode.ofText? text with
  | some c => succeed [c.explanation]
  | none =>
      fail ["Unknown error code: " ++ text, "",
        "Codes have the format EXXXX where X is a digit.",
        "Reader errors are E0001-E0008, parser errors E1001-E1018."]

/-- The file that a command asks for. -/
def file? : List String → Option String
  | command :: path :: _ => if command = "read" ∨ command = "parse" then some path else none
  | _ => none

/-- Runs a command. `terminal` says whether errors go to a terminal. -/
def run (terminal : Bool) (fetch : String → Except FileFault String) : List String → Outcome
  | [] => succeed usage
  | command :: arguments =>
      if command = "read" ∨ command = "parse" then
        match arguments with
        | [] => fail ["Usage: yin " ++ command ++ " <file.yin> [--color=auto|always|never]"]
        | path :: options =>
            onFile terminal fetch path options
              (if command = "read" then readFile else parseFile)
      else if command = "explain" ∨ command = "--explain" then
        match arguments with
        | [] => fail ["Usage: yin explain <ERROR_CODE>", "Example: yin explain E1016"]
        | text :: _ => explain text
      else if command = "help" ∨ command = "--help" ∨ command = "-h" then succeed usage
      else if command = "version" ∨ command = "--version" ∨ command = "-V" then
        succeed ["Yin front end " ++ version]
      else ⟨1, lines usage, lines ["Unknown command: " ++ command, ""]⟩

end YinFrontEnd.Command
