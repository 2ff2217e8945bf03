import Recast.Command.Arguments

/-! # Help texts -/
namespace Recast.Command

def programName : String := "retarget"

def versionText : String := programName ++ " 0.2.0\n"

namespace Topic

def about : Topic → String
  | .program => "Translate class-based source into another language"
  | .translate => "Translate syntax documents into target-language files"
  | .targets => "List available target languages"
  | .help => "Print this message or the help of the given subcommand(s)"

def usage : Topic → String
  | .program => "[OPTIONS] <COMMAND>"
  | .translate => "translate [OPTIONS] --out <OUT> <DOCS>..."
  | .targets => "targets [OPTIONS]"
  | .help => "help [COMMAND]..."

/-- The commands and plain arguments that help lists, in sections. -/
def sections : Topic → List (String × List (String × String))
  | .program =>
    [("Commands", [("translate", about .translate), ("targets", about .targets),
      ("help", about .help)])]
  | .translate => [("Arguments", [("<DOCS>...", "Document files or directories of documents")])]
  | .targets => []
  | .help => [("Arguments", [("[COMMAND]...", "Print help for the subcommand(s)")])]

end Topic

namespace Flag

def about : Flag → String
  | .verbose => "Log pipeline progress (debug level)"
  | .help => "Print help"
  | .version => "Print version"
  | .target => "Target language [default: typescript]"
  | .out => "Output directory"
  | .config => "Extra config file, merged over the global and project config"

/-- How a flag is written. -/
def form (f : Flag) : String :=
  let letter := match f.letter? with
    | some c => "-" ++ String.singleton c ++ ", "
    | none => "    "
  let value := if f.takesValue then " <" ++ f.longName.map Char.toUpper ++ ">" else ""
  letter ++ "--" ++ f.longName ++ value

end Flag

/-- A section: its entries in two columns. -/
def helpSection (title : String) (entries : List (String × String)) : String :=
  let width := entries.foldl (fun n e => max n e.1.length) 0
  let line (e : String × String) : String :=
    "  " ++ e.1 ++ String.ofList (List.replicate (width - e.1.length) ' ') ++ "  " ++ e.2 ++ "\n"
  "\n" ++ title ++ ":\n" ++ String.join (entries.map line)

def Topic.text (t : Topic) : String :=
  let options := match t.flags with
    | [] => []
    | flags => [("Options", flags.map fun f => (f.form, f.about))]
  t.about ++ "\n\nUsage: " ++ programName ++ " " ++ t.usage ++ "\n" ++
    String.join ((t.sections ++ options).map fun s => helpSection s.1 s.2)

end Recast.Command
