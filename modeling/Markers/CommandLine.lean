import Markers.CommandLine.Arguments
import Markers.Report.Json
import Markers.Report.Summary

/-!
# The command line

`Request.parse` reads the arguments, with environment variables in place of what they leave open,
and `respond` carries a request out on a file system. A request that fails is answered by an error
message and code 1, one that cannot be read by code 2.
-/

namespace Markers.CommandLine

/-- Variables of the environment with their values. -/
abbrev Environment := List (String × String)

/-! ## Options -/

/-- Where the report, the history and the charts go. -/
def outputFolder : Parameter := ⟨"output-dir", some 'o', .single, some "INPUT_OUTPUT_DIR", []⟩

/-- The folder to scan. -/
def source : Parameter := ⟨"path", none, .single, some "INPUT_SOURCE_SCAN_DIR", []⟩

/-- A pattern for files to scan. -/
def wanted : Parameter := ⟨"include", some 'i', .many, none, []⟩

/-- A pattern for files to leave out. -/
def unwanted : Parameter := ⟨"exclude", some 'e', .many, none, []⟩

/-- A pattern for the file names of manifests. -/
def manifest : Parameter := ⟨"project-manifest", none, .many, none, []⟩

/-- The repository that links point into. -/
def slug : Parameter := ⟨"repository", none, .single, some "GITHUB_REPOSITORY", []⟩

/-- The commit that links point to. -/
def commit : Parameter := ⟨"commit", none, .single, some "GITHUB_SHA", []⟩

/-- The branch that links point to. -/
def branch : Parameter := ⟨"branch", none, .single, some "GITHUB_REF_NAME", []⟩

/-- Links point to the commit, and not to the branch. -/
def linkToCommit : Parameter := ⟨"link-to-commit", none, .flag, none, []⟩

/-- The counts are not added to the history. -/
def withoutHistory : Parameter := ⟨"no-history", none, .flag, none, []⟩

/-- Files are scanned one at a time. -/
def sequential : Parameter := ⟨"sequential", none, .flag, none, []⟩

/-- How the result of a scan is printed. -/
def format : Parameter := ⟨"output", none, .single, none, ["text", "json"]⟩

/-- More is logged; there is no log here. -/
def verbose : Parameter := ⟨"verbose", some 'v', .tally, none, []⟩

/-- Print how the program is used. -/
def help : Parameter := ⟨"help", some 'h', .help, none, []⟩

/-- Print the version. -/
def version : Parameter := ⟨"version", some 'V', .version, none, []⟩

/-- The options of every level. -/
def commonOptions : List Parameter :=
  [format, verbose, help]

/-- The options of a scan. -/
def scanOptions : List Parameter :=
  [outputFolder, wanted, unwanted, manifest, slug, commit, branch, linkToCommit, withoutHistory,
    sequential]

/-- Arguments before a command, or without one. -/
def rootLevel : Level :=
  ⟨version :: commonOptions ++ scanOptions, some source, ["scan", "plot", "help"]⟩

/-- Arguments of the command that scans. -/
def scanLevel : Level :=
  ⟨commonOptions ++ scanOptions, some source, []⟩

/-- Arguments of the command that prints plots. -/
def plotLevel : Level :=
  ⟨commonOptions ++ [outputFolder], none, []⟩

/-! ## Requests -/

/-- How the result of a scan is printed. -/
inductive Format where
  | text
  | json
deriving DecidableEq, Repr

/-- What a scan was asked to do. -/
structure ScanArguments where
  source : String
  output : Option String
  wanted : List String
  unwanted : List String
  manifestPatterns : List String
  overrides : Overrides
  onBranch : Bool
  record : Bool
  parallel : Bool
  format : Format
deriving Repr

/-- What the program was asked to do. -/
inductive Request where
  | scan (arguments : ScanArguments)
  | plot (output : Option String)
  | help
  | version
deriving Repr

/-- The value of a parameter: as given, or that of its variable. -/
def valueOf? (env : Environment) (values : Values) (parameter : Parameter) : Option String :=
  (values.get? parameter.name).or (parameter.fallback.bind fun name => env.lookup name)

/-- The scan that values ask for. `outer` are the values before the command; only the format may
be among them. -/
def ScanArguments.ofValues (env : Environment) (outer values : Values) : ScanArguments where
  source := (valueOf? env values CommandLine.source).getD "."
  output := valueOf? env values outputFolder
  wanted := values.all CommandLine.wanted.name
  unwanted := values.all CommandLine.unwanted.name
  manifestPatterns := values.all manifest.name
  overrides := ⟨valueOf? env values slug, valueOf? env values commit, valueOf? env values branch⟩
  onBranch := !values.has linkToCommit.name
  record := !values.has withoutHistory.name
  parallel := !values.has sequential.name
  format :=
    if (values.get? CommandLine.format.name).or (outer.get? CommandLine.format.name) = some "json"
      then .json else .text

/-- Whether the help text is known for what follows the command `help`. -/
def isHelpTopic (topic : List String) : Bool :=
  topic.isEmpty || topic.length = 1 && topic.all fun name => rootLevel.commands.contains name

/-- What a command and its arguments ask for. -/
def Request.ofCommand (env : Environment) (outer : Values) (command : String)
    (args : List String) : Except Stop Request := do
  if command = "help" then
    if isHelpTopic args then return .help else throw .usage
  else if command = "plot" then
    let (values, _) ← plotLevel.read args
    return .plot (valueOf? env values outputFolder)
  else
    let (values, _) ← scanLevel.read args
    return .scan (.ofValues env outer values)

/-- What arguments ask for. -/
def Request.parse (env : Environment) (args : List String) : Except Stop Request := do
  match ← rootLevel.read args with
  | (values, none) => return .scan (.ofValues env values values)
  | (values, some (command, args)) => Request.ofCommand env values command args

/-! ## Responses -/

/-- What the program prints and how it ends. -/
structure Response where
  code : Nat
  out : String
  err : String
deriving DecidableEq, Repr

/-- A failure in words, followed by its cause. -/
def explain (failure : Failure) : String :=
  match failure with
  | .fileRead _ fault | .fileWrite _ fault | .io fault => failure.message ++ ": " ++ fault.message
  | _ => failure.message

/-- The response to a request that was carried out. -/
def Response.printed (out : String) : Response :=
  ⟨0, out, ""⟩

/-- The response to a request that failed. -/
def Response.failed (message : String) : Response :=
  ⟨1, "", "Error: " ++ message ++ "\n"⟩

/-- How the program is used. -/
def usage : String :=
  "Usage: todoscan [OPTIONS] [PATH]\n" ++
  "       todoscan scan [OPTIONS] [PATH]\n" ++
  "       todoscan plot [-o DIR]\n\n" ++
  "Options:\n" ++
  "  -o, --output-dir DIR          Directory for the report, history and charts\n" ++
  "  -i, --include PATTERN         Scan only files that match\n" ++
  "  -e, --exclude PATTERN         Leave out files that match\n" ++
  "      --project-manifest GLOB   File names of project manifests\n" ++
  "      --repository OWNER/NAME   Repository that links point to\n" ++
  "      --commit ID               Commit that links point to\n" ++
  "      --branch NAME             Branch that links point to\n" ++
  "      --link-to-commit          Link to the commit instead of the branch\n" ++
  "      --no-history              Do not add this scan to the history\n" ++
  "      --sequential              Scan files one at a time\n" ++
  "      --output FORMAT           Print text or json\n" ++
  "  -v, --verbose                 Log more\n" ++
  "  -h, --help                    Print this help\n" ++
  "  -V, --version                 Print the version\n"

/-- The name and version of the program. -/
def versionLine : String :=
  "todoscan 0.3.0\n"

/-- The settings of a scan. -/
def ScanArguments.settings (arguments : ScanArguments) : Except Failure Settings := do
  let settings := Settings.ofSource ⟨arguments.source⟩
  return { settings with
    output := (arguments.output.map Path.mk).getD settings.output
    manifestPatterns := arguments.manifestPatterns
    overrides := arguments.overrides
    onBranch := arguments.onBranch
    filter := ← Filter.ofPatterns arguments.wanted arguments.unwanted
    parallel := arguments.parallel
    record := arguments.record }

/-- The settings that name the history to print plots of. -/
def plotSettings (output : Option String) : Settings :=
  { Settings.default with output := (output.map Path.mk).getD Settings.default.output }

/-- What a request reads and writes. -/
structure Reach where
  /-- The folder that is scanned. -/
  source : Option Path
  /-- The files that are written, or read if they exist. -/
  files : List Path

/-- What a request reads and writes; nothing if it cannot be carried out. -/
def Request.reach : Request → Reach
  | .scan arguments =>
    match arguments.settings with
    | .ok settings => ⟨some settings.source, settings.artifacts⟩
    | .error _ => ⟨none, []⟩
  | .plot output => ⟨none, [(plotSettings output).historyPath]⟩
  | .help | .version => ⟨none, []⟩

/-- What a scan prints. -/
def showOutcome (format : Format) (color : Bool) (outcome : Outcome) : String :=
  match format with
  | .text => Terminal.summary outcome color
  | .json => outcome.aggregation.toJson.pretty ++ "\n"

/-- Carry out a scan. -/
def runScan (arguments : ScanArguments) (color : Bool) (now : String) (fs : FileSystem) :
    Response × FileSystem :=
  match arguments.settings with
  | .error failure => (.failed (explain failure), fs)
  | .ok settings =>
    match settings.run now fs with
    | (.ok outcome, fs) => (.printed (showOutcome arguments.format color outcome), fs)
    | (.error failure, fs) =>
      (.failed ("failed to scan '" ++ settings.source.text ++ "': " ++ explain failure), fs)

/-- Print the plots of the history below an output folder. -/
def showPlots (output : Option String) (fs : FileSystem) : Response :=
  let settings := plotSettings output
  match fs.loadPlots settings with
  | .ok plots => .printed ((Plot.listToJson plots).pretty ++ "\n")
  | .error failure =>
    .failed ("failed to read history '" ++ settings.historyPath.text ++ "': " ++ explain failure)

/-- Whether output is styled: on a terminal unless that is switched off, and when it is forced. -/
def showsColor (env : Environment) (terminal : Bool) : Bool :=
  terminal && env.lookup "CLICOLOR" ≠ some "0" || (env.lookup "CLICOLOR_FORCE").getD "0" ≠ "0"

/-- Carry out what arguments ask for. `terminal` says whether the output is shown on one. -/
def respond (env : Environment) (args : List String) (terminal : Bool) (now : String)
    (fs : FileSystem) : Response × FileSystem :=
  match Request.parse env args with
  | .error .usage => (⟨2, "", "error: invalid arguments\n\n" ++ usage⟩, fs)
  | .error .help | .ok .help => (.printed usage, fs)
  | .error .version | .ok .version => (.printed versionLine, fs)
  | .ok (.scan arguments) => runScan arguments (showsColor env terminal) now fs
  | .ok (.plot output) => (showPlots output fs, fs)

end Markers.CommandLine
