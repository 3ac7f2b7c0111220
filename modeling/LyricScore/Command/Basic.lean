/-
Commands: convert a score to a tune, list the stages, write a sheet page, write a MIDI file. A
command line that fits none of them is refused as a whole.
-/
import LyricScore.Command.Args
import LyricScore.Export.Path
import LyricScore.Pipeline.Run
import LyricScore.Text.Numeral

namespace LyricScore

open Text

/-- A command. -/
inductive Command where
  | version
  | help
  | stages
  | convert (file : String) (output : Option String) (options : Options) (verbose : Bool)
  | sheet (file : String) (output title : Option String)
  | midi (file : String) (output : Option String) (tempo : Int)

/-- Why a command line is not performed: it fits no command, or it breaks off with a failure
that nothing handles. -/
inductive Refusal where
  | usage
  | broken (fault : Error)
  deriving DecidableEq

namespace Command

/-- An option without a value. -/
def flag (name : String) : Args.Known := ⟨name, false⟩

/-- An option with a value. -/
def valued (name : String) : Args.Known := ⟨name, true⟩

/-- The options before the command. -/
def mainGrammar : Args.Grammar :=
  { long := [("--version", flag "version"), ("--help", flag "help")]
    short := [('h', flag "help")] }

/-- The options of `convert`. -/
def convertGrammar : Args.Grammar :=
  { long := [("--output", valued "output"), ("--stop", valued "stop"), ("--title", valued "title"),
      ("--optimize", flag "fold"), ("--no-optimize", flag "keep"), ("--verbose", flag "verbose"),
      ("--help", flag "help")]
    short := [('o', valued "output"), ('v', flag "verbose"), ('h', flag "help")] }

/-- The options of `stages`. -/
def stagesGrammar : Args.Grammar :=
  { long := [("--help", flag "help")], short := [('h', flag "help")] }

/-- The options of `sheet`. -/
def sheetGrammar : Args.Grammar :=
  { long := [("--output", valued "output"), ("--title", valued "title"), ("--help", flag "help")]
    short := [('o', valued "output"), ('h', flag "help")] }

/-- The options of `midi`. -/
def midiGrammar : Args.Grammar :=
  { long := [("--output", valued "output"), ("--tempo", valued "tempo"), ("--help", flag "help")]
    short := [('o', valued "output"), ('h', flag "help")] }

/-- The tempo that a text gives, within the range of playable ones. -/
def tempo? (text : Option String) : Option Int :=
  match text with
  | none => some 100
  | some s =>
    match readInteger s with
    | .error _ => none
    | .ok n => if 20 ≤ n ∧ n ≤ 300 then some n else none

/-- Whether a stage to stop at is known, if one is given. -/
def knownStop (stop : Option String) : Bool :=
  stop.all stepNames.contains

/-- The only argument beside the options, which names a file. The name is judged before the
arguments are counted. -/
def onlyFile : List String → Except Refusal String
  | [] => .error .usage
  | file :: more =>
    if Path.hasNull file then .error (.broken .nullInPath)
    else if more.isEmpty then .ok file
    else .error .usage

/-- The command `convert`. Without a file it reads the standard input. -/
def ofConvert (p : Args.Parsed) : Except Refusal Command :=
  let options : Options :=
    { title := p.value? "title", stopAt := p.value? "stop"
      fold := p.lastOf? ["fold", "keep"] != some "keep" }
  if knownStop options.stopAt then do
    let file ← if p.others.isEmpty then .ok "-" else onlyFile p.others
    return .convert file (p.value? "output") options (p.has "verbose")
  else .error .usage

/-- The command `stages`. -/
def ofStages (p : Args.Parsed) : Except Refusal Command :=
  if p.others.isEmpty then .ok .stages else .error .usage

/-- The command `sheet`. -/
def ofSheet (p : Args.Parsed) : Except Refusal Command := do
  let file ← onlyFile p.others
  return .sheet file (p.value? "output") (p.value? "title")

/-- The command `midi`. -/
def ofMidi (p : Args.Parsed) : Except Refusal Command :=
  match tempo? (p.value? "tempo") with
  | none => .error .usage
  | some tempo => do
    let file ← onlyFile p.others
    return .midi file (p.value? "output") tempo

/-- A command with its options. A call for help wins over everything else in it. -/
def parseWith (g : Args.Grammar) (build : Args.Parsed → Except Refusal Command)
    (args : List String) : Except Refusal Command :=
  match Args.parse g true args with
  | none => .error .usage
  | some p => if p.has "help" then .ok .help else build p

/-- What the options before a command ask for, if there are any: the first one counts. -/
def ofOptions? (p : Args.Parsed) : Option Command :=
  match p.options with
  | [] => none
  | first :: _ => some (if first.name = "version" then .version else .help)

/-- A command line whose first argument is no command may still begin with options, behind the
two dashes that ended the options before. -/
def ofUnknown (args : List String) : Except Refusal Command :=
  match (Args.parse mainGrammar false args).bind ofOptions? with
  | some c => .ok c
  | none => .error .usage

/-- The command that arguments name. -/
def ofArguments (args : List String) : Except Refusal Command :=
  match args with
  | "convert" :: rest => parseWith convertGrammar ofConvert rest
  | "stages" :: rest => parseWith stagesGrammar ofStages rest
  | "sheet" :: rest => parseWith sheetGrammar ofSheet rest
  | "midi" :: rest => parseWith midiGrammar ofMidi rest
  | _ => ofUnknown args

/-- The command of a command line. -/
def parse (args : List String) : Except Refusal Command :=
  match Args.parse mainGrammar false args with
  | none => .error .usage
  | some p =>
    match ofOptions? p with
    | some c => .ok c
    | none => ofArguments p.others

/-- The file that a command reads; a dash stands for the standard input of `convert`. -/
def file? : Command → Option String
  | .convert file .. => some file
  | .sheet file .. => some file
  | .midi file .. => some file
  | _ => none

/-- Whether a command reads the standard input. -/
def readsInput : Command → Bool
  | .convert "-" .. => true
  | _ => false

end Command

end LyricScore
