/-
Arguments of a command line. An option is long (two dashes and a name) or short (one dash and a
letter) and may take a value: a long one behind an equals sign or in the next argument, a short
one right behind its letter or in the next argument. Short options without a value may share a
dash. Two dashes alone end the options.
-/

namespace LyricScore.Args

/-- An option that a command knows: the name under which it is kept, and whether it takes a
value. -/
structure Known where
  name : String
  takesValue : Bool

/-- The options that a command knows, by their long names and by their letters. -/
structure Grammar where
  long : List (String × Known)
  short : List (Char × Known)

/-- An option that was given. -/
structure Given where
  name : String
  value : Option String

/-- The arguments of a command, sorted: the options in order, and all others. -/
structure Parsed where
  options : List Given := []
  others : List String := []

namespace Parsed

/-- Whether an option was given. -/
def has (p : Parsed) (name : String) : Bool :=
  p.options.any (·.name == name)

/-- The value of an option; the last one counts. -/
def value? (p : Parsed) (name : String) : Option String :=
  ((p.options.filter (·.name == name)).getLast?).bind (·.value)

/-- The last given of some options. -/
def lastOf? (p : Parsed) (names : List String) : Option String :=
  ((p.options.filter fun g => names.contains g.name).getLast?).map (·.name)

end Parsed

/-- What one argument gives: options, and possibly one that waits for its value. -/
structure Reading where
  given : List Given
  waiting : Option String

/-- Read the letters of a short argument. -/
def readLetters (g : Grammar) : List Char → Option Reading
  | [] => some ⟨[], none⟩
  | c :: rest =>
    match g.short.lookup c with
    | none => none
    | some known =>
      if known.takesValue then
        if rest.isEmpty then some ⟨[], some known.name⟩
        else some ⟨[⟨known.name, some (String.ofList rest)⟩], none⟩
      else
        (readLetters g rest).map fun r => { r with given := ⟨known.name, none⟩ :: r.given }

/-- Read a long argument: its name, and the value behind an equals sign. -/
def readLong (known : Known) (value : Option String) : Option Reading :=
  match known.takesValue, value with
  | true, some v => some ⟨[⟨known.name, some v⟩], none⟩
  | true, none => some ⟨[], some known.name⟩
  | false, none => some ⟨[⟨known.name, none⟩], none⟩
  | false, some _ => none

/-- Read an argument that is an option. -/
def readOption (g : Grammar) (arg : List Char) : Option Reading :=
  let name := arg.takeWhile (· != '=')
  let value :=
    if arg.contains '=' then some (String.ofList (arg.drop (name.length + 1))) else none
  match g.long.lookup (String.ofList name) with
  | some known => readLong known value
  | none => if arg.take 2 = ['-', '-'] then none else readLetters g (arg.drop 1)

/-- Whether an argument is an option: it starts with a dash and is more than that. -/
def isOption (arg : String) : Bool :=
  match arg.toList with
  | '-' :: _ :: _ => true
  | _ => false

/-- Sort arguments. Unless `mixed`, the first one that is no option ends the options. -/
def parse (g : Grammar) (mixed : Bool) : List String → Option Parsed
  | [] => some {}
  | arg :: rest =>
    if arg = "--" then some { others := rest }
    else if isOption arg then
      match readOption g arg.toList with
      | none => none
      | some ⟨given, none⟩ =>
        (parse g mixed rest).map fun p => { p with options := given ++ p.options }
      | some ⟨given, some name⟩ =>
        match rest with
        | [] => none
        | value :: rest =>
          (parse g mixed rest).map fun p =>
            { p with options := given ++ ⟨name, some value⟩ :: p.options }
    else if mixed then (parse g mixed rest).map fun p => { p with others := arg :: p.others }
    else some { others := arg :: rest }

end LyricScore.Args
