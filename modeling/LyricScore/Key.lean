/-
Major keys. A key signature counts the sharps or flats; the key it stands for is named by its
tonic, and it alters as many letters as it counts, in the fixed order in which sharps or flats
are added.
-/
import LyricScore.Pitch.Letter
import LyricScore.Text.Blank

namespace LyricScore

open Text

/-- A major key: its signature in scores, its tonic, and how many fifths it lies above C. Sharps
count upward and flats downward. -/
structure MajorKey where
  signature : String
  tonic : String
  fifths : Int
  deriving DecidableEq

namespace MajorKey

/-- The fifteen keys that have a signature. -/
def all : List MajorKey :=
  [⟨"K0", "C", 0⟩,
   ⟨"K#1", "G", 1⟩, ⟨"K#2", "D", 2⟩, ⟨"K#3", "A", 3⟩, ⟨"K#4", "E", 4⟩, ⟨"K#5", "B", 5⟩,
   ⟨"K#6", "F#", 6⟩, ⟨"K#7", "C#", 7⟩,
   ⟨"K&1", "F", -1⟩, ⟨"K&2", "Bb", -2⟩, ⟨"K&3", "Eb", -3⟩, ⟨"K&4", "Ab", -4⟩, ⟨"K&5", "Db", -5⟩,
   ⟨"K&6", "Gb", -6⟩, ⟨"K&7", "Cb", -7⟩]

/-- The name of a key. -/
def name (key : MajorKey) : String :=
  key.tonic ++ " major"

/-- The letters in the order in which signatures sharpen them. -/
def sharpOrder : List Letter := [.f, .c, .g, .d, .a, .e, .b]

/-- The letters in the order in which signatures flatten them. -/
def flatOrder : List Letter := [.b, .e, .a, .d, .g, .c, .f]

/-- The letters that a key alters, with the semitones each is moved by. -/
def alterations (key : MajorKey) : List (String × Int) :=
  (sharpOrder.take key.fifths.toNat).map (fun l => (l.name, 1))
    ++ (flatOrder.take (-key.fifths).toNat).map (fun l => (l.name, -1))

end MajorKey

/-- The key of a score without any signature. -/
def defaultKey : String := "C major"

/-- The name of the key that a signature stands for. -/
def keyName? (signature : String) : Option String :=
  let trimmed := String.ofList (trim signature.toList)
  (MajorKey.all.find? (·.signature == trimmed)).map (·.name)

/-- The letters that the named key alters. An unknown key alters none. -/
def keyAlterations (name : String) : List (String × Int) :=
  match MajorKey.all.find? (·.name == name) with
  | some key => key.alterations
  | none => []

end LyricScore
