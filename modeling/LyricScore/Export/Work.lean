/-
Work that may end with writing one file. What is to be done is decided here; the file itself is
written elsewhere, and whoever writes it tells whether the file could be opened.
-/
import LyricScore.Error

namespace LyricScore

/-- Work: it is done, or a file is to be written and the rest hangs on whether it can be
opened. -/
inductive Work (α : Type) where
  | done (result : α)
  | write (path : String) (bytes : List UInt8) (after : Option Error → α)

/-- The result of work, and the file that it leaves, when `refusal?` tells which files cannot be
opened. -/
def Work.settle {α : Type} (refusal? : String → Option Error) :
    Work α → α × Option (String × List UInt8)
  | .done result => (result, none)
  | .write path bytes after =>
    match refusal? path with
    | none => (after none, some (path, bytes))
    | some e => (after (some e), none)

/-- Work with another result. -/
def Work.map {α β : Type} (f : α → β) : Work α → Work β
  | .done result => .done (f result)
  | .write path bytes after => .write path bytes fun refusal => f (after refusal)

end LyricScore
