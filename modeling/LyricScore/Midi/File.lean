/-
Standard MIDI files with three tracks: the tempo, an empty one, and the melody with its name.
Everything in a track is preceded by the ticks since the event before it. At one tick the name
comes first, then notes end, then notes start, each in the order of the melody.
-/
import LyricScore.Midi.Tick
import LyricScore.Performance.Event

namespace LyricScore.Midi

-- ============================================================= bytes

/-- The lowest `width` bytes of a number, most significant first. -/
def bigEndian : Nat → Nat → List UInt8
  | 0, _ => []
  | width + 1, n => bigEndian width (n / 256) ++ [UInt8.ofNat (n % 256)]

/-- The digits of a number in base 128, most significant first. -/
def base128 (n : Nat) : List Nat :=
  if n < 128 then [n] else base128 (n / 128) ++ [n % 128]
termination_by n
decreasing_by omega

/-- Digits in base 128 as bytes; all but the last carry the continuation bit. -/
def continued : List Nat → List UInt8
  | [] => []
  | [d] => [UInt8.ofNat d]
  | d :: rest => UInt8.ofNat (d + 128) :: continued rest

/-- A number of variable length. A number below zero has no bytes. -/
def varLength (n : Int) : List UInt8 :=
  if n < 0 then [] else continued (base128 n.toNat)

/-- A number in one byte. -/
def byte (n : Int) : Except Error UInt8 :=
  if 0 ≤ n ∧ n < 256 then .ok (UInt8.ofNat n.toNat) else .error .byteRange

/-- Characters as Latin-1 bytes. The complaint names the first run that has none; `index` is the
place of the first character. -/
def latin1 (index : Nat) : List Char → Except Error (List UInt8)
  | [] => .ok []
  | c :: rest =>
    if c.toNat < 256 then (latin1 (index + 1) rest).map (UInt8.ofNat c.toNat :: ·)
    else
      let more := rest.takeWhile fun d => 256 ≤ d.toNat
      .error (.notLatin1 c index (index + more.length))

-- ============================================================ events

/-- An event of the melody track. -/
inductive Message where
  | name (text : List UInt8)
  | noteOff (pitch : Int)
  | noteOn (pitch : Int)

/-- The place of a message among those of one tick. -/
def Message.rank : Message → Nat
  | .name _ => 0
  | .noteOff _ => 1
  | .noteOn _ => 2

/-- The bytes of a message. -/
def Message.bytes (velocity : Int) : Message → Except Error (List UInt8)
  | .name text => .ok ([0xFF, 0x03] ++ varLength text.length ++ text)
  | .noteOff pitch => do
    let p ← byte pitch
    let v ← byte velocity
    return [0x80, p, v]
  | .noteOn pitch => do
    let p ← byte pitch
    let v ← byte velocity
    return [0x90, p, v]

/-- A message at a tick. -/
structure Timed where
  tick : Int
  message : Message

/-- Whether one message may stand before another: it is earlier, or at the same tick and not of
a higher rank. -/
def Timed.before (a b : Timed) : Bool :=
  a.tick < b.tick || (a.tick == b.tick && a.message.rank ≤ b.message.rank)

/-- The start and the end of a note. -/
def noteMessages (e : NoteEvent) : Except Error (List Timed) := do
  let start ← ticks e.start
  let length ← ticks e.duration
  return [⟨start, .noteOn e.pitch⟩, ⟨start + length, .noteOff e.pitch⟩]

/-- Timed messages as bytes, behind an event at tick `last`. -/
def trackBytes (velocity last : Int) : List Timed → Except Error (List UInt8)
  | [] => .ok []
  | m :: rest => do
    let bytes ← m.message.bytes velocity
    let more ← trackBytes velocity m.tick rest
    return varLength (m.tick - last) ++ bytes ++ more

-- ============================================================= files

/-- The letters that open the file and each track, as bytes. -/
def tag (s : String) : List UInt8 :=
  s.toList.map fun c => UInt8.ofNat c.toNat

/-- The head of the file: format 1, three tracks. -/
def head : List UInt8 :=
  tag "MThd" ++ bigEndian 4 6 ++ bigEndian 2 1 ++ bigEndian 2 3 ++ bigEndian 2 ticksPerQuarter

/-- A track around its events. -/
def track (events : List UInt8) : List UInt8 :=
  let data := events ++ [0x00, 0xFF, 0x2F, 0x00]
  tag "MTrk" ++ bigEndian 4 data.length ++ data

/-- The microseconds of a quarter note. -/
def quarterTime (tempo : Int) : Except Error Int :=
  if tempo = 0 then .error .zeroTempo else .ok (Int.tdiv 60000000 tempo)

/-- The tempo event. -/
def tempoEvent (micros : Int) : Except Error (List UInt8) :=
  if 0 ≤ micros ∧ micros < 0x100000000 then
    .ok ([0x00, 0xFF, 0x51, 0x03] ++ bigEndian 3 micros.toNat)
  else .error .byteRange

/-- A melody ready to be written. -/
structure Plan where
  micros : Int
  velocity : Int
  messages : List Timed

/-- The name of a track; an empty one is replaced. -/
def trackName (name : String) : String :=
  if name = "" then "Melody" else name

/-- Plan the file of a table. The tempo is judged first, then the name, then the notes. -/
def plan (t : Table) (tempo velocity : Int) (name : String) : Except Error Plan := do
  let micros ← quarterTime tempo
  let nameBytes ← latin1 0 (trackName name).toList
  let events ← t.events
  let notes ← events.mapM noteMessages
  let messages := ⟨0, .name nameBytes⟩ :: notes.flatten
  return ⟨micros, velocity, messages.mergeSort Timed.before⟩

/-- The bytes of a planned file. -/
def Plan.bytes (p : Plan) : Except Error (List UInt8) := do
  let tempo ← tempoEvent p.micros
  let melody ← trackBytes p.velocity 0 p.messages
  return head ++ track tempo ++ track [] ++ track melody

/-- The file of a table. -/
def file (t : Table) (tempo velocity : Int) (name : String) : Except Error (List UInt8) := do
  let p ← plan t tempo velocity name
  p.bytes

end LyricScore.Midi
