import Marshal.Session.Readers

/-!
# Sessions of buffers

`Call` is everything that can be asked of one buffer. A session holds several
buffers of one capacity and one growing list of checkpoints, and may also copy
a buffer or send what one holds to another.
-/

namespace Marshal.Session

inductive Call (N : Nat)
  | reset
  | sealed
  | load (bytes : List UInt8)
  | receive (fill : Vector UInt8 N → Except String Nat × Vector UInt8 N)
  | state
  | storage
  | describe (pretty : Bool)
  | seek (position : Nat)
  | restore (saved : Checkpoint)
  | encodeBytes (bytes : List UInt8)
  | encode (x : Item)
  | encodeWhole (x : Item)
  | encodeList (f : Format) (xs : List f.Value)
  | encodeArray (f : Format) (xs : List f.Value)
  | encodeBudgeted (f : Format) (xs : List f.Value) (budget : Nat)
  | encodeRefusing (f : Format) (xs : List f.Value) (refused : Option f.Value)
  | encodeRegion (region : List UInt8) (count size : Nat)
  | fetch (q : Fetch)
  | slots (f : Format) (count : Nat)
  | fillRegion (region : List UInt8) (count size : Nat)
  | popBytes (out : List UInt8)
  | popScalar (t : ScalarType)

namespace Call

variable {N : Nat}

/-- Copies a message to the front of the storage, as much as fits, and then reports `result`. -/
def transport (bytes : List UInt8) (result : Except String Nat) (storage : Vector UInt8 N) :
    Except String Nat × Vector UInt8 N :=
  (result, overwrite storage 0 (bytes.take N))

def elementFault (failure : ElementFailure Error) : Fault := .element ⟨failure.index, .plain failure.source⟩

def encodeCounting {α : Type} (coder : α → Action CoderError (Nat × Buffer N) Unit) (start : Nat) (xs : List α)
    (extra : Nat → Extra) (b : Buffer N) : Step (Buffer N) :=
  let o := codeEach coder xs (start, b)
  ⟨(o.result.mapError .element).map .number, extra o.state.1, o.state.2, o.log⟩

def encodePieces (region : List UInt8) (count size : Nat) (b : Buffer N) : Step (Buffer N) :=
  match Region.elements region count size b with
  | ⟨.error e, b, log⟩ => ⟨.error (.error e), .none, b, log⟩
  | ⟨.ok pieces, b, _⟩ => .ofOutcome elementFault .number (Buffer.encodePieces pieces b)

def fillPieces (region : List UInt8) (count size : Nat) (b : Buffer N) : Step (Buffer N) :=
  match Region.elements region count size b with
  | ⟨.error e, b, log⟩ => ⟨.error (.error e), .out region, b, log⟩
  | ⟨.ok pieces, b, _⟩ =>
    let o := Buffer.decodePieces size ⟨b, pieces.toArray.toVector⟩
    ⟨(o.result.mapError elementFault).map .number, .out o.state.slots.toList.flatten, o.state.source, o.log⟩

def step : Call N → Buffer N → Step (Buffer N)
  | reset => .ofUpdate Buffer.reset
  | sealed => .ofUpdate Buffer.sealed
  | load bytes => .ofCall (fun _ => .done) (Buffer.load bytes)
  | receive fill => fun b => .ofOutcome .transport .number (Buffer.receive fill b)
  | state => .ofView fun b => .buffer N b.remaining b.unread b.written b.message
  | storage => .ofView fun b => .bytes b.storage.toList
  | describe pretty => .ofView fun b => .text (b.describe pretty)
  | seek position => .ofCall (fun _ => .done) (Buffer.seek position)
  | restore saved => .ofCall (fun _ => .done) (Buffer.restore saved)
  | encodeBytes bytes => .ofCall (fun _ => .done) (Buffer.encodeBytes bytes)
  | encode x => .ofCall (fun _ => .done) (Buffer.encode x)
  | encodeWhole x => .ofCall (fun _ => .done) (Buffer.encodeWhole x)
  | encodeList f xs => .ofCall (fun _ => .done) (f.encodeList xs)
  | encodeArray f xs => fun b => .ofOutcome elementFault .number (Buffer.encodeArray f xs b)
  | encodeBudgeted f xs budget => encodeCounting (Coder.budgeted f.encode) budget xs fun _ => .none
  | encodeRefusing f xs refused => encodeCounting (Coder.refusing (some · == refused) f.encode) 0 xs .calls
  | encodeRegion region count size => encodePieces region count size
  | fetch q => q.step Buffer.read
  | slots f count => .ofSlots f count (Buffer.decode f)
  | fillRegion region count size => fillPieces region count size
  | popBytes out => .ofCopy out (Buffer.popBytes out.length)
  | popScalar t => .ofCall (fun x => .item ⟨.scalar t, x⟩) (Buffer.popScalar t)

end Call

/-! ## One buffer and its checkpoints -/

structure Station (N : Nat) where
  buffer : Buffer N
  saved : List Checkpoint

inductive StationCall (N : Nat)
  | call (c : Call N)
  | checkpoint
  | save (position : Nat)
  | restoreSaved (index : Nat)
  | readers (steps : List (Nat × ReadersCall))

inductive StationAnswer
  | plain (a : Answer)
  | readers (reports : List ReaderReport)

structure StationStep (N : Nat) where
  result : Except Fault StationAnswer
  extra : Extra
  station : Station N
  log : List Record

namespace StationStep

variable {N : Nat}

def ofStep (saved : List Checkpoint) (s : Step (Buffer N)) : StationStep N :=
  ⟨s.result.map .plain, s.extra, ⟨s.state, saved⟩, s.log⟩

def answer (a : StationAnswer) (station : Station N) : StationStep N := ⟨.ok a, .none, station, []⟩

end StationStep

def StationCall.step {N : Nat} (c : StationCall N) (station : Station N) : StationStep N :=
  let ⟨b, saved⟩ := station
  match c with
  | call c => .ofStep saved (c.step b)
  | checkpoint => .answer (.plain (.number b.cursor)) ⟨b, saved ++ [b.checkpoint]⟩
  | save position => .answer (.plain (.number position)) ⟨b, saved ++ [⟨position⟩]⟩
  | restoreSaved index =>
    match saved[index]? with
    | some old => .ofStep saved ((Call.restore old).step b)
    | none => .answer (.plain .done) ⟨b, saved⟩
  | readers steps => .answer (.readers (runReaders [b.reader] steps).1) ⟨b, saved⟩

/-! ## Several buffers -/

structure Bench (N : Nat) where
  buffers : List (Buffer N)
  saved : List Checkpoint

def Bench.fresh (N count : Nat) : Bench N := ⟨List.replicate count (.empty N), []⟩

inductive BenchCall (N : Nat)
  | station (c : StationCall N)
  | cloneTo (target : Nat)
  | sendTo (target : Nat) (written : Bool)

structure BenchReport where
  result : Except Fault StationAnswer
  extra : Extra
  cursor : Nat
  used : Nat
  log : List Record

namespace Bench

variable {N : Nat}

def buffer (bench : Bench N) (index : Nat) : Buffer N := bench.buffers[index]?.getD (.empty N)

def put (bench : Bench N) (index : Nat) (b : Buffer N) : Bench N :=
  { bench with buffers := bench.buffers.set index b }

def report (bench : Bench N) (index : Nat) (result : Except Fault StationAnswer) (extra : Extra)
    (log : List Record) : BenchReport × Bench N :=
  (⟨result, extra, (bench.buffer index).cursor, (bench.buffer index).used, log⟩, bench)

def step (bench : Bench N) (index : Nat) : BenchCall N → BenchReport × Bench N
  | .station c =>
    let s := c.step ⟨bench.buffer index, bench.saved⟩
    let bench : Bench N := { (bench.put index s.station.buffer) with saved := s.station.saved }
    bench.report index s.result s.extra s.log
  | .cloneTo target =>
    (bench.put target (bench.buffer index)).report index (.ok (.plain .done)) .none []
  | .sendTo target written =>
    let source := bench.buffer index
    let bytes := if written then source.written else source.message
    let s := (Call.load bytes).step (bench.buffer target)
    (bench.put target s.state).report index (s.result.map .plain)
      (.receiver s.state.cursor s.state.used) s.log

def run (bench : Bench N) : List (Nat × BenchCall N) → List BenchReport × Bench N
  | [] => ([], bench)
  | (index, c) :: rest =>
    let (report, bench) := bench.step index c
    let (reports, bench) := bench.run rest
    (report :: reports, bench)

end Bench

end Marshal.Session
