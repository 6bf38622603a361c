import Marshal.Session.Answer

/-!
# Sessions of readers

A session starts with one reader and may copy it; each step addresses one of
the readers by its number.
-/

namespace Marshal.Session

inductive ReaderCall
  | state
  | describe
  | seek (position : Nat)
  | slice (length : Nat)
  | fetch (q : Fetch)
  | slots (f : Format) (count : Nat)

def ReaderCall.step : ReaderCall → Reader → Step Reader
  | state => .ofView fun r => .reader r.unread r.isEmpty
  | describe => .ofView fun r => .text r.describe
  | seek position => .ofCall (fun _ => .done) (Reader.seek position)
  | slice length => .ofCall .bytes (Reader.decodeBytes length)
  | fetch q => q.step id
  | slots f count => .ofSlots f count f.decode

inductive ReadersCall
  | call (c : ReaderCall)
  | fork

structure ReaderReport where
  result : Except Fault Answer
  extra : Extra
  position : Nat
  log : List Record

def stepReaders (readers : List Reader) (index : Nat) (c : ReadersCall) : ReaderReport × List Reader :=
  let r := readers[index]?.getD (.ofBytes [])
  match c with
  | .fork => (⟨.ok (.number readers.length), .none, r.position, []⟩, readers ++ [r])
  | .call c =>
    let s := c.step r
    (⟨s.result, s.extra, s.state.position, s.log⟩, readers.set index s.state)

def runReaders (readers : List Reader) : List (Nat × ReadersCall) → List ReaderReport × List Reader
  | [] => ([], readers)
  | (index, c) :: rest =>
    let (report, readers) := stepReaders readers index c
    let (reports, readers) := runReaders readers rest
    (report :: reports, readers)

end Marshal.Session
