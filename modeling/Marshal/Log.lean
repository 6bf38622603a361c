import Marshal.MessageId

/-!
# Log records

What a call reports to its log: a refusal where it happens, the element of an
array that failed, and the traffic of a route table.
-/

namespace Marshal

inductive Level
  | trace | debug | warn
deriving DecidableEq

def Level.text : Level → String
  | trace => "TRACE"
  | debug => "DEBUG"
  | warn => "WARN"

inductive Record
  | loadRejected (length capacity : Nat)
  | bytesOverflow (cursor requested available : Nat)
  | textOverflow (cursor requested available : Nat)
  | underflow (position requested available : Nat)
  | textAboveBound (length limit : Nat)
  | elementFailed (index : Nat)
  | misfit (length count size : Nat)
  | registeredTwice (id : MessageId)
  | tableFull (entries : Nat)
  | registered (id : MessageId)
  | unrouted (id : MessageId)
  | dispatching (id : MessageId)
deriving DecidableEq

namespace Record

def level : Record → Level
  | loadRejected .. | bytesOverflow .. | textOverflow .. | underflow .. | textAboveBound ..
  | misfit .. | dispatching _ => .trace
  | elementFailed _ | registered _ => .debug
  | registeredTwice _ | tableFull _ | unrouted _ => .warn

def message : Record → String
  | loadRejected length capacity => s!"[Stream::load] {length} bytes rejected (capacity {capacity})"
  | bytesOverflow cursor requested available =>
    s!"[Stream::encode] overflow at {cursor}: {requested} bytes requested, {available} available"
  | textOverflow cursor requested available =>
    s!"[Stream::encode_str] overflow at {cursor}: {requested} bytes requested, {available} available"
  | underflow position requested available =>
    s!"[Reader::decode] underflow at {position}: {requested} bytes requested, {available} available"
  | textAboveBound length limit =>
    s!"[Decode] string of {length} bytes exceeds bounded capacity {limit}"
  | elementFailed index => s!"[code_array] element {index} failed, {index} elements already coded"
  | misfit length count size =>
    s!"[array] {length} bytes cannot hold {count} elements of {size} bytes"
  | registeredTwice id => s!"[Dispatcher] message {id.text} registered twice"
  | tableFull entries => s!"[Dispatcher] route table full ({entries} entries)"
  | registered id => s!"[Dispatcher] registered message {id.text}"
  | unrouted id => s!"[Dispatcher] no handler for message {id.text}"
  | dispatching id => s!"[Dispatcher] dispatching message {id.text}"

def line (r : Record) : String := s!"{r.level.text} {r.message}"

end Record

end Marshal
