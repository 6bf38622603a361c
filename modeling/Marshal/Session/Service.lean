import Marshal.Session.Buffers
import Marshal.Routing

/-!
# Sessions of calls

A route table between two buffers, each with its own checkpoints: calls come
in on one, answers go out on the other.
-/

namespace Marshal.Session

structure Service (κ : Type) (N H : Nat) where
  table : RouteTable κ N H
  input : Station N
  output : Station N

inductive Side
  | input | output
deriving DecidableEq

inductive ServiceCall (κ : Type) (N : Nat)
  | register (id : MessageId) (state : κ) (handler : Handler κ N)
  | contains (id : MessageId)
  | info
  | startCall (id : MessageId) (side : Side)
  | dispatch (id : MessageId)
  | serve
  /-- Takes the output for the input and the input for the output. -/
  | serveBack
  | station (side : Side) (c : StationCall N)

structure ServiceReport where
  result : Except Fault StationAnswer
  extra : Extra
  input : Nat × Nat
  output : Nat × Nat
  log : List Record

namespace Service

variable {κ : Type} {N H : Nat}

def fresh (κ : Type) (N H : Nat) : Service κ N H := ⟨.empty, ⟨.empty N, []⟩, ⟨.empty N, []⟩⟩

def report (s : Service κ N H) (result : Except Fault StationAnswer) (extra : Extra) (log : List Record) :
    ServiceReport × Service κ N H :=
  (⟨result, extra, (s.input.buffer.cursor, s.input.buffer.used),
    (s.output.buffer.cursor, s.output.buffer.used), log⟩, s)

def verdict (result : Except Error Unit) : Except Fault StationAnswer :=
  (result.mapError .error).map fun _ => .plain .done

def station (s : Service κ N H) : Side → Station N
  | .input => s.input
  | .output => s.output

def put (s : Service κ N H) (side : Side) (station : Station N) : Service κ N H :=
  match side with
  | .input => { s with input := station }
  | .output => { s with output := station }

def exchange (s : Service κ N H) : Exchange N := ⟨s.input.buffer, s.output.buffer⟩

def settle (s : Service κ N H) (result : Except Error Unit) (table : RouteTable κ N H) (x : Exchange N)
    (log : List Record) : ServiceReport × Service κ N H :=
  report ⟨table, { s.input with buffer := x.input }, { s.output with buffer := x.output }⟩
    (verdict result) .none log

def step (s : Service κ N H) : ServiceCall κ N → ServiceReport × Service κ N H
  | .register id state handler =>
    let o := s.table.register id state handler
    report { s with table := o.state } (verdict o.result) .none o.log
  | .contains id => s.report (.ok (.plain (.flag (s.table.contains id)))) .none []
  | .info =>
    let t := s.table
    s.report (.ok (.plain (.routes t.routes.length t.routes.isEmpty t.describe))) .none []
  | .startCall id side =>
    let station := s.station side
    let o := Buffer.startCall id station.buffer
    (s.put side { station with buffer := o.state }).report (verdict o.result) .none o.log
  | .dispatch id =>
    let o := RouteTable.dispatch id (s.table, s.exchange)
    s.settle o.result o.state.1 o.state.2 o.log
  | .serve =>
    let o := RouteTable.serve (s.table, s.exchange)
    s.settle o.result o.state.1 o.state.2 o.log
  | .serveBack =>
    let o := RouteTable.serve (s.table, s.exchange.swap)
    s.settle o.result o.state.1 o.state.2.swap o.log
  | .station side c =>
    let o := c.step (s.station side)
    (s.put side o.station).report o.result o.extra o.log

def run (s : Service κ N H) : List (ServiceCall κ N) → List ServiceReport × Service κ N H
  | [] => ([], s)
  | c :: rest =>
    let (report, s) := s.step c
    let (reports, s) := s.run rest
    (report :: reports, s)

end Service

end Marshal.Session
