import Marshal.Buffer

/-!
# Routing calls to handlers

A call is a message that starts with the identifier of what it calls; its
arguments follow. A route table holds at most `H` handlers, one for each
identifier. A handler decodes its arguments from the input, encodes its answer
into the output, and keeps a state of its own from call to call.
-/

namespace Marshal

structure Exchange (N : Nat) where
  input : Buffer N
  output : Buffer N
deriving DecidableEq

namespace Exchange

variable {N : Nat} {ε α : Type}

def swap (x : Exchange N) : Exchange N := ⟨x.output, x.input⟩

def onInput (a : Action ε (Buffer N) α) : Action ε (Exchange N) α := fun ⟨input, output⟩ =>
  let o := a input
  ⟨o.result, ⟨o.state, output⟩, o.log⟩

def onOutput (a : Action ε (Buffer N) α) : Action ε (Exchange N) α := fun ⟨input, output⟩ =>
  let o := a output
  ⟨o.result, ⟨input, o.state⟩, o.log⟩

end Exchange

abbrev Handler (κ : Type) (N : Nat) : Type := Action Error (κ × Exchange N) Unit

structure Route (κ : Type) (N : Nat) where
  id : MessageId
  state : κ
  handler : Handler κ N

structure RouteTable (κ : Type) (N H : Nat) where
  routes : List (Route κ N)

namespace RouteTable

variable {κ : Type} {N H : Nat}

def empty : RouteTable κ N H := ⟨[]⟩

def ids (t : RouteTable κ N H) : List MessageId := t.routes.map Route.id

def contains (t : RouteTable κ N H) (id : MessageId) : Bool := t.routes.any (·.id = id)

def find? (t : RouteTable κ N H) (id : MessageId) : Option (Route κ N) :=
  t.routes.find? (·.id = id)

def register (id : MessageId) (state : κ) (handler : Handler κ N) :
    Action Error (RouteTable κ N H) Unit := fun t =>
  if t.contains id then
    ⟨.error (.duplicateMessage id), t, [.registeredTwice id]⟩
  else if H ≤ t.routes.length then
    ⟨.error .resourceExhausted, t, [.tableFull H]⟩
  else
    ⟨.ok (), ⟨t.routes ++ [⟨id, state, handler⟩]⟩, [.registered id]⟩

def store (id : MessageId) (state : κ) (t : RouteTable κ N H) : RouteTable κ N H :=
  ⟨t.routes.map fun route => if route.id = id then { route with state } else route⟩

def dispatch (id : MessageId) : Action Error (RouteTable κ N H × Exchange N) Unit := fun (t, x) =>
  match t.find? id with
  | none => ⟨.error (.unknownMessage id), (t, x), [.unrouted id]⟩
  | some route =>
    match route.handler (route.state, x) with
    | ⟨result, (state, x), log⟩ => ⟨result, (t.store id state, x), .dispatching id :: log⟩

/-- Takes the identifier from the input and runs its handler. It stays taken if there is none. -/
def serve : Action Error (RouteTable κ N H × Exchange N) Unit := do
  let id ← (Exchange.onInput (Buffer.read Reader.decodeMessageId)).onSnd
  dispatch id

def describe (t : RouteTable κ N H) : String :=
  let entries := ", ".intercalate (t.ids.map MessageId.describe)
  s!"[{entries}]"

end RouteTable

def Buffer.startCall {N : Nat} (id : MessageId) : Action Error (Buffer N) Unit := do
  Action.update Buffer.reset
  Buffer.encodeMessageId id

end Marshal
