import Marshal.Buffer.Arrays
import Marshal.Coder

/-!
# Answers

What a step of a session shows to its caller: the value or the failure, the
memory that the caller lent, and the log of the step.
-/

namespace Marshal.Session

inductive Answer
  | done
  | number (n : Nat)
  | flag (b : Bool)
  | bytes (bytes : List UInt8)
  | text (text : String)
  | item (x : Item)
  | cstring (s : CString)
  | reader (unread : Nat) (isEmpty : Bool)
  | buffer (capacity remaining unread : Nat) (written message : List UInt8)
  | routes (length : Nat) (isEmpty : Bool) (description : String)

inductive Fault
  | error (e : Error)
  | element (failure : ElementFailure CoderError)
  /-- The failure of whoever was to fill a buffer, in its own words. -/
  | transport (text : String)

namespace Fault

def name : Fault → String
  | error e => e.name
  | element _ => "ElementFailure"
  | transport _ => "Transport"

def message : Fault → String
  | error e => e.message
  | element failure => failure.message CoderError.message
  | transport text => text

end Fault

/-- What else the caller sees, whether the call succeeded or not. -/
inductive Extra
  | none
  | out (bytes : List UInt8)
  | calls (n : Nat)
  | slots (f : Format) (slots : List (Option f.Value))
  | receiver (cursor used : Nat)

structure Step (σ : Type) where
  result : Except Fault Answer
  extra : Extra
  state : σ
  log : List Record

namespace Step

variable {ε σ α : Type}

def ofOutcome (fault : ε → Fault) (answer : α → Answer) (o : Outcome ε σ α) : Step σ :=
  ⟨(o.result.mapError fault).map answer, .none, o.state, o.log⟩

def ofCall (answer : α → Answer) (call : Action Error σ α) (s : σ) : Step σ :=
  ofOutcome .error answer (call s)

def ofCopy (out : List UInt8) (call : Action Error σ (List UInt8)) (s : σ) : Step σ :=
  let o := call s
  ⟨(o.result.mapError .error).map fun _ => .done, .out (o.result.toOption.getD out), o.state, o.log⟩

def ofView (answer : σ → Answer) (s : σ) : Step σ := ⟨.ok (answer s), .none, s, []⟩

def ofUpdate (f : σ → σ) (s : σ) : Step σ := ⟨.ok .done, .none, f s, []⟩

def ofSlots (f : Format) (count : Nat) (decode : Action Error σ f.Value) (s : σ) : Step σ :=
  let o := fillSlots (some <$> decode) ⟨s, Vector.replicate count none⟩
  let failure (e : ElementFailure Error) : Fault := .element ⟨e.index, .plain e.source⟩
  ⟨(o.result.mapError failure).map .number, .slots f o.state.slots.toList, o.state.source, o.log⟩

end Step

inductive Fetch
  | bytes (out : List UInt8)
  | cstring
  | item (f : Format)

/-- Runs a decode where `run` carries a reader's decode to. -/
def Fetch.step {σ : Type} (run : {α : Type} → Action Error Reader α → Action Error σ α) :
    Fetch → σ → Step σ
  | bytes out => .ofCopy out (run (Reader.decodeBytes out.length))
  | cstring => .ofCall .cstring (run Reader.decodeCString)
  | item f => .ofCall (fun x => .item ⟨f, x⟩) (run f.decode)

end Marshal.Session
