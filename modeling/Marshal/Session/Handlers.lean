import Marshal.Format.Wire
import Marshal.Routing

/-!
# A catalogue of handlers

Small handlers for sessions of calls. Each keeps a number, which only `count`
uses, and stops at its first error with what it has done so far.
-/

namespace Marshal.Session

variable {N : Nat} {α : Type}

inductive Script
  | noop
  | double
  | square
  | echo (f : Format)
  | echoAll (f : Format)
  | count
  | hello
  | replyText
  | forward (id : MessageId)
  | fail (e : Error)

namespace Script

def take (f : Format) : Action Error (Exchange N) f.Value := Exchange.onInput (Buffer.decode f)

def give (f : Format) (x : f.Value) : Action Error (Exchange N) Unit :=
  Exchange.onOutput (Buffer.encode ⟨f, x⟩)

def number : Format := .scalar .i32

def echoLoop (f : Format) : Nat → Action Error (Exchange N) Unit
  | 0 => pure ()
  | fuel + 1 => do
    let unread ← .view (·.input.unread)
    if 0 < unread then
      let x ← take f
      Exchange.onOutput (Buffer.encodeWhole ⟨f, x⟩)
      echoLoop f fuel

def greeting : Action Error Reader UInt32 := do
  let _ ← Reader.decodeText
  let _ ← Reader.decodeText
  let rows ← (Format.array (.array (.scalar .u32) 2) 10).decode
  let numbers : List UInt32 := rows.toList.flatMap Vector.toList
  return numbers.foldl (· + ·) 0

def peek (decode : Action Error Reader α) : Action Error (Exchange N) α := fun x =>
  let o := decode x.input.reader
  ⟨o.result, x, o.log⟩

def body : Script → Action Error (Exchange N) Unit
  | noop | count => pure ()
  | double => do
    let x : Int32 ← take number
    give number (2 * x)
  | square => do
    let x : Int32 ← take number
    Exchange.onOutput (.update Buffer.reset)
    give number (x * x)
  | echo f => do
    let x ← take f
    give f x
  | echoAll f => do
    let unread ← .view (·.input.unread)
    echoLoop f unread
  | hello => do
    let sum ← peek greeting
    give (.scalar .u32) sum
  | replyText => do
    let text ← take (.leaf .text)
    Exchange.onOutput (.update Buffer.reset)
    give (.leaf .text) text
    Exchange.onOutput (.update Buffer.sealed)
  | forward id => do
    Exchange.onOutput (Buffer.startCall id)
    let arguments ← .view (·.input.reader.rest)
    Exchange.onOutput (Buffer.encodeBytes arguments)
    Exchange.onOutput (.update Buffer.sealed)
  | fail e => do
    let _ ← take (.scalar .u8)
    give (.scalar .u8) (0xEE : UInt8)
    Action.fail e

def handler : Script → Handler UInt32 N
  | count => do
    Action.update fun (calls, x) => (calls + 1, x)
    let calls ← .view Prod.fst
    (give (.scalar .u32) calls).onSnd
  | script => script.body.onSnd

end Script

end Marshal.Session
