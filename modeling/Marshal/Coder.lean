import Marshal.Elements

/-!
# Coders with a state of their own

A coder may count, refuse elements or stop early, and it may wrap the error of
an element in one of its own. Its state stands beside the state it codes into.
-/

namespace Marshal

inductive CoderError
  | plain (e : Error)
  | exhausted
  | budgeted (e : Error)
  | refused
  /-- The element's error, of which only the name is passed on. -/
  | named (e : Error)
deriving DecidableEq

namespace CoderError

def name : CoderError → String
  | plain e | budgeted e | named e => e.name
  | exhausted => "Exhausted"
  | refused => "refused"

def message : CoderError → String
  | plain e => e.message
  | exhausted => "budget exhausted"
  | budgeted e => s!"stream error: {e.message}"
  | refused => "refused"
  | named e => e.name

end CoderError

namespace Coder

variable {σ α : Type}

def budgeted (code : α → Action Error σ Unit) (x : α) : Action CoderError (Nat × σ) Unit := do
  let budget ← .view Prod.fst
  if budget = 0 then
    Action.fail .exhausted
  else
    Action.update fun (budget, s) => (budget - 1, s)
    ((code x).mapError .budgeted).onSnd

def refusing (refuse : α → Bool) (code : α → Action Error σ Unit) (x : α) :
    Action CoderError (Nat × σ) Unit := do
  Action.update fun (calls, s) => (calls + 1, s)
  if refuse x then
    Action.fail .refused
  else
    ((code x).mapError .named).onSnd

end Coder

end Marshal
