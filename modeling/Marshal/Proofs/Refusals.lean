import Marshal.Proofs.BufferReads
import Marshal.Proofs.PartialWrites
import Marshal.Session.Buffers

/-!
# Refused calls

A call that takes a single step compares what it asks for with what there is:
room before the capacity, unread bytes, written bytes or the capacity itself.
`Call.refusal?` says the error that follows, if any. The call is refused with
just this error, and then the buffer and the caller's memory are as before.
-/

namespace Marshal

open Marshal.Action Session

variable {ε σ α β : Type} {N : Nat}

namespace Action

/-- If `refusal` is an error, `a` fails with it at `s` and changes nothing, and else `a` succeeds. -/
def RefusedWith (refusal : Option ε) (a : Action ε σ α) (s : σ) : Prop :=
  match refusal with
  | some e => (a s).result = .error e ∧ (a s).state = s
  | none => ∃ x, (a s).result = .ok x

def shortage (error : Nat → Nat → ε) (requested available : Nat) : Option ε :=
  if available < requested then some (error requested available) else none

namespace RefusedWith

theorem of_shortage {error : Nat → Nat → ε} {requested available : Nat} {a : Action ε σ α} {s : σ}
    (hlt : available < requested → (a s).result = .error (error requested available) ∧ (a s).state = s)
    (hle : requested ≤ available → ∃ x, (a s).result = .ok x) :
    RefusedWith (shortage error requested available) a s := by
  unfold shortage
  split
  · next h => exact hlt h
  · next h => exact hle (Nat.le_of_not_lt h)

theorem map {refusal : Option ε} {a : Action ε σ α} {s : σ} (h : RefusedWith refusal a s) (f : α → β) :
    RefusedWith refusal (do let x ← a; return f x) s := by
  cases refusal with
  | some e =>
    obtain ⟨hr, hs⟩ := h
    obtain ⟨hr', hs'⟩ := bind_of_error (f := fun x => (pure (f x) : Action ε σ β)) hr
    exact ⟨hr', hs'.trans hs⟩
  | none =>
    obtain ⟨x, hx⟩ := h
    exact ⟨f x, (bind_of_ok (f := fun x => (pure (f x) : Action ε σ β)) hx).1⟩

end RefusedWith

end Action

/-! ## Decodes on a reader -/

namespace Reader

theorem refused_decodeBytes (length : Nat) (r : Reader) :
    RefusedWith (shortage .underflow length r.unread) (decodeBytes length) r := by
  refine .of_shortage (fun h => ?_) (fun h => ?_)
  · rw [decodeBytes_of_lt h]
    exact ⟨rfl, rfl⟩
  · rw [decodeBytes_apply, if_neg (Nat.not_lt.mpr h)]
    exact ⟨_, rfl⟩

theorem refused_decodeScalar (t : ScalarType) (r : Reader) :
    RefusedWith (shortage .underflow t.width r.unread) (decodeScalar t) r := (refused_decodeBytes t.width r).map _

theorem refused_decodeMessageId (r : Reader) : RefusedWith (shortage .underflow 4 r.unread) decodeMessageId r :=
  (refused_decodeScalar .u32 r).map _

theorem refused_decodeCString (r : Reader) :
    RefusedWith (if 0 ∈ r.rest then none else some (.underflow (r.unread + 1) r.unread)) decodeCString r := by
  split
  · next h =>
    obtain ⟨s, rest, hs⟩ := CString.exists_of_mem h
    rw [RefusedWith, decodeCString_of_append s hs]
    exact ⟨s, rfl⟩
  · next h =>
    rw [RefusedWith, decodeCString_of_not_mem h]
    exact ⟨rfl, rfl⟩

end Reader

/-! ## Calls on a buffer -/

namespace Buffer

theorem refused_load (bytes : List UInt8) (b : Buffer N) :
    RefusedWith (shortage .overflow bytes.length N) (load bytes) b := by
  refine .of_shortage (fun h => ?_) (fun h => ?_)
  · rw [load, if_pos h]
    exact ⟨rfl, rfl⟩
  · rw [load_of_le h]
    exact ⟨_, rfl⟩

theorem refused_seek (position : Nat) (b : Buffer N) :
    RefusedWith (shortage .invalidPosition position N) (seek position) b := by
  refine .of_shortage (fun h => ?_) (fun h => ?_)
  · rw [seek, if_pos h]
    exact ⟨rfl, rfl⟩
  · rw [seek_of_le h]
    exact ⟨_, rfl⟩

theorem refused_encodeBytes (bytes : List UInt8) (b : Buffer N) :
    RefusedWith (shortage .overflow bytes.length b.remaining) (encodeBytes bytes) b := by
  refine .of_shortage (fun h => ?_) (fun h => ?_)
  · rw [encodeBytes, if_pos h]
    exact ⟨rfl, rfl⟩
  · rw [encodeBytes_of_le h]
    exact ⟨_, rfl⟩

theorem refused_encodePart (p : Part) (b : Buffer N) :
    RefusedWith (if p.NulFree then shortage .overflow p.width b.remaining else some .interiorNul) p.encode b := by
  split
  · next hn =>
    refine .of_shortage (fun h => ?_) (fun h => ?_)
    · have hp := Part.encode_of_refused (.inr h)
      rwa [Part.refusal, if_pos hn] at hp
    · rw [Part.encode_of_le hn h]
      exact ⟨_, rfl⟩
  · next hn =>
    have hp := Part.encode_of_refused (b := b) (.inl hn)
    rwa [Part.refusal, if_neg hn] at hp

theorem refused_popBytes (length : Nat) (b : Buffer N) :
    RefusedWith (shortage .underflow length b.cursor) (popBytes length) b := by
  refine .of_shortage (fun h => ?_) (fun h => ?_)
  · rw [popBytes, if_pos h]
    exact ⟨rfl, rfl⟩
  · rw [popBytes, if_neg (Nat.not_lt.mpr h)]
    exact ⟨_, rfl⟩

theorem refused_read {refusal : Option Error} {d : Action Error Reader α} {b : Buffer N}
    (h : RefusedWith refusal d b.reader) : RefusedWith refusal (read d) b := by
  cases refusal with
  | some e =>
    rw [RefusedWith, read_of_error h.1]
    exact ⟨rfl, rfl⟩
  | none =>
    obtain ⟨x, hx⟩ := h
    exact ⟨x, (read_of_ok hx rfl).1⟩

end Buffer

/-! ## Calls of a session -/

namespace Session

namespace Call

/-- The calls that code one leaf or some bytes, or set the cursor or the message. -/
def Single : Call N → Prop
  | load _ | seek _ | restore _ | encodeBytes _ | popBytes _ | popScalar _ => True
  | encode ⟨.leaf _, _⟩ => True
  | fetch (.bytes _) | fetch .cstring | fetch (.item (.leaf (.scalar _))) | fetch (.item (.leaf .messageId)) => True
  | _ => False

def refusal? (b : Buffer N) : Call N → Option Error
  | load bytes => shortage .overflow bytes.length N
  | seek position => shortage .invalidPosition position N
  | restore saved => shortage .invalidPosition saved.position N
  | encodeBytes bytes => shortage .overflow bytes.length (N - b.cursor)
  | encode ⟨.leaf l, x⟩ =>
    if l.NulFree x then shortage .overflow (l.width x) (N - b.cursor) else some .interiorNul
  | fetch (.bytes out) => shortage .underflow out.length (b.used - b.cursor)
  | fetch (.item (.leaf (.scalar t))) => shortage .underflow t.width (b.used - b.cursor)
  | fetch (.item (.leaf .messageId)) => shortage .underflow 4 (b.used - b.cursor)
  | fetch .cstring =>
    if 0 ∈ b.message.drop b.cursor then none else some (.underflow (b.unread + 1) b.unread)
  | popBytes out => shortage .underflow out.length b.cursor
  | popScalar t => shortage .underflow t.width b.cursor
  | _ => none

def lent : Call N → Extra
  | fetch (.bytes out) | popBytes out => .out out
  | _ => .none

end Call

def Step.RefusedWith (refusal : Option Error) (lent : Extra) (b : Buffer N) (s : Step (Buffer N)) : Prop :=
  match refusal with
  | some e => s.result = .error (.error e) ∧ s.state = b ∧ s.extra = lent
  | none => ∃ a, s.result = .ok a

namespace Step

variable {refusal : Option Error} {b : Buffer N}

theorem refused_ofCall {a : Action Error (Buffer N) α} (h : Action.RefusedWith refusal a b) (answer : α → Answer) :
    (ofCall answer a b).RefusedWith refusal .none b := by
  cases refusal with
  | some e =>
    obtain ⟨hr, hs⟩ := h
    exact ⟨by rw [ofCall, ofOutcome, hr]; rfl, hs, rfl⟩
  | none =>
    obtain ⟨x, hx⟩ := h
    exact ⟨answer x, by rw [ofCall, ofOutcome, hx]; rfl⟩

theorem refused_ofCopy {a : Action Error (Buffer N) (List UInt8)} (h : Action.RefusedWith refusal a b)
    (out : List UInt8) : (ofCopy out a b).RefusedWith refusal (.out out) b := by
  cases refusal with
  | some e =>
    obtain ⟨hr, hs⟩ := h
    exact ⟨by rw [ofCopy, hr]; rfl, hs, by rw [ofCopy, hr]; rfl⟩
  | none =>
    obtain ⟨x, hx⟩ := h
    exact ⟨.done, by rw [ofCopy, hx]; rfl⟩

theorem RefusedWith.result_eq_error_iff {lent : Extra} {s : Step (Buffer N)} (h : s.RefusedWith refusal lent b)
    (f : Fault) : s.result = .error f ↔ ∃ e, refusal = some e ∧ f = .error e := by
  cases refusal with
  | some e =>
    rw [h.1]
    exact ⟨fun hf => ⟨e, rfl, (Except.error.inj hf).symm⟩, fun ⟨_, he, hf⟩ => by cases he; rw [hf]⟩
  | none =>
    obtain ⟨a, ha⟩ := h
    rw [ha]
    exact ⟨nofun, fun ⟨_, he, _⟩ => by cases he⟩

theorem RefusedWith.unchanged {lent : Extra} {s : Step (Buffer N)} (h : s.RefusedWith refusal lent b) {f : Fault}
    (hf : s.result = .error f) : s.state = b ∧ s.extra = lent := by
  cases refusal with
  | some e => exact h.2
  | none =>
    obtain ⟨a, ha⟩ := h
    rw [ha] at hf
    cases hf

end Step

theorem Call.refused {b : Buffer N} (hb : b.used ≤ N) {c : Call N} (hc : c.Single) :
    (c.step b).RefusedWith (c.refusal? b) c.lent b := by
  have hunread : b.used - b.cursor = b.reader.unread := (Buffer.unread_reader hb).symm
  match c, hc with
  | .load bytes, _ => exact Step.refused_ofCall (Buffer.refused_load bytes b) _
  | .seek position, _ => exact Step.refused_ofCall (Buffer.refused_seek position b) _
  | .restore saved, _ => exact Step.refused_ofCall (Buffer.refused_seek saved.position b) _
  | .encodeBytes bytes, _ => exact Step.refused_ofCall (Buffer.refused_encodeBytes bytes b) _
  | .encode ⟨.leaf l, x⟩, _ => exact Step.refused_ofCall (Buffer.refused_encodePart ⟨l, x⟩ b) _
  | .popBytes out, _ => exact Step.refused_ofCopy (Buffer.refused_popBytes out.length b) out
  | .popScalar t, _ => exact Step.refused_ofCall ((Buffer.refused_popBytes t.width b).map _) _
  | .fetch (.bytes out), _ =>
    rw [Call.refusal?, hunread]
    exact Step.refused_ofCopy (Buffer.refused_read (Reader.refused_decodeBytes out.length _)) out
  | .fetch (.item (.leaf (.scalar t))), _ =>
    rw [Call.refusal?, hunread]
    exact Step.refused_ofCall (Buffer.refused_read (Reader.refused_decodeScalar t _)) _
  | .fetch (.item (.leaf .messageId)), _ =>
    rw [Call.refusal?, hunread]
    exact Step.refused_ofCall (Buffer.refused_read (Reader.refused_decodeMessageId _)) _
  | .fetch .cstring, _ =>
    rw [Call.refusal?, ← Buffer.rest_reader hb, ← Buffer.unread_reader hb]
    exact Step.refused_ofCall (Buffer.refused_read (Reader.refused_decodeCString _)) _

end Session

/-- **A refused call is exact and leaves no trace.** A single call fails just if it asks for more
than there is, with an error that tells both, or if its text holds a NUL. It then leaves buffer and
memory as they were. Receiving fails as its filling does. -/
theorem refused_calls_leave_no_trace (b : Buffer N) (hb : b.InBounds) :
    (∀ c : Call N, c.Single →
      (∀ f, (c.step b).result = .error f ↔ ∃ e, c.refusal? b = some e ∧ f = .error e) ∧
      ∀ f, (c.step b).result = .error f → (c.step b).state = b ∧ (c.step b).extra = c.lent) ∧
    ∀ {ε : Type} (fill : Vector UInt8 N → Except ε Nat × Vector UInt8 N) (e : ε),
      ((Buffer.receive fill b).result = .error e ↔ (fill b.storage).1 = .error e) ∧
      ((Buffer.receive fill b).result = .error e →
        (Buffer.receive fill b).state.cursor = b.cursor ∧ (Buffer.receive fill b).state.used = b.used) := by
  refine ⟨fun c hc => ?_, fun fill e => ?_⟩
  · have h := Call.refused hb.used_le hc
    exact ⟨h.result_eq_error_iff, fun f => h.unchanged⟩
  · unfold Buffer.receive
    dsimp only
    rcases fill b.storage with ⟨e' | reported, storage⟩
    · exact ⟨Iff.rfl, fun _ => ⟨rfl, rfl⟩⟩
    · exact ⟨⟨nofun, nofun⟩, nofun⟩

/-- Past the used count: a byte of room, three to take back and none to read. -/
theorem refused_calls_leave_no_trace_past_used :
    let b : Buffer 4 := ⟨#v[104, 105, 0, 7], 3, 2⟩
    let text : Call 4 := .encode ⟨.leaf .text, "a\x00bc"⟩
    let pop : Call 4 := .popBytes [9, 9, 9, 9]
    let fill : Vector UInt8 4 → Except String Nat × Vector UInt8 4 := fun s => (.error "timeout", s.set 0 1)
    b.InBounds ∧
      ((Call.encodeBytes [1, 2]).step b).result = .error (.error (.overflow 2 1)) ∧
      (text.step b).result = .error (.error .interiorNul) ∧
      ((Call.fetch .cstring).step b).result = .error (.error (.underflow 1 0)) ∧
      ((Call.restore ⟨5⟩).step b).result = .error (.error (.invalidPosition 5 4)) ∧
      (pop.step b).result = .error (.error (.underflow 4 3)) ∧ (pop.step b).state = b ∧
      (pop.step b).extra = .out [9, 9, 9, 9] ∧
      (Buffer.receive fill b).result = .error "timeout" ∧ (Buffer.receive fill b).state.used = 2 := by
  intro b text pop fill
  have hb : b.InBounds := ⟨by decide, by decide⟩
  obtain ⟨hcalls, hreceive⟩ := refused_calls_leave_no_trace b hb
  have hpop := ((hcalls pop trivial).1 _).mpr ⟨_, rfl, rfl⟩
  have htext : text.refusal? b = some .interiorNul := by decide
  obtain ⟨hfails, hkept⟩ := hreceive fill "timeout"
  exact ⟨hb, ((hcalls (.encodeBytes [1, 2]) trivial).1 _).mpr ⟨_, rfl, rfl⟩,
    ((hcalls text trivial).1 _).mpr ⟨_, htext, rfl⟩, ((hcalls (.fetch .cstring) trivial).1 _).mpr ⟨_, rfl, rfl⟩,
    ((hcalls (.restore ⟨5⟩) trivial).1 _).mpr ⟨_, rfl, rfl⟩, hpop, (hcalls pop trivial).2 _ hpop |>.1,
    (hcalls pop trivial).2 _ hpop |>.2, hfails.mpr rfl, (hkept (hfails.mpr rfl)).2⟩

end Marshal
