import Marshal.Proofs.StaleBytes
import Marshal.Session.Handles

/-!
# Old bytes behind handles

No call through a handle moves the cursor over bytes that were not written, so
no call at all tells two handles apart whose buffers differ in old bytes only.
An element coder is given the handle and may do with it what it likes, so it
counts as a program of calls.
-/

namespace Marshal

open Marshal.Action Session

variable {ε α β μ : Type}

/-- Both NULL, or live with buffers that differ in old bytes only. -/
def Handle.Same (h g : Handle) : Prop := Option.Rel (Buffer.SameBelow 0) h g

def Handle.SameBeside (μ : Type) (p q : Handle × μ) : Prop := Handle.Same p.1 q.1 ∧ p.2 = q.2

structure Reply.Alike (r s : Reply α) : Prop where
  status_eq : r.status = s.status
  out_eq : r.out = s.out
  log_eq : r.log = s.log
  handle : Handle.Same r.handle s.handle

namespace Handle

theorem Same.capacity_eq {h g : Handle} (hs : Same h g) : h.capacity = g.capacity := by
  cases hs <;> rfl

theorem Same.cursor_eq {h g : Handle} (hs : Same h g) : h.cursor = g.cursor := by
  cases hs with
  | none => rfl
  | some hs => exact hs.cursor_eq

theorem Same.used_eq {h g : Handle} (hs : Same h g) : h.used = g.used := by
  cases hs with
  | none => rfl
  | some hs => exact hs.used_eq

theorem Same.data_eq {h g : Handle} (hs : Same h g) : h.data = g.data := by
  cases hs with
  | none => rfl
  | some hs => exact congrArg some hs.written_eq

theorem same_create : Same create create := .some ((Buffer.sameBelow_reset_empty (.empty handleCapacity)))

/-! ## Each call -/

theorem onLive_alike {out : α} {call call' : Buffer handleCapacity → Reply α}
    (hc : ∀ b c, Buffer.SameBelow 0 b c → (call b).Alike (call' c)) {h g : Handle} (hs : Same h g) :
    (onLive out call h).Alike (onLive out call' g) := by
  cases hs with
  | none => exact ⟨rfl, rfl, rfl, .none⟩
  | some hs => exact hc _ _ hs

theorem run_alike {a : Action Error (Buffer handleCapacity) β} (ha : Sim (Buffer.SameBelow 0) a a) (out : α)
    (write : β → α) {b c : Buffer handleCapacity} (hs : Buffer.SameBelow 0 b c) :
    (run a out write b).Alike (run a out write c) := by
  obtain ⟨r, b', c', log, hb, hc, hs'⟩ := (ha b c hs).exists_eq
  unfold run
  rw [hb, hc]
  cases r <;> exact ⟨rfl, rfl, rfl, .some hs'⟩

theorem refuse_alike (status : Status) (out : α) {b c : Buffer handleCapacity} (hs : Buffer.SameBelow 0 b c) :
    (refuse status out b).Alike (refuse status out c) := ⟨rfl, rfl, rfl, .some hs⟩

variable {h g : Handle} (hs : Same h g)

include hs

theorem reset_alike : (reset h).Alike (reset g) :=
  onLive_alike (fun _ _ => run_alike (Sim.update fun _ _ => Buffer.sameBelow_congruence.reset) () id) hs

theorem sealed_alike : (sealed h).Alike (sealed g) :=
  onLive_alike (fun _ _ => run_alike (Sim.update fun _ _ => Buffer.sameBelow_congruence.sealed) () id) hs

theorem load_alike (bytes : Pointer (List UInt8)) (length : Nat) :
    (load bytes length h).Alike (load bytes length g) := by
  refine onLive_alike (fun b c hbc => ?_) hs
  split
  · exact run_alike (Buffer.sim_load 0 _) _ _ hbc
  · exact refuse_alike _ _ hbc
  · exact run_alike (Buffer.sim_load 0 _) _ _ hbc

theorem encodeBytes_alike (bytes : Pointer (List UInt8)) (length : Nat) :
    (encodeBytes bytes length h).Alike (encodeBytes bytes length g) := by
  refine onLive_alike (fun b c hbc => ?_) hs
  split
  · exact refuse_alike _ _ hbc
  · exact refuse_alike _ _ hbc
  · exact run_alike (Buffer.sim_encodeBytes 0 _) _ _ hbc

theorem decodeBytes_alike (out : Pointer (List UInt8)) (length : Nat) :
    (decodeBytes out length h).Alike (decodeBytes out length g) := by
  refine onLive_alike (fun b c hbc => ?_) hs
  split
  · exact refuse_alike _ _ hbc
  · exact refuse_alike _ _ hbc
  · exact run_alike (Buffer.sim_read 0 fun _ => Reader.keeps_decodeBytes _) _ _ hbc

theorem encodeCString_alike (s : Pointer (Pointer CString)) :
    (encodeCString s h).Alike (encodeCString s g) := by
  refine onLive_alike (fun b c hbc => ?_) hs
  split
  · exact run_alike (Buffer.sim_encodeBytes 0 _) _ _ hbc
  · exact refuse_alike _ _ hbc

theorem decodeCString_alike (view : Pointer (Option StringView)) (consumed : Pointer (Option Nat)) :
    (decodeCString view consumed h).Alike (decodeCString view consumed g) := by
  refine onLive_alike (fun b c hbc => ?_) hs
  rcases view with _ | old
  · exact refuse_alike _ _ hbc
  · dsimp only
    rw [hbc.reader_eq]
    exact run_alike (Buffer.sim_read 0 fun _ => Reader.keeps_decodeCString) _ _ hbc

theorem encode_alike (t : ScalarType) (value : Pointer (List UInt8)) :
    (encode t value h).Alike (encode t value g) := by
  refine onLive_alike (fun b c hbc => ?_) hs
  split
  · exact refuse_alike _ _ hbc
  · exact run_alike (Buffer.sim_encodeBytes 0 _) _ _ hbc

theorem decode_alike (t : ScalarType) (out : Pointer (List UInt8)) :
    (decode t out h).Alike (decode t out g) := by
  refine onLive_alike (fun b c hbc => ?_) hs
  split
  · exact refuse_alike _ _ hbc
  · exact run_alike (Buffer.sim_read 0 fun _ => Format.keeps_decode (.scalar t)) _ _ hbc

theorem codeEach_alike (elements : Pointer Unit) (count size : Nat) {coder : Pointer (ElementCallback μ)}
    (hcoder : ∀ code, coder = .to code → ∀ start, Sim (SameBeside μ) (code start) (code start)) (memory : μ)
    (failed : Pointer (Option Nat)) :
    (codeEach elements count size coder memory failed h).Alike
      (codeEach elements count size coder memory failed g) := by
  refine onLive_alike (fun b c hbc => ?_) hs
  rcases coder with _ | code
  · exact refuse_alike _ _ hbc
  dsimp only
  split
  · exact refuse_alike _ _ hbc
  split
  · exact refuse_alike _ _ hbc
  split
  · exact refuse_alike _ _ hbc
  obtain ⟨r, ⟨h', m⟩, ⟨g', m'⟩, log, hh, hg, hs', hm⟩ := (Sim.codeRange
    (fun index => hcoder code rfl (index * size)) 0 count (some b, memory) (some c, memory)
    ⟨.some hbc, rfl⟩).exists_eq
  cases hm
  rw [hh, hg]
  cases r <;> exact ⟨rfl, rfl, rfl, hs'⟩

end Handle

/-! ## Scripts and sessions -/

namespace Session

open Handle

namespace FieldScript

theorem check_sim {call : Handle → Reply α} (hcall : ∀ h g, Same h g → (call h).Alike (call g)) :
    Sim (SameBeside Scratch) (check call) (check call) := by
  rintro ⟨h, m⟩ ⟨g, m'⟩ ⟨hs, hm⟩
  cases hm
  obtain ⟨hst, hout, hlog, hh⟩ := hcall h g hs
  refine ⟨?_, hlog, hh, rfl⟩
  dsimp only [check]
  rw [hst, hout]

theorem codeField_sim (start : Nat) (field : Field) :
    Sim (SameBeside Scratch) (codeField start field) (codeField start field) := by
  refine (Sim.view fun _ _ h => by rw [h.2]).bind fun region => ?_
  dsimp only
  split
  · refine (check_sim fun _ _ hs => decode_alike hs _ _).bind fun out => ?_
    split
    · exact Sim.update fun _ _ h => ⟨h.1, by rw [h.2]⟩
    · exact Sim.pure _
  · exact check_sim fun _ _ hs => encode_alike hs _ _

theorem codeFields_sim (start : Nat) (fields : List Field) :
    Sim (SameBeside Scratch) (codeFields start fields) (codeFields start fields) := by
  induction fields with
  | nil => exact Sim.pure _
  | cons field fields ih => exact (codeField_sim start field).bind fun _ => ih

theorem callback_sim (script : FieldScript) (start : Nat) :
    Sim (SameBeside Scratch) (script.callback start) (script.callback start) := by
  refine (Sim.view fun _ _ h => by rw [h.2]).bind fun calls => ?_
  refine (Sim.update ?_).bind fun _ => ?_
  · rintro ⟨h, m⟩ ⟨g, m'⟩ ⟨hs, hm⟩
    cases hm
    exact ⟨hs, rfl⟩
  split
  · exact Sim.fail _
  · refine Sim.bind ?_ fun _ => codeFields_sim start script.fields
    cases script.opening with
    | nothing => exact Sim.pure _
    | reset => exact check_sim fun _ _ => reset_alike
    | sealed => exact check_sim fun _ _ => sealed_alike

end FieldScript

structure HandleStep.Alike (s t : HandleStep) : Prop where
  answer_eq : s.answer = t.answer
  extra_eq : s.extra = t.extra
  log_eq : s.log = t.log
  handle : Handle.Same s.handle t.handle

theorem HandleStep.ofReply_alike (extra : α → HandleExtra) {r s : Reply α} (h : r.Alike s) :
    (ofReply extra r).Alike (ofReply extra s) :=
  ⟨congrArg HandleAnswer.status h.status_eq, congrArg extra h.out_eq, h.log_eq, h.handle⟩

theorem HandleCall.step_alike (c : HandleCall) {h g : Handle} (hs : Same h g) : (c.step h).Alike (c.step g) := by
  cases c with
  | create => exact ⟨rfl, rfl, rfl, same_create⟩
  | destroy => exact ⟨rfl, rfl, rfl, .none⟩
  | data => exact ⟨congrArg HandleAnswer.data hs.data_eq, rfl, rfl, hs⟩
  | reset => exact HandleStep.ofReply_alike (fun _ => .none) (reset_alike hs)
  | sealed => exact HandleStep.ofReply_alike (fun _ => .none) (sealed_alike hs)
  | load bytes length => exact HandleStep.ofReply_alike (fun _ => .none) (load_alike hs bytes length)
  | encodeBytes bytes length => exact HandleStep.ofReply_alike (fun _ => .none) (encodeBytes_alike hs bytes length)
  | decodeBytes out length => exact HandleStep.ofReply_alike .out (decodeBytes_alike hs out length)
  | encodeCString s => exact HandleStep.ofReply_alike (fun _ => .none) (encodeCString_alike hs s)
  | decodeCString view consumed =>
    exact HandleStep.ofReply_alike (fun p => .string p.1 p.2) (decodeCString_alike hs view consumed)
  | encode t value => exact HandleStep.ofReply_alike (fun _ => .none) (encode_alike hs t value)
  | decode t out => exact HandleStep.ofReply_alike .out (decode_alike hs t out)
  | codeEach elements count size coder failed =>
    refine HandleStep.ofReply_alike (fun p => .array p.2 p.1)
      (codeEach_alike hs _ count size (fun code hcode start => ?_) _ failed)
    rcases coder with _ | script
    · cases hcode
    · cases hcode
      exact script.callback_sim start
  | codeStrings strings =>
    refine HandleStep.ofReply_alike (fun p => .strings p.2)
      (codeEach_alike hs _ _ 8 (fun code hcode start => ?_) _ _)
    cases hcode
    exact FieldScript.check_sim fun _ _ hs => encodeCString_alike hs _

theorem stepHandle_alike {hs gs : List Handle} (h : Rows Same hs gs) (index : Nat) (c : HandleCall) :
    (stepHandle hs index c).1 = (stepHandle gs index c).1 ∧
      Rows Same (stepHandle hs index c).2 (stepHandle gs index c).2 := by
  obtain ⟨ha, hx, hl, hh⟩ := c.step_alike (h.getD .none index)
  refine ⟨?_, h.set hh index⟩
  unfold stepHandle
  dsimp only
  rw [ha, hx, hl, hh.capacity_eq, hh.cursor_eq, hh.used_eq]

theorem runHandles_alike {hs gs : List Handle} (h : Rows Same hs gs) (calls : List (Nat × HandleCall)) :
    (runHandles hs calls).1 = (runHandles gs calls).1 ∧
      Rows Same (runHandles hs calls).2 (runHandles gs calls).2 := by
  induction calls generalizing hs gs with
  | nil => exact ⟨rfl, h⟩
  | cons call rest ih =>
    obtain ⟨hr, hrows⟩ := stepHandle_alike h call.1 call.2
    obtain ⟨hreports, hlast⟩ := ih hrows
    exact ⟨(congrArg (· :: _) hr).trans (congrArg (_ :: ·) hreports), hlast⟩

end Session

/-! ## Programs -/

def Session.HandleCall.ask (c : HandleCall) : Action ε (Handle × μ) HandleReport := fun (h, m) =>
  let s := c.step h
  ⟨.ok ⟨s.answer, s.extra, s.handle.capacity, s.handle.cursor, s.handle.used, s.log⟩, (s.handle, m), s.log⟩

def Handle.codeArray (elements : Pointer Unit) (count size : Nat) (coder : ElementCallback μ)
    (failed : Pointer (Option Nat)) : Action ε (Handle × μ) (Status × Pointer (Option Nat)) := fun (h, m) =>
  let reply := codeEach elements count size (.to coder) m failed h
  ⟨.ok (reply.status, reply.out.2), (reply.handle, reply.out.1), reply.log⟩

/-- Programs that touch a handle by calls only, and element coders made in the same way. -/
inductive Handle.Program (μ : Type) : ∀ {ε α : Type}, Action ε (Handle × μ) α → Prop
  | pure {ε α : Type} (x : α) : Program μ (pure x : Action ε (Handle × μ) α)
  | fail {ε α : Type} (e : ε) : Program μ (Action.fail e : Action ε (Handle × μ) α)
  | memory {ε α : Type} (a : Action ε μ α) : Program μ a.onSnd
  | call {ε : Type} (c : HandleCall) : Program μ (c.ask : Action ε (Handle × μ) HandleReport)
  | codeArray {ε : Type} (elements : Pointer Unit) (count size : Nat) {coder : ElementCallback μ}
      (failed : Pointer (Option Nat)) : (∀ start, Program μ (coder start)) →
      Program μ (codeArray elements count size coder failed : Action ε (Handle × μ) (Status × Pointer (Option Nat)))
  | bind {ε α β : Type} {a : Action ε (Handle × μ) α} {f : α → Action ε (Handle × μ) β} :
      Program μ a → (∀ x, Program μ (f x)) → Program μ (a >>= f)

theorem Handle.Program.sim {a : Action ε (Handle × μ) α} (h : Program μ a) : Sim (SameBeside μ) a a := by
  induction h with
  | pure x => exact Sim.pure x
  | fail e => exact Sim.fail e
  | memory a =>
    rintro ⟨h, m⟩ ⟨g, m'⟩ ⟨hs, hm⟩
    cases hm
    exact ⟨rfl, rfl, hs, rfl⟩
  | call c =>
    rintro ⟨h, m⟩ ⟨g, m'⟩ ⟨hs, hm⟩
    cases hm
    obtain ⟨ha, hx, hl, hh⟩ := c.step_alike hs
    refine ⟨?_, hl, hh, rfl⟩
    dsimp only [HandleCall.ask]
    rw [ha, hx, hl, hh.capacity_eq, hh.cursor_eq, hh.used_eq]
  | @codeArray _ elements count size coder failed _ ih =>
    rintro ⟨h, m⟩ ⟨g, m'⟩ ⟨hs, hm⟩
    cases hm
    have hcoder : ∀ code, Pointer.to coder = .to code → ∀ start,
        Sim (SameBeside μ) (code start) (code start) := by
      rintro _ ⟨⟩
      exact ih
    obtain ⟨hst, hout, hl, hh⟩ := codeEach_alike hs elements count size hcoder m failed
    refine ⟨?_, hl, hh, congrArg Prod.fst hout⟩
    dsimp only [Handle.codeArray]
    rw [hst, hout]
  | bind _ _ iha ihf => exact iha.bind ihf

end Marshal
