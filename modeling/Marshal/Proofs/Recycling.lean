import Marshal.Proofs.Bounds
import Marshal.Proofs.Disclosure
import Marshal.Proofs.StaleHandles

/-!
# A recycled buffer is as good as a new one

`reset` clears no byte, and still nothing that comes after it can tell the
buffer from an empty one, whatever happened before: neither a run of calls nor
a program with coders of its own, on a buffer or behind a handle. Left out are
`seek` and `restore`, which move over old bytes, `storage`, which shows them,
and receiving from a filling that is not `Honest`: it looks at the storage, or
does not write all that it reports. Each of these does bring old bytes back.
-/

namespace Marshal

open Marshal.Action Session

variable {N : Nat} {ε κ μ α : Type}

/-! ## Receiving a message that is copied in full -/

theorem honest_transport {bytes : List UInt8} {result : Except String Nat}
    (h : ∀ reported, result = .ok reported → reported ≤ bytes.length) :
    Honest (Call.transport (N := N) bytes result) := by
  refine ⟨result, fun i => bytes[i.val]?, fun storage => ?_, fun reported hr i hi => ?_⟩
  · refine congrArg (Prod.mk result) (Vector.ext fun i hi => ?_)
    apply Option.some.inj
    rw [← Vector.getElem?_eq_getElem, ← Vector.getElem?_eq_getElem, getElem?_fill, dif_pos hi,
      getElem?_overwrite, List.length_take, Nat.sub_zero, List.getElem?_take, if_pos hi]
    by_cases hb : i < bytes.length
    · rw [if_pos (by omega), List.getElem?_eq_getElem hb, Option.getD_some]
    · rw [if_neg (by omega), Vector.getElem?_eq_getElem hi, List.getElem?_eq_none (Nat.le_of_not_lt hb),
        Option.getD_none]
  · have hb : i.val < bytes.length := Nat.lt_of_lt_of_le hi (h reported hr)
    show bytes[i.val]?.isSome
    rw [List.getElem?_eq_getElem hb]
    rfl

/-! ## Several buffers -/

def Session.BenchCall.Blind : BenchCall N → Prop
  | .station (.call c) => c.Blind
  | .station (.restoreSaved _) => False
  | _ => True

structure Session.Bench.Same (b c : Bench N) : Prop where
  saved_eq : b.saved = c.saved
  rows : Rows (Buffer.SameBelow 0) b.buffers c.buffers

namespace Session

theorem StationCall.step_alike {c : StationCall N} (hc : (BenchCall.station c).Blind) {s t : Station N}
    (hsaved : s.saved = t.saved) (h : Buffer.SameBelow 0 s.buffer t.buffer) :
    (c.step s).result = (c.step t).result ∧ (c.step s).extra = (c.step t).extra ∧
      (c.step s).log = (c.step t).log ∧ (c.step s).station.saved = (c.step t).station.saved ∧
      Buffer.SameBelow 0 (c.step s).station.buffer (c.step t).station.buffer := by
  obtain ⟨b, saved⟩ := s
  obtain ⟨d, saved'⟩ := t
  cases hsaved
  cases c with
  | call c =>
    obtain ⟨hr, hx, hl, hs⟩ := Call.Blind.sim hc 0 b d h
    exact ⟨congrArg (Except.map StationAnswer.plain) hr, hx, hl, rfl, hs⟩
  | checkpoint =>
    have hcur : b.cursor = d.cursor := h.cursor_eq
    dsimp only [step, StationStep.answer, Buffer.checkpoint]
    rw [hcur]
    exact ⟨rfl, rfl, rfl, rfl, h⟩
  | save position => exact ⟨rfl, rfl, rfl, rfl, h⟩
  | restoreSaved index => exact hc.elim
  | readers steps =>
    have hreader : b.reader = d.reader := h.reader_eq
    dsimp only [step, StationStep.answer]
    rw [hreader]
    exact ⟨rfl, rfl, rfl, rfl, h⟩

namespace Bench

theorem Same.buffer {b c : Bench N} (h : Same b c) (index : Nat) :
    Buffer.SameBelow 0 (b.buffer index) (c.buffer index) :=
  h.rows.getD ((Buffer.inBounds_empty N).sameBelow 0) index

theorem Same.put {b c : Bench N} (h : Same b c) (index : Nat) {x y : Buffer N} (hxy : Buffer.SameBelow 0 x y) :
    Same (b.put index x) (c.put index y) := ⟨h.saved_eq, h.rows.set hxy index⟩

theorem Same.report_eq {b c : Bench N} (h : Same b c) (index : Nat) (result : Except Fault StationAnswer)
    (extra : Extra) (log : List Record) :
    (b.report index result extra log).1 = (c.report index result extra log).1 := by
  dsimp only [report]
  rw [(h.buffer index).cursor_eq, (h.buffer index).used_eq]

theorem step_alike {b c : Bench N} (h : Same b c) (index : Nat) {call : BenchCall N} (hc : call.Blind) :
    (b.step index call).1 = (c.step index call).1 ∧ Same (b.step index call).2 (c.step index call).2 := by
  cases call with
  | station call =>
    obtain ⟨hr, hx, hl, hsaved, hs⟩ := StationCall.step_alike (s := ⟨b.buffer index, b.saved⟩)
      (t := ⟨c.buffer index, c.saved⟩) hc h.saved_eq (h.buffer index)
    have hnext : Same (b.step index (.station call)).2 (c.step index (.station call)).2 :=
      ⟨hsaved, (h.put index hs).rows⟩
    refine ⟨?_, hnext⟩
    dsimp only [step]
    rw [hr, hx, hl]
    exact hnext.report_eq index _ _ _
  | cloneTo target =>
    have hnext := h.put target (h.buffer index)
    exact ⟨hnext.report_eq index _ _ _, hnext⟩
  | sendTo target written =>
    obtain ⟨hr, hx, hl, hs⟩ := Call.Blind.sim (c := .load
      (if written then (b.buffer index).written else (b.buffer index).message)) trivial 0 _ _ (h.buffer target)
    have hnext := h.put target hs
    dsimp only [step]
    rw [← (h.buffer index).written_eq, ← (h.buffer index).message_eq, hr, hl, hs.cursor_eq, hs.used_eq]
    exact ⟨hnext.report_eq index _ _ _, hnext⟩

theorem run_alike {b c : Bench N} (h : Same b c) {calls : List (Nat × BenchCall N)}
    (hc : ∀ call ∈ calls, call.2.Blind) :
    (b.run calls).1 = (c.run calls).1 ∧ Same (b.run calls).2 (c.run calls).2 := by
  induction calls generalizing b c with
  | nil => exact ⟨rfl, h⟩
  | cons call rest ih =>
    obtain ⟨hr, hs⟩ := step_alike h call.1 (hc call (List.mem_cons_self ..))
    obtain ⟨hreports, hlast⟩ := ih hs fun call hcall => hc call (List.mem_cons_of_mem _ hcall)
    exact ⟨(congrArg (· :: _) hr).trans (congrArg (_ :: ·) hreports), hlast⟩

end Bench

end Session

/-! ## Reports of a call that tells -/

theorem Session.Bench.reports_ne {b c : Buffer N} {call : Call N} (h : call.Tells b c) :
    let calls : List (Nat × BenchCall N) := [(0, .station (.call call)), (0, .station (.call .state))]
    ((⟨[b], []⟩ : Bench N).run calls).1 ≠ ((⟨[c], []⟩ : Bench N).run calls).1 := by
  intro calls heq
  have hresults : [(call.step b).result.map StationAnswer.plain,
      (Call.state.step (call.step b).state).result.map StationAnswer.plain] =
    [(call.step c).result.map StationAnswer.plain,
      (Call.state.step (call.step c).state).result.map StationAnswer.plain] :=
    congrArg (List.map BenchReport.result) heq
  have hplain {r r' : Except Fault Answer} (hr : r.map StationAnswer.plain = r'.map StationAnswer.plain) : r = r' := by
    cases r <;> cases r' <;> cases hr <;> rfl
  obtain ⟨hfirst, hrest⟩ := List.cons.inj hresults
  exact h (hplain hfirst) (hplain (List.cons.inj hrest).1)

/-! ## The whole -/

structure Buffer.Visible (b c : Buffer N) : Prop where
  cursor_eq : b.cursor = c.cursor
  used_eq : b.used = c.used
  written_eq : b.written = c.written
  message_eq : b.message = c.message

theorem Buffer.SameBelow.visible {k : Nat} {b c : Buffer N} (h : SameBelow k b c) : Visible b c :=
  ⟨h.cursor_eq, h.used_eq, h.written_eq, h.message_eq⟩

theorem Buffer.SameBelow.program_alike {b c : Buffer N} (h : SameBelow 0 b c) {a : Action ε (κ × Buffer N) α}
    (ha : Program Call.Blind a) (memory : κ) : (a (memory, b)).Alike (Beside κ Visible) (a (memory, c)) := by
  obtain ⟨hr, hl, hm, hs⟩ :=
    sameBelow_congruence.program_sim (fun _ hc k => hc.sim k) ha 0 (memory, b) (memory, c) ⟨rfl, h⟩
  exact ⟨hr, hl, hm, hs.visible⟩

theorem Handle.Same.visible {h g : Handle} (hs : Same h g) : Option.Rel Buffer.Visible h g := by
  cases hs with
  | none => exact .none
  | some hs => exact .some hs.visible

/-- **A recycled buffer is as good as a new one.** After any history, a reset buffer and an empty
one give the same reports and results for all later calls that keep old bytes out of sight; behind a
handle these are all calls. Left out are calls that move over old bytes or show them, and receiving
from fillings that look at the storage or report bytes they did not write: these can tell. -/
theorem reset_as_good_as_empty :
    (∀ (N count : Nat) (history calls : List (Nat × BenchCall N)) (index : Nat),
      (∀ call ∈ calls, call.2.Blind) →
      let bench := ((Bench.fresh N count).run history).2
      ((bench.put index (bench.buffer index).reset).run calls).1 = ((bench.put index (.empty N)).run calls).1) ∧
    (∀ (N : Nat) {κ ε α : Type} (a : Action ε (κ × Buffer N) α), Buffer.Program Call.Blind a →
      ∀ (memory : κ) (b : Buffer N),
        (a (memory, b.reset)).Alike (Beside κ Buffer.Visible) (a (memory, .empty N))) ∧
    (∀ (count : Nat) (history calls : List (Nat × HandleCall)) (index : Nat) (b : Buffer handleCapacity),
      let handles := (runHandles (List.replicate count none) history).2
      handles[index]? = some (some b) →
      (runHandles (stepHandle handles index .reset).2 calls).1 =
        (runHandles (stepHandle handles index .create).2 calls).1) ∧
    (∀ {μ ε α : Type} (a : Action ε (Handle × μ) α), Handle.Program μ a →
      ∀ (memory : μ) (b : Buffer handleCapacity),
        (a ((Handle.reset (some b)).handle, memory)).Alike
          (fun s t => Option.Rel Buffer.Visible s.1 t.1 ∧ s.2 = t.2) (a (Handle.create, memory))) ∧
    (∀ (N : Nat) (b : Buffer N) (i : Nat) (hi : i < N), b.storage[i] ≠ 0 →
      ∀ c ∈ exposing (i + 1), (Call.state.step (c.step b.reset).state).result ≠
        (Call.state.step (c.step (.empty N)).state).result) ∧
    (∀ (N : Nat) (b : Buffer N) (i : Fin N), b.storage.get i ≠ 0 →
      Call.storage.Tells b.reset (.empty N) ∧
      (i.val + 1 < N → ∀ plan ∈ Plan.disclosing i,
        plan.ReportsWritten ∧ (Call.receive plan.fill).Tells b.reset (.empty N))) := by
  refine ⟨fun N count history calls index hc => ?_, fun N κ ε α a ha memory b => ?_,
    fun count history calls index b hb => ?_, fun {μ ε α} a ha memory b => ?_, fun N b i hi h => exposed hi h,
    fun N b i h => ⟨storage_tells h, Plan.disclosed h⟩⟩
  · have hbench := Bench.run_inBounds (Bench.fresh_inBounds N count) history
    have hself : Bench.Same ((Bench.fresh N count).run history).2 ((Bench.fresh N count).run history).2 :=
      ⟨rfl, rows_refl fun b hb => (hbench b hb).sameBelow 0⟩
    exact (Bench.run_alike (hself.put index (Buffer.sameBelow_reset_empty _)) hc).1
  · exact (Buffer.sameBelow_reset_empty b).program_alike ha memory
  · have hself : Rows Handle.Same (runHandles (List.replicate count none) history).2
        (runHandles (List.replicate count none) history).2 := by
      refine (runHandles_alike (rows_refl fun h hh => ?_) history).2
      rw [List.eq_of_mem_replicate hh]
      exact .none
    have hset := hself.set (Option.Rel.some (Buffer.sameBelow_reset_empty b)) index
    have hreset : (stepHandle (runHandles (List.replicate count none) history).2 index .reset).2 =
        (runHandles (List.replicate count none) history).2.set index (some b.reset) := by
      unfold stepHandle
      rw [hb]
      rfl
    rw [hreset]
    exact (runHandles_alike hset calls).1
  · obtain ⟨hr, hl, hh, hm⟩ := ha.sim ((Handle.reset (some b)).handle, memory) (Handle.create, memory)
      ⟨.some (Buffer.sameBelow_reset_empty b), rfl⟩
    exact ⟨hr, hl, hh.visible, hm⟩

/-- Bytes are written; later two are received, an encode fails halfway, and a byte is popped. -/
theorem reset_as_good_as_empty_after_use :
    let later : List (Nat × BenchCall 4) := [(0, .station (.call (.receive (Call.transport [1, 2] (.ok 2))))),
      (0, .station (.call (.encodeArray (.scalar .u16) [1, 2, 3]))), (0, .station (.call .state))]
    let bench := ((Bench.fresh 4 1).run [(0, .station (.call (.encodeBytes [7, 8, 9])))]).2
    let handles := (runHandles [none] [(0, .create), (0, .encode .u8 (.to [7]))]).2
    let used := (Buffer.empty 2).append [7]
    let pop : Action Unit (Nat × Buffer 2) _ := ask (Call.popBytes [0]).step
    let sealing : Action Unit (Handle × Nat) _ := HandleCall.ask .sealed
    ((bench.put 0 (bench.buffer 0).reset).run later).1 = ((bench.put 0 (.empty 4)).run later).1 ∧
      (pop (3, used.reset)).Alike (Beside Nat Buffer.Visible) (pop (3, .empty 2)) ∧
      (runHandles (stepHandle handles 0 .reset).2 [(0, .sealed), (0, .decode .u8 (.to [0]))]).1 =
        (runHandles (stepHandle handles 0 .create).2 [(0, .sealed), (0, .decode .u8 (.to [0]))]).1 ∧
      (sealing (Handle.create.reset.handle, 3)).Alike (fun s t => Option.Rel Buffer.Visible s.1 t.1 ∧ s.2 = t.2)
        (sealing (Handle.create, 3)) ∧
      (Call.state.step ((Call.seek 1).step used.reset).state).result ≠
        (Call.state.step ((Call.seek 1).step (Buffer.empty 2)).state).result ∧
      Call.storage.Tells used.reset (.empty 2) ∧
      (Plan.sparing (0 : Fin 2)).ReportsWritten ∧
      (Call.receive (Plan.sparing (0 : Fin 2)).fill).Tells used.reset (.empty 2) := by
  intro later bench handles used pop sealing
  obtain ⟨hruns, hprograms, hhandles, hcallers, hexposed, htold⟩ := reset_as_good_as_empty
  obtain ⟨hstorage, hplans⟩ := htold 2 used 0 (by decide)
  refine ⟨hruns 4 1 _ later 0 ?_, hprograms 2 _ (.call (.popBytes [0]) trivial) 3 used,
    hhandles 1 _ _ 0 ((Buffer.empty 256).append [7]) rfl, hcallers _ (.call _) 3 (.empty 256),
    hexposed 2 used 0 (by decide) (by decide) _ (List.mem_cons_self ..), hstorage,
    hplans (by decide) _ (.tail _ (.head _))⟩
  simp only [later, List.forall_mem_cons, List.not_mem_nil, false_implies, implies_true, and_true]
  exact ⟨honest_transport fun _ h => Nat.le_of_eq (Except.ok.inj h).symm, trivial, trivial⟩

/-- **What was reported need not be new.** Fillings that report no more bytes than they write bring
an old byte back. -/
theorem not_reset_as_good_as_empty :
    let bench := ((Bench.fresh 4 1).run [(0, .station (.call (.encodeBytes [7, 8, 9, 6])))]).2
    ∀ plan ∈ Plan.disclosing (2 : Fin 4), plan.ReportsWritten ∧
      let calls : List (Nat × BenchCall 4) :=
        [(0, .station (.call (.receive plan.fill))), (0, .station (.call .state))]
      ((bench.put 0 (bench.buffer 0).reset).run calls).1 ≠ ((bench.put 0 (.empty 4)).run calls).1 := by
  intro bench plan hplan
  have hold : (bench.buffer 0).storage.get 2 ≠ 0 := by decide
  obtain ⟨hreports, htells⟩ := Plan.disclosed hold (by decide) plan hplan
  exact ⟨hreports, Bench.reports_ne htells⟩

end Marshal
