import Marshal.Proofs.ReaderBounds
import Marshal.Session.Buffers

/-!
# Relations between buffers that calls keep

A congruence is kept by the dozen primitive calls. All other calls are put
together from these, so a congruence is kept by each of them, whatever the
format or the coder, and by every program of calls. It is a family of
relations: `atomically` goes back to a cursor that the encoder may have left
behind, and the index says up to where two buffers must agree for that.
-/

namespace Marshal

open Marshal.Action Session

variable {N : Nat} {ι ε κ α : Type}

namespace Buffer

structure Congruence (R : ι → Buffer N → Buffer N → Prop) : Prop where
  cursor_eq : ∀ {i b c}, R i b c → b.cursor = c.cursor
  used_eq : ∀ {i b c}, R i b c → b.used = c.used
  written_eq : ∀ {i b c}, R i b c → b.written = c.written
  message_eq : ∀ {i b c}, R i b c → b.message = c.message
  reset : ∀ {i b c}, R i b c → R i b.reset c.reset
  sealed : ∀ {i b c}, R i b c → R i b.sealed c.sealed
  load : ∀ i bytes, Sim (R i) (load bytes) (load bytes)
  encodeBytes : ∀ i bytes, Sim (R i) (encodeBytes bytes) (encodeBytes bytes)
  encodeText : ∀ i text, Sim (R i) (encodeText text) (encodeText text)
  popBytes : ∀ i length, Sim (R i) (popBytes length) (popBytes length)
  read : ∀ i {α : Type} {d : Action Error Reader α}, (∀ bytes, Keeps (Reader.Inside bytes) d) →
    Sim (R i) (read d) (read d)
  atomically : ∀ {ε α : Type} {a : Action ε (Buffer N) α}, (∀ i, Sim (R i) a a) →
    ∀ i, Sim (R i) (atomically a) (atomically a)

namespace Congruence

variable {R : ι → Buffer N → Buffer N → Prop} (hR : Congruence R) {i : ι}

include hR

theorem remaining_eq {b c : Buffer N} (h : R i b c) : b.remaining = c.remaining := by
  rw [remaining, remaining, hR.cursor_eq h]

theorem unread_eq {b c : Buffer N} (h : R i b c) : b.unread = c.unread := by
  rw [unread, unread, hR.cursor_eq h, hR.used_eq h]

theorem reader_eq {b c : Buffer N} (h : R i b c) : b.reader = c.reader := by
  rw [reader, reader, hR.message_eq h, hR.cursor_eq h, hR.used_eq h]

/-! ## Formats -/

theorem encodeLeaf (l : Leaf) (x : l.Value) : Sim (R i) (l.encode x) (l.encode x) := by
  cases l with
  | scalar t => exact hR.encodeBytes i _
  | text => exact hR.encodeText i _
  | cstring => exact hR.encodeBytes i _
  | messageId => exact hR.encodeBytes i _
  | boundedText limit => exact hR.encodeText i _

theorem encodeFormat (f : Format) (x : f.Value) : Sim (R i) (f.encode x) (f.encode x) := by
  induction f with
  | leaf l => exact hR.encodeLeaf l x
  | array f n ih => exact ((Sim.codeEach ih x.toList).mapError _).bind fun _ => Sim.pure _
  | nothing => exact Sim.pure _
  | pair f g ihf ihg => exact (ihf x.1).bind fun _ => ihg x.2

theorem decodeFormat (f : Format) : Sim (R i) (decode f) (decode f) := hR.read i fun _ => f.keeps_decode

theorem popScalar (t : ScalarType) : Sim (R i) (popScalar t) (popScalar t) :=
  (hR.popBytes i t.width).bind fun _ => Sim.pure _

/-! ## Coders and pieces -/

omit hR in
theorem budgeted {code : α → Action Error (Buffer N) Unit} (h : ∀ x, Sim (R i) (code x) (code x)) (x : α) :
    Sim (Beside Nat (R i)) (Coder.budgeted code x) (Coder.budgeted code x) := by
  refine (Sim.view fun _ _ h => h.1).bind fun budget => ?_
  split
  · exact Sim.fail _
  · exact (Sim.update fun _ _ h => ⟨congrArg (· - 1) h.1, h.2⟩).bind fun _ => ((h x).mapError _).onSnd

omit hR in
theorem refusing (refuse : α → Bool) {code : α → Action Error (Buffer N) Unit}
    (h : ∀ x, Sim (R i) (code x) (code x)) (x : α) :
    Sim (Beside Nat (R i)) (Coder.refusing refuse code x) (Coder.refusing refuse code x) := by
  refine (Sim.update fun _ _ h => ⟨congrArg (· + 1) h.1, h.2⟩).bind fun _ => ?_
  split
  · exact Sim.fail _
  · exact ((h x).mapError _).onSnd

omit hR in
theorem encodeCounting {coder : α → Action CoderError (Nat × Buffer N) Unit}
    (h : ∀ x, Sim (Beside Nat (R i)) (coder x) (coder x)) (start : Nat) (xs : List α) (extra : Nat → Extra) :
    Step.Sim (R i) (Call.encodeCounting coder start xs extra) (Call.encodeCounting coder start xs extra) := by
  intro b c hbc
  obtain ⟨r, ⟨k, b'⟩, ⟨k', c'⟩, l, hb, hc, hk, hs⟩ :=
    (Sim.codeEach h xs (start, b) (start, c) ⟨rfl, hbc⟩).exists_eq
  cases hk
  rw [Call.encodeCounting, Call.encodeCounting, hb, hc]
  exact ⟨rfl, rfl, rfl, hs⟩

theorem encodePieces (region : List UInt8) (count size : Nat) :
    Step.Sim (R i) (Call.encodePieces region count size) (Call.encodePieces region count size) := by
  intro b c hbc
  obtain ⟨r, b', c', l, hb, hc, hs⟩ := (Sim.elements region count size b c hbc).exists_eq
  rw [Call.encodePieces, Call.encodePieces, hb, hc]
  cases r with
  | error e => exact ⟨rfl, rfl, rfl, hs⟩
  | ok pieces => exact Step.Sim.ofOutcome _ _ (Sim.codeEach (hR.encodeBytes i) pieces) b' c' hs

omit hR in
theorem fillPieces {size : Nat} (hread : Sim (R i) (Buffer.decodeBytes size) (Buffer.decodeBytes size))
    (region : List UInt8) (count : Nat) :
    Step.Sim (R i) (Call.fillPieces region count size) (Call.fillPieces region count size) := by
  intro b c hbc
  obtain ⟨r, b', c', l, hb, hc, hs⟩ := (Sim.elements region count size b c hbc).exists_eq
  rw [Call.fillPieces, Call.fillPieces, hb, hc]
  cases r with
  | error e => exact ⟨rfl, rfl, rfl, hs⟩
  | ok pieces =>
    obtain ⟨r, ⟨b'', v⟩, ⟨c'', w⟩, l, hb, hc, hs, hv⟩ := (hread.fillSlots ⟨b', pieces.toArray.toVector⟩
      ⟨c', pieces.toArray.toVector⟩ ⟨hs, rfl⟩).exists_eq
    cases hv
    dsimp only [Buffer.decodePieces]
    rw [hb, hc]
    exact ⟨rfl, rfl, rfl, hs⟩

end Congruence

end Buffer

/-! ## All calls -/

/-- The calls that see of the storage only what was written or is used, and keep the cursor off the
rest. -/
def Session.Call.Plain : Call N → Prop
  | .receive _ | .storage | .seek _ | .restore _ => False
  | _ => True

namespace Buffer

namespace Congruence

variable {R : ι → Buffer N → Buffer N → Prop} (hR : Congruence R)

include hR

theorem step_sim (i : ι) {c : Call N} (hc : c.Plain) : Step.Sim (R i) c.step c.step := by
  cases c with
  | receive | storage | seek | restore => exact hc.elim
  | reset => exact .ofUpdate fun _ _ => hR.reset
  | sealed => exact .ofUpdate fun _ _ => hR.sealed
  | load bytes => exact .ofCall _ (hR.load i bytes)
  | state =>
    refine .ofView fun b c h => ?_
    rw [hR.remaining_eq h, hR.unread_eq h, hR.written_eq h, hR.message_eq h]
  | describe pretty =>
    refine .ofView fun b c h => ?_
    rw [describe, describe, hR.cursor_eq h, hR.used_eq h]
  | encodeBytes bytes => exact .ofCall _ (hR.encodeBytes i bytes)
  | encode x => exact .ofCall _ (hR.encodeFormat x.format x.value)
  | encodeWhole x => exact .ofCall _ (hR.atomically (fun _ => hR.encodeFormat x.format x.value) i)
  | encodeList f xs => exact .ofCall _ (hR.encodeFormat (.array f xs.length) _)
  | encodeArray f xs => exact .ofOutcome _ _ (Sim.codeEach (hR.encodeFormat f) xs)
  | encodeBudgeted f xs budget => exact encodeCounting (budgeted (hR.encodeFormat f)) budget xs fun _ => .none
  | encodeRefusing f xs refused => exact encodeCounting (refusing _ (hR.encodeFormat f)) 0 xs _
  | encodeRegion region count size => exact hR.encodePieces region count size
  | fetch q => exact q.step_sim fun d hd => hR.read i hd
  | slots f count => exact .ofSlots f count (hR.decodeFormat f)
  | fillRegion region count size => exact fillPieces (hR.read i fun _ => Reader.keeps_decodeBytes size) region count
  | popBytes out => exact .ofCopy out (hR.popBytes i out.length)
  | popScalar t => exact .ofCall _ (hR.popScalar t)

end Congruence

/-- Programs that touch a buffer by `allowed` calls, decodes, and encoders made in the same way. -/
inductive Program (allowed : Call N → Prop) : ∀ {κ ε α : Type}, Action ε (κ × Buffer N) α → Prop
  | pure {κ ε α : Type} (x : α) : Program allowed (pure x : Action ε (κ × Buffer N) α)
  | fail {κ ε α : Type} (e : ε) : Program allowed (Action.fail e : Action ε (κ × Buffer N) α)
  | memory {κ ε α : Type} (a : Action ε κ α) : Program allowed a.onFst
  /-- Looks at the cursor, the used count, the written bytes, the message or a reader of it. -/
  | look {κ ε α : Type} (f : Nat → Nat → List UInt8 → List UInt8 → Reader → α) :
      Program allowed (Action.view fun s => f s.2.cursor s.2.used s.2.written s.2.message s.2.reader :
        Action ε (κ × Buffer N) α)
  | call {κ ε : Type} (c : Call N) : allowed c →
      Program allowed (ask c.step : Action ε (κ × Buffer N) (Except Fault Answer × Extra))
  | read {κ μ ε α : Type} {d : Action Error (μ × Reader) α} (memory : μ) : Reader.Program d →
      Program allowed ((read (d.within memory)).attempt.onSnd : Action ε (κ × Buffer N) (Except Error α))
  | atomically {κ μ δ ε α : Type} {a : Action δ (μ × Buffer N) α} (memory : μ) : Program allowed a →
      Program allowed ((atomically (a.within memory)).attempt.onSnd : Action ε (κ × Buffer N) (Except δ α))
  | bind {κ ε α β : Type} {a : Action ε (κ × Buffer N) α} {f : α → Action ε (κ × Buffer N) β} :
      Program allowed a → (∀ x, Program allowed (f x)) → Program allowed (a >>= f)
  | codeEach {κ ε α : Type} {coder : α → Action ε (κ × Buffer N) Unit} (xs : List α) :
      (∀ x, Program allowed (coder x)) → Program allowed (codeEach coder xs)

theorem Program.sim {R : ι → Buffer N → Buffer N → Prop} {allowed : Call N → Prop}
    (hlook : ∀ {i b c}, R i b c → b.cursor = c.cursor ∧ b.used = c.used ∧ b.written = c.written ∧
      b.message = c.message ∧ b.reader = c.reader)
    (hread : ∀ i {α : Type} {d : Action Error Reader α}, (∀ bytes, Keeps (Reader.Inside bytes) d) →
      Sim (R i) (Buffer.read d) (Buffer.read d))
    (hatomically : ∀ {ε α : Type} {a : Action ε (Buffer N) α}, (∀ i, Sim (R i) a a) →
      ∀ i, Sim (R i) (Buffer.atomically a) (Buffer.atomically a))
    (hcall : ∀ c, allowed c → ∀ i, Step.Sim (R i) c.step c.step) {a : Action ε (κ × Buffer N) α}
    (h : Program allowed a) : ∀ i, Sim (Beside κ (R i)) a a := by
  induction h with
  | pure x => exact fun _ => Sim.pure x
  | fail e => exact fun _ => Sim.fail e
  | memory a => exact fun _ => Sim.onFst a
  | look f =>
    refine fun i => Sim.view fun s t h => ?_
    obtain ⟨hcursor, hused, hwritten, hmessage, hreader⟩ := hlook h.2
    rw [hcursor, hused, hwritten, hmessage, hreader]
  | call c hc => exact fun i => (hcall c hc i).ask
  | read memory hd => exact fun i => (hread i fun _ => hd.keeps_within memory).attempt.onSnd
  | atomically memory _ ih => exact fun i => (hatomically (fun j => (ih j).within memory) i).attempt.onSnd
  | bind _ _ iha ihf => exact fun i => (iha i).bind fun x => ihf x i
  | codeEach xs _ ih => exact fun i => Sim.codeEach (fun x => ih x i) xs

theorem Congruence.program_sim {R : ι → Buffer N → Buffer N → Prop} (hR : Congruence R) {allowed : Call N → Prop}
    (hcall : ∀ c, allowed c → ∀ i, Step.Sim (R i) c.step c.step) {a : Action ε (κ × Buffer N) α}
    (h : Program allowed a) : ∀ i, Sim (Beside κ (R i)) a a :=
  h.sim (fun hbc => ⟨hR.cursor_eq hbc, hR.used_eq hbc, hR.written_eq hbc, hR.message_eq hbc, hR.reader_eq hbc⟩)
    hR.read hR.atomically hcall

theorem Program.keeps {P : Buffer N → Prop} {allowed : Call N → Prop}
    (hread : ∀ {α : Type} {d : Action Error Reader α}, (∀ bytes, Keeps (Reader.Inside bytes) d) → Keeps P (Buffer.read d))
    (hatomically : ∀ {ε α : Type} {a : Action ε (Buffer N) α}, Keeps P a → Keeps P (Buffer.atomically a))
    (hcall : ∀ c, allowed c → Step.Keeps P c.step) {a : Action ε (κ × Buffer N) α} (h : Program allowed a) :
    Keeps (fun s => P s.2) a := by
  rintro ⟨memory, b⟩ hb
  have hsim := h.sim (R := fun _ : Unit => Both P) (fun hbc => by rw [hbc.1]; exact ⟨rfl, rfl, rfl, rfl, rfl⟩)
    (fun _ {_ _} hd => keeps_iff_sim.mp (hread hd))
    (fun ha _ => keeps_iff_sim.mp (hatomically (keeps_iff_sim.mpr (ha ()))))
    (fun c hc _ => Step.keeps_iff_sim.mp (hcall c hc)) ()
  exact (hsim (memory, b) (memory, b) ⟨rfl, rfl, hb⟩).state.2.2

end Buffer

end Marshal
