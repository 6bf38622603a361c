import Marshal.Proofs.MachineCalls
import Marshal.Proofs.Regions

/-!
# The steps of a session with machine arithmetic

Every call of a session, on a buffer or on a reader, with machine arithmetic
throughout: if its arguments fit in the address space, it does not end the
program, and shows what the call shows.
-/

namespace Marshal

open Marshal.Action Session

variable {ε σ κ α : Type} {N n : Nat}

def StepRuns (P : σ → Prop) (f : σ → Option (Step σ)) (g : σ → Step σ) : Prop := ∀ s, P s → f s = some (g s)

namespace Checked

def ofOutcome (fault : ε → Fault) (answer : α → Answer) (c : Checked ε σ α) (s : σ) : Option (Step σ) :=
  (c s).map (Step.ofOutcome fault answer)

def ofCopy (out : List UInt8) (c : Checked Error σ (List UInt8)) (s : σ) : Option (Step σ) :=
  (c s).map fun o => Step.ofCopy out (fun _ => o) s

def ofSlots (f : Format) (count : Nat) (c : Checked Error σ f.Value) (s : σ) : Option (Step σ) := do
  let o ← fillSlots (c.bind fun x => Checked.pure (some x)) ⟨s, Vector.replicate count none⟩
  let failure (e : ElementFailure Error) : Fault := .element ⟨e.index, .plain e.source⟩
  return ⟨(o.result.mapError failure).map .number, .slots f o.state.slots.toList, o.state.source, o.log⟩

def fetch (run : {α : Type} → Checked Error Reader α → Checked Error σ α) : Fetch → σ → Option (Step σ)
  | .bytes out => ofCopy out (run (Reader.Checked.decodeBytes out.length))
  | .cstring => ofOutcome .error .cstring (run Reader.Checked.decodeCString)
  | .item f => ofOutcome .error (fun x => .item ⟨f, x⟩) (run (decodeFormat f))

def readerStep : ReaderCall → Reader → Option (Step Reader)
  | .state => fun r => do
    let unread ← Reader.Checked.unread r
    return .ofView (fun r => .reader unread r.isEmpty) r
  | .describe => fun r => some (ReaderCall.describe.step r)
  | .seek position => fun r => some ((ReaderCall.seek position).step r)
  | .slice length => ofOutcome .error .bytes (Reader.Checked.decodeBytes length)
  | .fetch q => fetch id q
  | .slots f count => ofSlots f count (decodeFormat f)

def budgeted (coder : α → Checked Error σ Unit) (x : α) : Checked CoderError (Nat × σ) Unit :=
  (of (.view Prod.fst)).bind fun budget =>
    if budget = 0 then of (.fail .exhausted)
    else (of (.update fun (budget, s) => (budget - 1, s))).bind fun _ => ((coder x).mapError .budgeted).onSnd

def refusing (refuse : α → Bool) (coder : α → Checked Error σ Unit) (x : α) :
    Checked CoderError (Nat × σ) Unit :=
  (of (.update fun (calls, s) => (calls + 1, s))).bind fun _ =>
    if refuse x then of (.fail .refused) else ((coder x).mapError .named).onSnd

def encodeCounting (coder : α → Checked CoderError (Nat × Buffer N) Unit) (start : Nat) (xs : List α)
    (extra : Nat → Extra) (b : Buffer N) : Option (Step (Buffer N)) := do
  let o ← codeEach coder xs (start, b)
  return ⟨(o.result.mapError .element).map .number, extra o.state.1, o.state.2, o.log⟩

def encodePieces (region : List UInt8) (count size : Nat) (b : Buffer N) : Option (Step (Buffer N)) :=
  match elements region count size b with
  | ⟨.error e, b, log⟩ => some ⟨.error (.error e), .none, b, log⟩
  | ⟨.ok pieces, b, _⟩ => ofOutcome Call.elementFault .number (codeEach Buffer.Checked.encodeBytes pieces) b

def fillPieces (region : List UInt8) (count size : Nat) (b : Buffer N) : Option (Step (Buffer N)) :=
  match elements region count size b with
  | ⟨.error e, b, log⟩ => some ⟨.error (.error e), .out region, b, log⟩
  | ⟨.ok pieces, b, _⟩ => do
    let o ← fillSlots (Buffer.Checked.read (Reader.Checked.decodeBytes size)) ⟨b, pieces.toArray.toVector⟩
    return ⟨(o.result.mapError Call.elementFault).map .number, .out o.state.slots.toList.flatten, o.state.source,
      o.log⟩

def step : Call N → Buffer N → Option (Step (Buffer N))
  | .reset => fun b => some (Call.reset.step b)
  | .sealed => fun b => some (Call.sealed.step b)
  | .load bytes => ofOutcome .error (fun _ => .done) (Buffer.Checked.load bytes)
  | .receive fill => fun b => some ((Call.receive fill).step b)
  | .state => fun b => do
    let remaining ← Buffer.Checked.remaining b
    let written ← Buffer.Checked.written b
    let message ← Buffer.Checked.message b
    return .ofView (fun b => .buffer N remaining b.unread written message) b
  | .storage => fun b => some (Call.storage.step b)
  | .describe pretty => fun b => some ((Call.describe pretty).step b)
  | .seek position => fun b => some ((Call.seek position).step b)
  | .restore saved => fun b => some ((Call.restore saved).step b)
  | .encodeBytes bytes => ofOutcome .error (fun _ => .done) (Buffer.Checked.encodeBytes bytes)
  | .encode x => ofOutcome .error (fun _ => .done) (encodeFormat x.format x.value)
  | .encodeWhole x =>
    ofOutcome .error (fun _ => .done) (Buffer.Checked.atomically (encodeFormat x.format x.value))
  | .encodeList f xs =>
    ofOutcome .error (fun _ => .done) (encodeFormat (.array f xs.toArray.size) xs.toArray.toVector)
  | .encodeArray f xs => ofOutcome Call.elementFault .number (codeEach (encodeFormat f) xs)
  | .encodeBudgeted f xs budget => encodeCounting (budgeted (encodeFormat f)) budget xs fun _ => .none
  | .encodeRefusing f xs refused => encodeCounting (refusing (some · == refused) (encodeFormat f)) 0 xs .calls
  | .encodeRegion region count size => encodePieces region count size
  | .fetch q => fetch Buffer.Checked.read q
  | .slots f count => ofSlots f count (Buffer.Checked.read (decodeFormat f))
  | .fillRegion region count size => fillPieces region count size
  | .popBytes out => ofCopy out (Buffer.Checked.popBytes out.length)
  | .popScalar t => ofOutcome .error (fun x => .item ⟨.scalar t, x⟩)
      ((Buffer.Checked.popBytes t.width).bind fun bytes => Checked.pure (t.ofBytes bytes))

end Checked

/-! ## What fits in the address space -/

def Session.Fetch.Sized : Fetch → Prop
  | .item f => f.Sized
  | _ => True

def Session.ReaderCall.Sized : ReaderCall → Prop
  | .fetch q => q.Sized
  | .slots f count => f.Sized ∧ count < 2 ^ 64
  | _ => True

def Session.Call.Sized : Call N → Prop
  | .encode x | .encodeWhole x => x.format.Sized ∧ x.format.Short x.value
  | .encodeList f xs | .encodeArray f xs | .encodeBudgeted f xs _ | .encodeRefusing f xs _ =>
    f.Sized ∧ xs.length < 2 ^ 64 ∧ ∀ x ∈ xs, f.Short x
  | .encodeRegion region _ _ | .fillRegion region _ _ => region.length < 2 ^ 63
  | .fetch q => q.Sized
  | .slots f count => f.Sized ∧ count < 2 ^ 64
  | _ => True

/-! ## No step ends the program -/

namespace StepRuns

variable {P : σ → Prop}

theorem ofOutcome {c : Checked ε σ α} {a : Action ε σ α} (h : Runs P c a) (fault : ε → Fault)
    (answer : α → Answer) :
    StepRuns P (Checked.ofOutcome fault answer c) (fun s => .ofOutcome fault answer (a s)) := by
  intro s hs
  rw [Checked.ofOutcome, (h s hs).1]
  rfl

theorem ofCopy {c : Checked Error σ (List UInt8)} {a : Action Error σ (List UInt8)} (h : Runs P c a)
    (out : List UInt8) : StepRuns P (Checked.ofCopy out c) (.ofCopy out a) := by
  intro s hs
  rw [Checked.ofCopy, (h s hs).1]
  rfl

theorem ofSlots {f : Format} {count : Nat} {c : Checked Error σ f.Value} {a : Action Error σ f.Value}
    (h : Runs P c a) (hcount : count < 2 ^ 64) : StepRuns P (Checked.ofSlots f count c) (.ofSlots f count a) := by
  intro s hs
  have hsome := (h.bind fun x => Runs.pure (some x)).fillSlots hcount ⟨s, Vector.replicate count none⟩ hs
  unfold Checked.ofSlots Step.ofSlots
  rw [hsome.1, map_eq_pure_bind]
  rfl

end StepRuns

theorem Session.Fetch.runs {P : σ → Prop} {run : {α : Type} → Checked Error Reader α → Checked Error σ α}
    {run' : {α : Type} → Action Error Reader α → Action Error σ α} {limit : Nat} (hlimit : limit < 2 ^ 63)
    (h : ∀ {α : Type} {c : Checked Error Reader α} {d : Action Error Reader α},
      (∀ bytes : List UInt8, bytes.length ≤ limit → Runs (Reader.Inside bytes) c d) →
      (∀ bytes, Keeps (Reader.Inside bytes) d) → Runs P (run c) (run' d))
    {q : Fetch} (hq : q.Sized) : StepRuns P (Checked.fetch run q) (q.step run') := by
  cases q with
  | bytes out =>
    refine StepRuns.ofCopy (h (fun bytes hb => ?_) fun _ => Reader.keeps_decodeBytes _) out
    exact Reader.Checked.runs_decodeBytes (by omega) _
  | cstring =>
    refine StepRuns.ofOutcome (h (fun bytes hb => ?_) fun _ => Reader.keeps_decodeCString) _ _
    exact Reader.Checked.runs_decodeCString (by omega)
  | item f =>
    refine StepRuns.ofOutcome (h (fun bytes hb => ?_) fun _ => f.keeps_decode) _ _
    exact Checked.runs_decodeFormat (by omega) hq

theorem Session.ReaderCall.runs {bytes : List UInt8} (hbytes : bytes.length < 2 ^ 63) {c : ReaderCall}
    (hc : c.Sized) : StepRuns (Reader.Inside bytes) (Checked.readerStep c) c.step := by
  cases c with
  | state =>
    intro r hr
    simp only [Checked.readerStep, Reader.Checked.unread_eq hr]
    rfl
  | describe => exact fun _ _ => rfl
  | seek position => exact fun _ _ => rfl
  | slice length => exact .ofOutcome (Reader.Checked.runs_decodeBytes hbytes length) _ _
  | fetch q =>
    cases q with
    | bytes out => exact .ofCopy (Reader.Checked.runs_decodeBytes hbytes _) out
    | cstring => exact .ofOutcome (Reader.Checked.runs_decodeCString hbytes) _ _
    | item f => exact .ofOutcome (Checked.runs_decodeFormat hbytes hc) _ _
  | slots f count => exact .ofSlots (Checked.runs_decodeFormat hbytes hc.1) hc.2

namespace Checked

/-! ## Coders and pieces -/

theorem runs_budgeted {coder : α → Checked Error σ Unit} {code : α → Action Error σ Unit} {P : σ → Prop} {x : α}
    (h : Runs P (coder x) (code x)) :
    Runs (fun s : Nat × σ => P s.2) (budgeted coder x) (Coder.budgeted code x) := by
  refine (Runs.of fun _ hs => hs).bind fun budget => ?_
  split
  · exact Runs.of fun _ hs => hs
  · exact (Runs.of fun _ hs => hs).bind fun _ => (h.mapError _).onSnd

theorem runs_refusing (refuse : α → Bool) {coder : α → Checked Error σ Unit} {code : α → Action Error σ Unit}
    {P : σ → Prop} {x : α} (h : Runs P (coder x) (code x)) :
    Runs (fun s : Nat × σ => P s.2) (refusing refuse coder x) (Coder.refusing refuse code x) := by
  refine (Runs.of fun _ hs => hs).bind fun _ => ?_
  split
  · exact Runs.of fun _ hs => hs
  · exact (h.mapError _).onSnd

theorem runs_encodeCounting {coder : α → Checked CoderError (Nat × Buffer N) Unit}
    {code : α → Action CoderError (Nat × Buffer N) Unit} {xs : List α}
    (h : ∀ x ∈ xs, Runs (fun s => s.2.InBounds) (coder x) (code x)) (hl : xs.length < 2 ^ 64) (start : Nat)
    (extra : Nat → Extra) :
    StepRuns Buffer.InBounds (encodeCounting coder start xs extra) (Call.encodeCounting code start xs extra) := by
  intro b hb
  unfold encodeCounting Call.encodeCounting
  rw [((Runs.codeEach h hl) (start, b) hb).1]
  rfl

theorem elements_cases {region : List UInt8} (h : region.length < 2 ^ 63) (count size : Nat) (s : σ) :
    (∃ e log, (Region.elements region count size : Action Error σ _) s = ⟨.error e, s, log⟩) ∨
      ∃ pieces, (Region.elements region count size : Action Error σ _) s = ⟨.ok pieces, s, []⟩ ∧
        pieces.length < 2 ^ 64 := by
  by_cases hfits : Region.Fits region count size
  · refine .inr ⟨_, Region.elements_of_fits hfits s, ?_⟩
    have hcount := hfits.count_le
    rw [Region.length_chunks]
    omega
  · exact .inl ⟨_, _, Region.elements_of_misfit hfits s⟩

theorem runs_encodePieces (hN : N < 2 ^ 63) {region : List UInt8} (h : region.length < 2 ^ 63)
    (count size : Nat) :
    StepRuns (Buffer.InBounds (N := N)) (encodePieces region count size)
      (Call.encodePieces region count size) := by
  intro b hb
  unfold encodePieces Call.encodePieces
  rw [elements_eq (by omega)]
  rcases elements_cases h count size b with ⟨e, log, he⟩ | ⟨pieces, he, hl⟩
  · rw [he]
  · rw [he]
    exact StepRuns.ofOutcome (Runs.codeEach (fun x _ => Buffer.Checked.runs_encodeBytes hN x) hl) _ _ b hb

theorem runs_fillPieces (hN : N < 2 ^ 63) {region : List UInt8} (h : region.length < 2 ^ 63)
    (count size : Nat) :
    StepRuns (Buffer.InBounds (N := N)) (fillPieces region count size) (Call.fillPieces region count size) := by
  intro b hb
  unfold fillPieces Call.fillPieces
  rw [elements_eq (by omega)]
  rcases elements_cases h count size b with ⟨e, log, he⟩ | ⟨pieces, he, hl⟩
  · rw [he]
  · have hread : Runs (Buffer.InBounds (N := N)) (Buffer.Checked.read (Reader.Checked.decodeBytes size))
        (Buffer.decodeBytes size) :=
      Buffer.Checked.runs_read (fun _ hb => Reader.Checked.runs_decodeBytes (by omega) size)
        fun _ => Reader.keeps_decodeBytes size
    rw [he]
    dsimp only [Buffer.decodePieces]
    rw [(hread.fillSlots hl ⟨b, pieces.toArray.toVector⟩ hb).1]
    rfl

end Checked

/-- **No call ends the program.** On a buffer in bounds, with arguments that fit in the address space,
every call with machine arithmetic is the call. -/
theorem Session.Call.runs (hN : N < 2 ^ 63) {c : Call N} (hc : c.Sized) :
    StepRuns Buffer.InBounds (Checked.step c) c.step := by
  have hread {f : Format} (hf : f.Sized) : Runs (Buffer.InBounds (N := N))
      (Buffer.Checked.read (Checked.decodeFormat f)) (Buffer.decode f) :=
    Buffer.Checked.runs_read (fun _ _ => Checked.runs_decodeFormat (by omega) hf) fun _ => f.keeps_decode
  cases c with
  | reset | sealed | receive | storage | describe | seek | restore => exact fun _ _ => rfl
  | load bytes => exact .ofOutcome (Buffer.Checked.runs_load bytes) _ _
  | state =>
    intro b hb
    simp only [Checked.step, Buffer.Checked.remaining_eq hb, Buffer.Checked.written_eq hb,
      Buffer.Checked.message_eq hb]
    rfl
  | encodeBytes bytes => exact .ofOutcome (Buffer.Checked.runs_encodeBytes hN bytes) _ _
  | encode x => exact .ofOutcome (Checked.runs_encodeFormat hN hc.1 hc.2) _ _
  | encodeWhole x =>
    exact .ofOutcome (Buffer.Checked.runs_atomically (Checked.runs_encodeFormat hN hc.1 hc.2)) _ _
  | encodeList f xs =>
    refine .ofOutcome (Checked.runs_encodeFormat hN (f := .array f xs.length) ⟨hc.1, hc.2.1⟩ fun p hp => ?_) _ _
    obtain ⟨x, hx, hp⟩ := List.mem_flatMap.mp hp
    exact hc.2.2 x hx p hp
  | encodeArray f xs =>
    exact .ofOutcome (Runs.codeEach (fun x hx => Checked.runs_encodeFormat hN hc.1 (hc.2.2 x hx)) hc.2.1) _ _
  | encodeBudgeted f xs budget =>
    exact Checked.runs_encodeCounting (fun x hx =>
      Checked.runs_budgeted (Checked.runs_encodeFormat hN hc.1 (hc.2.2 x hx))) hc.2.1 budget fun _ => .none
  | encodeRefusing f xs refused =>
    exact Checked.runs_encodeCounting (fun x hx =>
      Checked.runs_refusing _ (Checked.runs_encodeFormat hN hc.1 (hc.2.2 x hx))) hc.2.1 0 .calls
  | encodeRegion region count size => exact Checked.runs_encodePieces hN hc count size
  | fetch q => exact q.runs hN (fun h hd => Buffer.Checked.runs_read h hd) hc
  | slots f count => exact .ofSlots (hread hc.1) hc.2
  | fillRegion region count size => exact Checked.runs_fillPieces hN hc count size
  | popBytes out => exact .ofCopy (Buffer.Checked.runs_popBytes out.length) out
  | popScalar t => exact .ofOutcome ((Buffer.Checked.runs_popBytes t.width).bind fun _ => Runs.pure _) _ _

end Marshal
