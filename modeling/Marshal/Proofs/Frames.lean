import Marshal.Proofs.BufferCalls
import Marshal.Proofs.Congruence
import Marshal.Proofs.PartialWrites
import Marshal.Proofs.Regions

/-!
# What a call may change

An encode of any kind changes the bytes from the cursor on that its leaves take,
up to the first leaf that is refused, whether it takes the cursor back or not.
Loading and receiving bring bytes from outside. No other call changes a byte of
the storage, and besides these two only a reset and a seal set the used count.
-/

namespace Marshal

open Marshal.Action Session

variable {N : Nat} {ε δ σ κ α : Type}

/-! ## What is written before an encode stops -/

/-- The images that are written where `room` bytes are left: those before the first refused form. -/
def fitting : Nat → List (Option (List UInt8)) → List (List UInt8)
  | _, [] | _, none :: _ => []
  | room, some image :: forms => if image.length ≤ room then image :: fitting (room - image.length) forms else []

theorem forM_encodeForm_state (forms : List (Option (List UInt8))) (b : Buffer N) :
    (forM forms Buffer.encodeForm b).state = b.append (fitting b.remaining forms).flatten := by
  induction forms generalizing b with
  | nil => rfl
  | cons form forms ih =>
    rw [List.forM_cons]
    rcases form with _ | image
    · rfl
    · by_cases h : image.length ≤ b.remaining
      · have hfirst : Buffer.encodeForm (some image) b = ⟨.ok (), b.append image, []⟩ := Buffer.encodeBytes_of_le h
        rw [(bind_of_ok (congrArg Outcome.result hfirst)).2, hfirst, ih, Buffer.remaining_append, Buffer.append_append,
          fitting, if_pos h, List.flatten_cons]
      · have hfirst : Buffer.encodeForm (some image) b = ⟨.error (.overflow image.length b.remaining), b,
            [.bytesOverflow b.cursor image.length b.remaining]⟩ := if_pos (Nat.lt_of_not_le h)
        rw [(bind_of_error (congrArg Outcome.result hfirst)).2, hfirst, fitting, if_neg h]
        rfl

namespace Format

def forms (f : Format) (xs : List f.Value) : List (Option (List UInt8)) := (xs.flatMap f.parts).map Part.form

theorem forM_encode_state (f : Format) (xs : List f.Value) (b : Buffer N) :
    (forM xs f.encode b).state = b.append (fitting b.remaining (f.forms xs)).flatten := by
  have hall : Agree (forM xs (f.encode : f.Value → Action Error (Buffer N) Unit))
      (forM xs fun x => forM ((f.parts x).map Part.form) Buffer.encodeForm) := Agree.forM f.encode_agree_forms
  rw [(hall b).2, ← forM_flatMap, forM_encodeForm_state, forms, List.map_flatMap]

theorem encode_state (f : Format) (x : f.Value) (b : Buffer N) :
    (f.encode x b).state = b.append (fitting b.remaining (f.forms [x])).flatten := by
  rw [(f.encode_agree_forms x b).2, forM_encodeForm_state, forms, List.flatMap_singleton]

end Format

/-! ## Coders that stop early -/

namespace Coder

theorem budgeted_succ (code : α → Action Error σ Unit) (x : α) (budget : Nat) (s : σ) :
    budgeted code x (budget + 1, s) =
      ⟨(code x s).result.mapError .budgeted, (budget, (code x s).state), (code x s).log⟩ := by
  show ((code x).mapError CoderError.budgeted).onSnd (budget, s) = _
  rw [onSnd, Action.mapError]
  rcases code x s with ⟨_ | _, _, _⟩ <;> rfl

theorem refusing_of_not {refuse : α → Bool} (code : α → Action Error σ Unit) {x : α} (h : refuse x = false)
    (calls : Nat) (s : σ) : refusing refuse code x (calls, s) =
      ⟨(code x s).result.mapError .named, (calls + 1, (code x s).state), (code x s).log⟩ := by
  rw [refusing, bind_apply, h]
  show ((code x).mapError CoderError.named).onSnd (calls + 1, s) = _
  rw [onSnd, Action.mapError]
  rcases code x s with ⟨_ | _, _, _⟩ <;> rfl

theorem bind_state_of_passed {c : Action ε σ Unit} {a : Action δ (κ × σ) Unit} {wrap : ε → δ} {k k' : κ} {s : σ}
    {log : List Record} (h : a (k, s) = ⟨(c s).result.mapError wrap, (k', (c s).state), log⟩)
    {f : Unit → Action δ (κ × σ) Unit} {g : Unit → Action ε σ Unit} (hrest : ∀ t, (f () (k', t)).state.2 = (g () t).state) :
    ((a >>= f) (k, s)).state.2 = ((c >>= g) s).state := by
  rw [bind_apply, bind_apply, h]
  rcases c s with ⟨_ | _, t, log⟩
  · rfl
  · exact hrest t

theorem forM_budgeted_state (code : α → Action Error σ Unit) (xs : List α) (budget : Nat) (s : σ) :
    (forM xs (budgeted code) (budget, s)).state.2 = (forM (xs.take budget) code s).state := by
  induction xs generalizing budget s with
  | nil => rw [List.take_nil]; rfl
  | cons x xs ih =>
    cases budget with
    | zero => rfl
    | succ budget =>
      rw [List.take_succ_cons, List.forM_cons, List.forM_cons]
      exact bind_state_of_passed (budgeted_succ code x budget s) fun t => ih budget t

theorem forM_refusing_state (refuse : α → Bool) (code : α → Action Error σ Unit) (xs : List α) (calls : Nat) (s : σ) :
    (forM xs (refusing refuse code) (calls, s)).state.2 = (forM (xs.takeWhile fun x => !refuse x) code s).state := by
  induction xs generalizing calls s with
  | nil => rfl
  | cons x xs ih =>
    cases h : refuse x with
    | true =>
      rw [List.takeWhile_cons_of_neg (by simp [h]), List.forM_cons, refusing, if_pos h]
      rfl
    | false =>
      rw [List.takeWhile_cons_of_pos (by simp [h]), List.forM_cons, List.forM_cons]
      exact bind_state_of_passed (refusing_of_not code h calls s) fun t => ih (calls + 1) t

end Coder

/-! ## Calls -/

namespace Session.Call

def Encodes : Call N → Prop
  | encodeBytes _ | encode _ | encodeWhole _ | encodeList .. | encodeArray .. | encodeBudgeted .. | encodeRefusing ..
  | encodeRegion .. => True
  | _ => False

def Fills : Call N → Prop
  | load _ | receive _ => True
  | _ => False

def SetsUsed : Call N → Prop
  | reset | sealed | load _ | receive _ => True
  | _ => False

def Reads (c : Call N) : Prop := ¬ c.Encodes ∧ ¬ c.Fills

def forms : Call N → List (Option (List UInt8))
  | encodeBytes bytes => [some bytes]
  | encode x | encodeWhole x => x.format.forms [x.value]
  | encodeList f xs | encodeArray f xs => f.forms xs
  | encodeBudgeted f xs budget => f.forms (xs.take budget)
  | encodeRefusing f xs refused => f.forms (xs.takeWhile fun x => !(some x == refused))
  | encodeRegion region count size =>
    if size = 0 ∨ count * size ≠ region.length then [] else (Region.chunks size count region).map some
  | _ => []

def wrote (c : Call N) (b : Buffer N) : List UInt8 := (fitting b.remaining c.forms).flatten

end Session.Call

namespace Buffer

structure SameContent (b c : Buffer N) : Prop where
  storage_eq : c.storage = b.storage
  used_eq : c.used = b.used

theorem SameContent.refl (b : Buffer N) : SameContent b b := ⟨rfl, rfl⟩

theorem SameContent.trans {b c d : Buffer N} (h : SameContent b c) (h' : SameContent c d) : SameContent b d :=
  ⟨h'.storage_eq.trans h.storage_eq, h'.used_eq.trans h.used_eq⟩

theorem SameContent.of_eq {b c : Buffer N} (h : c = b) : SameContent b c := by
  rw [h]
  exact .refl b

theorem encodeBytes_state (bytes : List UInt8) (b : Buffer N) :
    (encodeBytes bytes b).state = b.append (fitting b.remaining [some bytes]).flatten := by
  by_cases h : bytes.length ≤ b.remaining
  · simp [encodeBytes_of_le h, fitting, h]
  · simp [encodeBytes, Nat.lt_of_not_le h, fitting, h, append_nil]

theorem encodePieces_state (pieces : List (List UInt8)) (b : Buffer N) :
    (encodePieces pieces b).state = b.append (fitting b.remaining (pieces.map some)).flatten := by
  rw [encodePieces, codeEach_state, ← forM_encodeForm_state, List.forM_map]
  rfl

theorem encodeArray_state (f : Format) (xs : List f.Value) (b : Buffer N) :
    (encodeArray f xs b).state = b.append (fitting b.remaining (f.forms xs)).flatten := by
  rw [encodeArray, codeEach_state, f.forM_encode_state]

theorem sameContent_seek (position : Nat) (b : Buffer N) : SameContent b (seek position b).state := by
  unfold seek
  split <;> exact ⟨rfl, rfl⟩

theorem sameContent_read (d : Action Error Reader α) (b : Buffer N) : SameContent b (read d b).state := by
  rw [read_apply]
  rcases d b.reader with ⟨_ | x, r, log⟩
  · exact .refl b
  · dsimp only
    split <;> exact ⟨rfl, rfl⟩

theorem sameContent_popBytes (length : Nat) (b : Buffer N) : SameContent b (popBytes length b).state := by
  unfold popBytes
  split <;> exact ⟨rfl, rfl⟩

theorem sameContent_atomically (a : Action ε (Buffer N) α) (b : Buffer N) :
    SameContent (a b).state (atomically a b).state := by
  unfold atomically
  rcases a b with ⟨_ | x, c, log⟩ <;> exact ⟨rfl, rfl⟩

theorem used_load (bytes : List UInt8) (b : Buffer N) :
    (load bytes b).state.used = b.used ∨ ∃ x, (load bytes b).result = .ok x := by
  unfold load
  split
  · exact .inl rfl
  · exact .inr ⟨(), rfl⟩

theorem used_receive (fill : Vector UInt8 N → Except ε Nat × Vector UInt8 N) (b : Buffer N) :
    (receive fill b).state.used = b.used ∨ ∃ n, (receive fill b).result = .ok n := by
  unfold receive
  dsimp only
  rcases fill b.storage with ⟨_ | reported, storage⟩
  · exact .inl rfl
  · exact .inr ⟨_, rfl⟩

theorem keeps_sameContent {b : Buffer N} {a : Action ε (Buffer N) α} (h : ∀ c, SameContent c (a c).state) :
    Keeps (SameContent b) a := fun c hc => hc.trans (h c)

end Buffer

namespace Session.Call

theorem encodeRegion_state (region : List UInt8) (count size : Nat) (b : Buffer N) :
    ((encodeRegion region count size).step b).state = b.append ((encodeRegion region count size).wrote b) := by
  show (encodePieces region count size b).state = _
  by_cases h : Region.Fits region count size
  · have hforms : (encodeRegion region count size : Call N).forms = (Region.chunks size count region).map some :=
      if_neg fun hn => Region.not_fits_iff.mpr hn h
    rw [encodePieces, Region.elements_of_fits h, wrote, hforms]
    exact Buffer.encodePieces_state _ b
  · have hforms : (encodeRegion region count size : Call N).forms = [] := if_pos (Region.not_fits_iff.mp h)
    rw [encodePieces, Region.elements_of_misfit h, wrote, hforms]
    rfl

theorem sameContent_step {c : Call N} (h : ¬ c.SetsUsed) (b : Buffer N) :
    (b.append (c.wrote b)).SameContent (c.step b).state := by
  -- the calls that decode are put together from `read`, so its invariant is theirs
  have hread : ∀ {α : Type} (d : Action Error Reader α), Sim (Both b.SameContent) (Buffer.read d) (Buffer.read d) :=
    fun d => keeps_iff_sim.mp (Buffer.keeps_sameContent (Buffer.sameContent_read d))
  cases c with
  | reset | sealed | load | receive => exact (h trivial).elim
  | state | storage | describe => exact .refl b
  | seek position => exact Buffer.sameContent_seek position b
  | restore saved => exact Buffer.sameContent_seek saved.position b
  | encodeBytes bytes => exact .of_eq (Buffer.encodeBytes_state bytes b)
  | encode x => exact .of_eq (x.format.encode_state x.value b)
  | encodeWhole x =>
    have hwrote : (b.append ((encodeWhole x).wrote b)) = (Buffer.encode x b).state :=
      (x.format.encode_state x.value b).symm
    rw [hwrote]
    exact Buffer.sameContent_atomically (Buffer.encode x) b
  | encodeList f xs =>
    have hforms : (Format.array f xs.length).forms [⟨xs.toArray, rfl⟩] = f.forms xs := by
      simp [Format.forms, Format.parts]
    refine .of_eq (((Format.array f xs.length).encode_state _ b).trans ?_)
    rw [hforms]
    rfl
  | encodeArray f xs => exact .of_eq (Buffer.encodeArray_state f xs b)
  | encodeBudgeted f xs budget =>
    refine .of_eq ?_
    show (codeEach (Coder.budgeted f.encode) xs (budget, b)).state.2 = _
    rw [codeEach_state, Coder.forM_budgeted_state, f.forM_encode_state]
    rfl
  | encodeRefusing f xs refused =>
    refine .of_eq ?_
    show (codeEach (Coder.refusing _ f.encode) xs (0, b)).state.2 = _
    rw [codeEach_state, Coder.forM_refusing_state, f.forM_encode_state]
    rfl
  | encodeRegion region count size => exact .of_eq (encodeRegion_state region count size b)
  | fetch q => exact Step.keeps_iff_sim.mpr (q.step_sim fun d _ => hread d) b (.refl b)
  | slots f count => exact Step.keeps_iff_sim.mpr (.ofSlots f count (hread f.decode)) b (.refl b)
  | fillRegion region count size =>
    have hfill := Buffer.Congruence.fillPieces (R := fun _ : Unit => Both b.SameContent) (i := ())
      (hread (Reader.decodeBytes size)) region count
    exact Step.keeps_iff_sim.mpr hfill b (.refl b)
  | popBytes out => exact Buffer.sameContent_popBytes out.length b
  | popScalar t =>
    have hpop : Sim (Both b.SameContent) (Buffer.popBytes t.width) (Buffer.popBytes t.width) :=
      keeps_iff_sim.mp (Buffer.keeps_sameContent (Buffer.sameContent_popBytes t.width))
    exact keeps_iff_sim.mpr (hpop.bind fun _ => Sim.pure _) b (.refl b)

theorem storage_of_reads {c : Call N} (h : c.Reads) (b : Buffer N) : (c.step b).state.storage = b.storage := by
  cases c with
  | encodeBytes | encode | encodeWhole | encodeList | encodeArray | encodeBudgeted | encodeRefusing | encodeRegion =>
    exact (h.1 trivial).elim
  | load | receive => exact (h.2 trivial).elim
  | reset | sealed => rfl
  | _ => exact (sameContent_step id b).storage_eq

theorem content_of_reads {c : Call N} (h : c.Reads ∧ ¬ c.SetsUsed) (b : Buffer N) :
    b.SameContent (c.step b).state :=
  ⟨storage_of_reads h.1 b, (sameContent_step h.2 b).used_eq⟩

theorem storage_of_encodes {c : Call N} (h : c.Encodes) (b : Buffer N) :
    (c.step b).state.storage = overwrite b.storage b.cursor (c.wrote b) := by
  refine (sameContent_step (fun hset => ?_) b).storage_eq
  cases c <;> first | exact h | exact hset

theorem used_changed {c : Call N} {b : Buffer N} (h : (c.step b).state.used ≠ b.used) :
    c.SetsUsed ∧ ∃ a, (c.step b).result = .ok a := by
  by_cases hc : c.SetsUsed
  · refine ⟨hc, ?_⟩
    cases c with
    | reset | sealed => exact ⟨_, rfl⟩
    | load bytes =>
      obtain ⟨x, hx⟩ := (Buffer.used_load bytes b).resolve_left h
      exact ⟨_, congrArg (fun r => (r.mapError Fault.error).map fun _ => Answer.done) hx⟩
    | receive fill =>
      obtain ⟨n, hn⟩ := (Buffer.used_receive fill b).resolve_left h
      exact ⟨_, congrArg (fun r => (r.mapError Fault.transport).map Answer.number) hn⟩
    | _ => exact hc.elim
  · exact absurd (sameContent_step hc b).used_eq h

end Session.Call

namespace Buffer

def SameOutside (start length : Nat) (b c : Buffer N) : Prop :=
  ∀ i, i < start ∨ start + length ≤ i → c.storage[i]? = b.storage[i]?

theorem sameOutside_of_overwrite {b c : Buffer N} {start : Nat} {bytes : List UInt8}
    (h : c.storage = overwrite b.storage start bytes) : SameOutside start bytes.length b c := by
  intro i hi
  rw [h, getElem?_overwrite, if_neg (by omega)]

theorem sameOutside_load (bytes : List UInt8) (b : Buffer N) :
    SameOutside 0 bytes.length b (load bytes b).state := by
  unfold load
  split
  · exact fun _ _ => rfl
  · exact sameOutside_of_overwrite rfl

end Buffer

theorem Session.StationCall.sameContent_step {c : StationCall N} (h : ∀ call, c ≠ .call call) (station : Station N) :
    station.buffer.SameContent (c.step station).station.buffer := by
  obtain ⟨b, saved⟩ := station
  cases c with
  | call c => exact (h c rfl).elim
  | checkpoint | save | readers => exact .refl b
  | restoreSaved index =>
    simp only [step]
    cases saved[index]? with
    | none => exact .refl b
    | some old => exact Buffer.sameContent_seek old.position b

end Marshal
