import Marshal.Proofs.BufferCalls
import Marshal.Proofs.PartialReads
import Marshal.Proofs.ReaderBounds

/-!
# Decoding on a buffer is decoding on a reader

A decode that only moves forward does on a buffer what it does on a reader of
the buffer's message, but that a failure is taken back (`undoing`): same value
or failure, and the cursor moves by as many bytes as the reader does. With the
cursor past the used count the reader has nothing left, and the cursor stays.
-/

namespace Marshal

open Marshal.Action Session

variable {N : Nat} {ε α β : Type}

/-! ## Moving forward -/

namespace Reader

/-- A decode that ends, if it succeeds, behind some of the bytes left. -/
def Onward (d : Action Error Reader α) : Prop :=
  ∀ r x, (d r).result = .ok x → ∃ k ≤ r.unread, (d r).state = r.moveTo (r.position + k)

theorem onward_decodeBytes (length : Nat) : Onward (decodeBytes length) := by
  intro r x h
  rw [decodeBytes_apply] at h ⊢
  by_cases hu : r.unread < length
  · rw [if_pos hu] at h; cases h
  · rw [if_neg hu]
    exact ⟨length, Nat.le_of_not_lt hu, rfl⟩

end Reader

theorem Format.onward_decode (f : Format) : Reader.Onward f.decode := by
  intro r x h
  obtain ⟨taken, rest, hr, hw⟩ := wire_of_decode h
  refine ⟨taken.length, ?_, (decode_of_wire hw hr).2⟩
  rw [← Reader.length_rest, hr, List.length_append]
  omega

theorem Reader.onward_decodeCString : Onward decodeCString := (Format.leaf .cstring).onward_decode

/-! ## One decode -/

namespace Buffer

theorem unread_reader_le (b : Buffer N) : b.reader.unread ≤ b.used - b.cursor := by
  have hl : b.message.length ≤ b.used := List.length_take_le _ _
  show b.message.length - min b.cursor b.used ≤ b.used - b.cursor
  omega

theorem reader_moveCursor {b : Buffer N} {k : Nat} (h : k ≤ b.reader.unread) :
    ({ b with cursor := b.cursor + k } : Buffer N).reader = b.reader.moveTo (b.reader.position + k) := by
  have := b.unread_reader_le
  have hp : min (b.cursor + k) b.used = min b.cursor b.used + k := by omega
  exact congrArg (Reader.mk b.message) hp

theorem read_of_onward {d : Action Error Reader α} (hd : Reader.Onward d) {b : Buffer N} {x : α}
    (h : (d b.reader).result = .ok x) :
    ∃ k ≤ b.reader.unread, (d b.reader).state = b.reader.moveTo (b.reader.position + k) ∧
      read d b = ⟨.ok x, { b with cursor := b.cursor + k }, (d b.reader).log⟩ := by
  obtain ⟨k, hk, hs⟩ := hd b.reader x h
  refine ⟨k, hk, hs, ?_⟩
  have hu := b.unread_reader_le
  rw [read_apply]
  rcases hr : d b.reader with ⟨e | y, r, log⟩
  · rw [hr] at h; cases h
  · rw [hr] at h hs
    cases h
    cases hs
    dsimp only
    congr 1
    by_cases hz : k = 0
    · rw [if_neg (by rw [hz]; exact Nat.lt_irrefl _), hz]
      rfl
    · -- bytes are left, so the reader starts at the cursor
      have hp : b.reader.position = b.cursor := Nat.min_eq_left (by omega)
      rw [hp, if_pos (by show _ < _ + k; omega)]

end Buffer

def Buffer.At (b : Buffer N) (r : Reader) : Prop := b.reader = r

theorem Buffer.sim_read_undoing {d : Action Error Reader α} (hd : Reader.Onward d) :
    Sim (At (N := N)) (read d) (undoing d) := by
  rintro b r rfl
  cases hr : (d b.reader).result with
  | error e =>
    rw [read_of_error hr, undoing_of_error hr]
    exact ⟨rfl, rfl, rfl⟩
  | ok x =>
    obtain ⟨k, hk, hs, hread⟩ := read_of_onward hd hr
    rw [hread, undoing_of_ok hr]
    refine ⟨hr.symm, rfl, ?_⟩
    rw [hs]
    exact reader_moveCursor hk

theorem Session.Fetch.sim_read_undoing (q : Fetch) :
    Step.Sim (Buffer.At (N := N)) (q.step Buffer.read) (q.step undoing) :=
  q.sim_of_each (fun length => Buffer.sim_read_undoing (Reader.onward_decodeBytes length))
    (Buffer.sim_read_undoing Reader.onward_decodeCString) fun f => Buffer.sim_read_undoing f.onward_decode

/-! ## With nothing left to read -/

def Session.Fetch.TakesBytes : Fetch → Prop
  | .bytes out => 0 < out.length
  | .cstring => True
  | .item f => ∀ x : f.Value, 0 < f.width x

theorem Leaf.decode_of_rest_nil {l : Leaf} {r : Reader} (h : r.rest = []) :
    ∃ k, 0 < k ∧ (l.decode r).result = .error (.underflow k 0) := by
  have hu : r.unread = 0 := by rw [← Reader.length_rest, h, List.length_nil]
  have hshort : l.Short r := by
    cases l with
    | scalar t =>
      show r.unread < t.width
      rw [hu]
      exact t.width_pos
    | messageId =>
      show r.unread < 4
      omega
    | text | cstring | boundedText =>
      show 0 ∉ r.rest
      simp [h]
  rw [← hu]
  exact decode_of_short hshort

theorem Takes.rest_nil {r r' : Reader} {ps : List Part} (h : Takes r ps r') (hr : r.rest = []) : r'.rest = [] := by
  rw [h.eq_moveTo]
  rw [Reader.rest, List.drop_eq_nil_iff] at hr ⊢
  exact Nat.le_trans hr (Nat.le_add_right _ _)

theorem Format.decode_of_rest_nil {f : Format} {r : Reader} (hr : r.rest = []) (hf : ∀ x : f.Value, 0 < f.width x) :
    ∃ k, 0 < k ∧ (f.decode r).result = .error (.underflow k 0) := by
  cases hd : (f.decode r).result with
  | ok x =>
    obtain ⟨taken, rest, hrest, hw⟩ := wire_of_decode hd
    rw [hr] at hrest
    have ht : taken = [] := (List.append_eq_nil_iff.mp hrest.symm).1
    have hl : taken.length = f.width x := hw.length_eq
    rw [ht, List.length_nil] at hl
    exact absurd (hf x) (by omega)
  | error e =>
    obtain ⟨ps, l, after, -, ht, he⟩ := decode_eq_error_iff.mp ⟨hd, rfl⟩
    obtain ⟨k, hk, hl⟩ := l.decode_of_rest_nil (ht.rest_nil hr)
    rw [hl] at he
    cases he
    exact ⟨k, hk, rfl⟩

theorem Buffer.rest_reader_of_lt {b : Buffer N} (h : b.used < b.cursor) : b.reader.rest = [] := by
  have := b.unread_reader_le
  rw [← List.length_eq_zero_iff, Reader.length_rest]
  omega

namespace Session.Fetch

theorem exists_decode (q : Fetch) : ∃ (α : Type) (d : Action Error Reader α) (answer : α → Answer),
    Reader.Onward d ∧ ∀ {σ : Type} (run : {α : Type} → Action Error Reader α → Action Error σ α) (s : σ),
      (q.step run s).result = ((run d s).result.mapError .error).map answer ∧
        (q.step run s).state = (run d s).state := by
  cases q with
  | bytes out => exact ⟨_, _, fun _ => .done, Reader.onward_decodeBytes out.length, fun _ _ => ⟨rfl, rfl⟩⟩
  | cstring => exact ⟨_, _, .cstring, Reader.onward_decodeCString, fun _ _ => ⟨rfl, rfl⟩⟩
  | item f => exact ⟨_, _, fun x => .item ⟨f, x⟩, f.onward_decode, fun _ _ => ⟨rfl, rfl⟩⟩

theorem step_read (q : Fetch) (b : Buffer N) :
    (∀ a, (q.step Buffer.read b).result = .ok a → ∃ k ≤ b.reader.unread,
      (q.step undoing b.reader).state = b.reader.moveTo (b.reader.position + k) ∧
        (q.step Buffer.read b).state = { b with cursor := b.cursor + k }) ∧
    (∀ e, (q.step Buffer.read b).result = .error e →
      (q.step undoing b.reader).state = b.reader ∧ (q.step Buffer.read b).state = b) := by
  obtain ⟨α, d, answer, hd, hstep⟩ := q.exists_decode
  obtain ⟨hres, hst⟩ := hstep Buffer.read b
  rw [hres, hst, (hstep undoing b.reader).2]
  cases hr : (d b.reader).result with
  | error e =>
    rw [Buffer.read_of_error hr, undoing_of_error hr]
    exact ⟨nofun, fun _ _ => ⟨rfl, rfl⟩⟩
  | ok x =>
    obtain ⟨k, hk, hs, hread⟩ := Buffer.read_of_onward hd hr
    rw [hread, undoing_of_ok hr]
    exact ⟨fun _ _ => ⟨k, hk, hs, rfl⟩, nofun⟩

theorem step_of_lt (q : Fetch) {b : Buffer N} (h : b.used < b.cursor) :
    (q.step undoing b.reader).state = b.reader ∧ (q.step Buffer.read b).state = b := by
  obtain ⟨hok, herror⟩ := q.step_read b
  cases hr : (q.step Buffer.read b).result with
  | error e => exact herror e hr
  | ok a =>
    obtain ⟨k, hk, hs, hread⟩ := hok a hr
    have hz : k = 0 := by
      have := b.unread_reader_le
      omega
    rw [hs, hread, hz]
    exact ⟨rfl, rfl⟩

theorem step_of_takesBytes {q : Fetch} (hq : q.TakesBytes) {b : Buffer N} (h : b.used < b.cursor) :
    ∃ k, 0 < k ∧ (q.step Buffer.read b).result = .error (.error (.underflow k 0)) := by
  have hrest := Buffer.rest_reader_of_lt h
  have hu : b.reader.unread = 0 := by rw [← Reader.length_rest, hrest, List.length_nil]
  cases q with
  | bytes out =>
    have hlt : b.reader.unread < out.length := by rw [hu]; exact hq
    refine ⟨out.length, hq, ?_⟩
    have hr : (Reader.decodeBytes out.length b.reader).result = .error (.underflow out.length 0) := by
      rw [Reader.decodeBytes_of_lt hlt, Reader.underflow, hu]
    show (((Buffer.read (Reader.decodeBytes out.length) b).result.mapError Fault.error).map _) = _
    rw [Buffer.read_of_error hr]
    rfl
  | cstring =>
    obtain ⟨k, hk, hr⟩ := Leaf.decode_of_rest_nil (l := .cstring) hrest
    refine ⟨k, hk, ?_⟩
    show (((Buffer.read (Leaf.cstring).decode b).result.mapError Fault.error).map _) = _
    rw [Buffer.read_of_error hr]
    rfl
  | item f =>
    obtain ⟨k, hk, hr⟩ := Format.decode_of_rest_nil hrest hq
    refine ⟨k, hk, ?_⟩
    show (((Buffer.read f.decode b).result.mapError Fault.error).map _) = _
    rw [Buffer.read_of_error hr]
    rfl

end Session.Fetch

/-- **Buffers decode as readers do.** Every run of decodes on a buffer shows what it shows on a
reader of the message that goes back after a failure. With the cursor past the used count, nothing
ever changes. -/
theorem buffer_decodes_as_reader :
    (∀ (N : Nat) (b : Buffer N) (calls : List Fetch),
      trace (Fetch.step Buffer.read) Buffer.reader calls b = trace (Fetch.step undoing) id calls b.reader) ∧
    (∀ (N : Nat) (b : Buffer N) (q : Fetch),
      (∀ a, (q.step Buffer.read b).result = .ok a → ∃ k ≤ b.reader.unread,
        (q.step undoing b.reader).state = b.reader.moveTo (b.reader.position + k) ∧
          (q.step Buffer.read b).state = { b with cursor := b.cursor + k }) ∧
      (∀ e, (q.step Buffer.read b).result = .error e →
        (q.step undoing b.reader).state = b.reader ∧ (q.step Buffer.read b).state = b)) ∧
    (∀ (N : Nat) (b : Buffer N), b.used < b.cursor →
      (∀ calls, ∀ seen ∈ trace (Fetch.step Buffer.read) id calls b, seen.2.2 = b) ∧
      ∀ q : Fetch, (q.step undoing b.reader).state = b.reader ∧ (q.step Buffer.read b).state = b ∧
        (q.TakesBytes → ∃ k, 0 < k ∧ (q.step Buffer.read b).result = .error (.error (.underflow k 0)))) ∧
    (∀ (N : Nat) {α : Type} (d : Action Error Reader α), Reader.Onward d →
      Sim (Buffer.At (N := N)) (Buffer.read d) (undoing d) ∧
        ∀ n, Sim (Sim.Filled (n := n) (Buffer.At (N := N))) (fillSlots (Buffer.read d)) (fillSlots (undoing d))) := by
  refine ⟨fun N b calls => ?_, fun N b q => q.step_read b, fun N b h => ⟨fun calls seen hm => ?_, fun q => ?_⟩,
    fun N α d hd => ?_⟩
  · exact trace_eq (R := Buffer.At) (fun q _ => q.sim_read_undoing.refines) (fun _ _ h => h) rfl
  · exact view_of_mem_trace id (fun q : Fetch => (q.step_of_lt h).2) hm
  · exact ⟨(q.step_of_lt h).1, (q.step_of_lt h).2, fun hq => Fetch.step_of_takesBytes hq h⟩
  · exact ⟨Buffer.sim_read_undoing hd, fun n => (Buffer.sim_read_undoing hd).fillSlots⟩

/-- Past the used count neither a text nor two bytes can be read. -/
theorem buffer_decodes_as_reader_past_used :
    let b : Buffer 4 := ⟨#v[7, 0, 104, 0], 0, 3⟩
    let c : Buffer 4 := { b with cursor := 4 }
    let number := Fetch.item (.scalar .u16)
    let text := Fetch.item (.leaf .text)
    (∃ k ≤ b.reader.unread, (number.step undoing b.reader).state = b.reader.moveTo (b.reader.position + k) ∧
      (number.step Buffer.read b).state = { b with cursor := b.cursor + k }) ∧
    (∀ seen ∈ trace (Fetch.step Buffer.read) id [text, number] c, seen.2.2 = c) ∧
    (∃ k, 0 < k ∧ (text.step Buffer.read c).result = .error (.error (.underflow k 0))) ∧
    (text.step Buffer.read c).state = c ∧
    (Buffer.read (Reader.decodeBytes 2) c).result = (undoing (Reader.decodeBytes 2) c.reader).result := by
  intro b c number text
  obtain ⟨-, hstep, hpast, hsim⟩ := buffer_decodes_as_reader
  obtain ⟨hseen, hfails⟩ := hpast 4 c (by decide)
  obtain ⟨-, hstays, hunderflow⟩ := hfails text
  exact ⟨(hstep 4 b number).1 _ rfl, hseen _, hunderflow fun _ => Nat.succ_pos _, hstays,
    ((hsim 4 _ (Reader.onward_decodeBytes 2)).1 c c.reader rfl).result_eq⟩

end Marshal
