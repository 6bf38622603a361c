import Marshal.Proofs.Reading
import Marshal.Proofs.Steps
import Marshal.Session.Readers

/-!
# Readers stay within their bytes

`Inside bytes r`: the reader `r` stands somewhere in `bytes`, ends included.
Every call keeps this: a decode takes what is left at most, and a seek beyond
the end is refused. So does every program made of such calls, and every
session.
-/

namespace Marshal

open Marshal.Action

variable {ε κ α β : Type} {bytes : List UInt8}

namespace Reader

def Inside (bytes : List UInt8) (r : Reader) : Prop := r.bytes = bytes ∧ r.position ≤ bytes.length

theorem Inside.moveTo {r : Reader} (h : r.Inside bytes) {position : Nat} (hp : position ≤ bytes.length) :
    (r.moveTo position).Inside bytes := ⟨h.1, hp⟩

theorem Inside.moveTo_add {r : Reader} (h : r.Inside bytes) {length : Nat} (hl : length ≤ r.unread) :
    (r.moveTo (r.position + length)).Inside bytes := by
  refine h.moveTo ?_
  have hp := h.2
  rw [unread, h.1] at hl
  omega

theorem Inside.valid {r : Reader} (h : r.Inside bytes) : r.Valid := by
  obtain ⟨rfl, hp⟩ := h
  exact hp

/-! ## Each call -/

theorem keeps_seek (position : Nat) : Keeps (Inside bytes) (seek position) := by
  intro r hr
  show ((if r.bytes.length < position then Action.fail (.invalidPosition position r.bytes.length)
    else Action.update (moveTo position) : Action Error Reader Unit) r).state.Inside bytes
  split
  · exact hr
  · next h => exact hr.moveTo (by rw [← hr.1]; omega)

theorem keeps_decodeBytes (length : Nat) : Keeps (Inside bytes) (decodeBytes length) := by
  intro r hr
  rw [decodeBytes_apply]
  split
  · exact hr
  · exact hr.moveTo_add (by omega)

theorem keeps_decodeCString : Keeps (Inside bytes) decodeCString := by
  intro r hr
  rw [decodeCString_apply]
  split
  · exact hr
  · next h =>
    have hle : (CString.upToNul r.rest).bytes.length ≤ r.rest.length :=
      (List.takeWhile_sublist _).length_le
    refine hr.moveTo_add ?_
    rw [CString.width, ← length_rest]
    omega

theorem keeps_decodeText : Keeps (Inside bytes) decodeText := by
  intro r hr
  have hc := keeps_decodeCString r hr
  rw [decodeText_apply]
  rcases hd : decodeCString r with ⟨_ | s, r', log⟩
  · rw [hd] at hc
    exact hc
  · rw [hd] at hc
    dsimp only
    split
    · exact hc
    · exact hc.moveTo hr.2

theorem keeps_decodeBoundedText (limit : Nat) : Keeps (Inside bytes) (decodeBoundedText limit) := by
  intro r hr
  have ht := keeps_decodeText r hr
  rw [decodeBoundedText_apply]
  rcases hd : decodeText r with ⟨_ | text, r', log⟩
  · rw [hd] at ht
    exact ht
  · rw [hd] at ht
    dsimp only
    split
    · exact ht
    · exact ht.moveTo hr.2

end Reader

open Reader

theorem Leaf.decode_sim (l : Leaf) : Sim (Both (Inside bytes)) l.decode l.decode := by
  cases l with
  | scalar t => exact (keeps_iff_sim.mp (keeps_decodeBytes t.width)).bind fun _ => Sim.pure _
  | text => exact keeps_iff_sim.mp keeps_decodeText
  | cstring => exact keeps_iff_sim.mp keeps_decodeCString
  | messageId =>
    have h : Sim (Both (Inside bytes)) (decodeBytes (ScalarType.width .u32))
        (decodeBytes (ScalarType.width .u32)) := keeps_iff_sim.mp (keeps_decodeBytes _)
    exact (h.bind fun _ => Sim.pure _).bind fun _ => Sim.pure _
  | boundedText limit => exact keeps_iff_sim.mp (keeps_decodeBoundedText limit)

theorem Format.decode_sim (f : Format) : Sim (Both (Inside bytes)) f.decode f.decode := by
  induction f with
  | leaf l => exact l.decode_sim
  | array f n ih => exact ih.decodeArray f.blank n
  | nothing => exact Sim.pure _
  | pair f g ihf ihg => exact ihf.bind fun _ => ihg.bind fun _ => Sim.pure _

theorem Format.keeps_decode (f : Format) : Keeps (Inside bytes) f.decode := keeps_iff_sim.mpr f.decode_sim

namespace Session

theorem Fetch.sim_of_each {σ τ : Type} {R : σ → τ → Prop}
    {run : {α : Type} → Action Error Reader α → Action Error σ α}
    {run' : {α : Type} → Action Error Reader α → Action Error τ α}
    (hbytes : ∀ length, Sim R (run (decodeBytes length)) (run' (decodeBytes length)))
    (hcstring : Sim R (run decodeCString) (run' decodeCString))
    (hitem : ∀ f : Format, Sim R (run f.decode) (run' f.decode)) (q : Fetch) :
    Step.Sim R (q.step run) (q.step run') := by
  cases q with
  | bytes out => exact .ofCopy out (hbytes out.length)
  | cstring => exact .ofCall _ hcstring
  | item f => exact .ofCall _ (hitem f)

theorem Fetch.step_sim {σ τ : Type} {R : σ → τ → Prop}
    {run : {α : Type} → Action Error Reader α → Action Error σ α}
    {run' : {α : Type} → Action Error Reader α → Action Error τ α}
    (h : ∀ {α : Type} (d : Action Error Reader α), (∀ bytes, Keeps (Inside bytes) d) → Sim R (run d) (run' d))
    (q : Fetch) : Step.Sim R (q.step run) (q.step run') :=
  q.sim_of_each (fun _ => h _ fun _ => keeps_decodeBytes _) (h _ fun _ => keeps_decodeCString)
    fun f => h _ fun _ => f.keeps_decode

theorem ReaderCall.keeps_step (c : ReaderCall) : Step.Keeps (Inside bytes) c.step := by
  rw [Step.keeps_iff_sim]
  cases c with
  | state => exact .ofView fun _ _ h => by rw [h.1]
  | describe => exact .ofView fun _ _ h => by rw [h.1]
  | seek position => exact .ofCall _ (keeps_iff_sim.mp (keeps_seek position))
  | slice length => exact .ofCall _ (keeps_iff_sim.mp (keeps_decodeBytes length))
  | fetch q => exact q.step_sim fun d hd => keeps_iff_sim.mp (hd bytes)
  | slots f count => exact .ofSlots f count f.decode_sim

end Session

/-! ## Programs and sessions -/

/-- Programs that touch a reader by its calls only: they move it, but put no other in its place. -/
inductive Reader.Program : ∀ {κ ε α : Type}, Action ε (κ × Reader) α → Prop
  | pure {κ ε α : Type} (x : α) : Program (pure x : Action ε (κ × Reader) α)
  | fail {κ ε α : Type} (e : ε) : Program (Action.fail e : Action ε (κ × Reader) α)
  | memory {κ ε α : Type} (a : Action ε κ α) : Program a.onFst
  | look {κ ε α : Type} (f : Reader → α) : Program (Action.view fun s => f s.2 : Action ε (κ × Reader) α)
  | call {κ ε : Type} (c : Session.ReaderCall) :
      Program (Session.ask c.step : Action ε (κ × Reader) (Except Session.Fault Session.Answer × Session.Extra))
  | bind {κ ε α β : Type} {a : Action ε (κ × Reader) α} {f : α → Action ε (κ × Reader) β} :
      Program a → (∀ x, Program (f x)) → Program (a >>= f)
  | codeEach {κ ε α : Type} {coder : α → Action ε (κ × Reader) Unit} (xs : List α) :
      (∀ x, Program (coder x)) → Program (codeEach coder xs)

theorem Reader.Program.sim {a : Action ε (κ × Reader) α} (h : Program a) :
    Sim (Beside κ (Both (Inside bytes))) a a := by
  induction h with
  | pure x => exact Sim.pure x
  | fail e => exact Sim.fail e
  | memory a => exact Sim.onFst a
  | look f => exact Sim.view fun _ _ h => by rw [h.2.1]
  | call c => exact (Session.Step.keeps_iff_sim.mp c.keeps_step).ask
  | bind _ _ iha ihf => exact iha.bind ihf
  | codeEach xs _ ih => exact Sim.codeEach ih xs

theorem Reader.Program.keeps_within {a : Action ε (κ × Reader) α} (h : Program a) (memory : κ) :
    Keeps (Inside bytes) (a.within memory) := keeps_iff_sim.mpr (h.sim.within memory)

namespace Session

theorem stepReaders_valid {readers : List Reader} (h : ∀ r ∈ readers, r.Valid) (index : Nat) (c : ReadersCall) :
    ∀ r ∈ (stepReaders readers index c).2, r.Valid := by
  have hget : (readers[index]?.getD (.ofBytes [])).Valid := by
    cases hr : readers[index]? with
    | none => exact Nat.zero_le 0
    | some r => exact h r (List.mem_of_getElem? hr)
  intro r hr
  cases c with
  | fork =>
    rcases List.mem_append.mp hr with hr | hr
    · exact h r hr
    · rw [List.mem_singleton.mp hr]
      exact hget
  | call c =>
    rcases List.mem_or_eq_of_mem_set hr with hr | rfl
    · exact h r hr
    · have hinside : (readers[index]?.getD (.ofBytes [])).Inside _ := ⟨rfl, hget⟩
      exact (c.keeps_step _ hinside).valid

theorem runReaders_valid {readers : List Reader} (h : ∀ r ∈ readers, r.Valid) (calls : List (Nat × ReadersCall)) :
    ∀ r ∈ (runReaders readers calls).2, r.Valid := by
  induction calls generalizing readers with
  | nil => exact h
  | cons call rest ih => exact ih (stepReaders_valid h call.1 call.2)

end Session

end Marshal
