import Marshal.Proofs.StringReads

/-!
# Reading a message text by text

`drain` decodes one text after another until a decode fails. A text takes at
least its terminator, so what is left gets shorter with every call and the loop
ends. It reads the pieces between the NULs of the message up to the first that
is no UTF-8, and what it has read says where it stands.
-/

namespace Marshal

open Marshal.Action

variable {N : Nat}

structure Drained (N : Nat) where
  texts : List String
  error : Error
  buffer : Buffer N

/-- Decodes texts until one fails, if it takes no more than so many calls. -/
def Buffer.drain : Nat → Buffer N → Option (Drained N)
  | 0, _ => none
  | calls + 1, b =>
    match decodeText b with
    | ⟨.ok text, b, _⟩ => (drain calls b).map fun d => { d with texts := text :: d.texts }
    | ⟨.error e, b, _⟩ => some ⟨[], e, b⟩

/-- The pieces that end with a NUL, without it. -/
def terminated (bytes : List UInt8) : List (List UInt8) := (bytes.splitOn 0).dropLast

theorem terminated_of_not_mem {bytes : List UInt8} (h : 0 ∉ bytes) : terminated bytes = [] := by
  rw [terminated, List.splitOn_eq_singleton h]
  rfl

theorem terminated_image_append (s : CString) (rest : List UInt8) :
    terminated (s.image ++ rest) = s.bytes :: terminated rest := by
  rw [terminated, s.image_append, List.splitOn_append_cons_self_of_not_mem s.nul_free,
    List.dropLast_cons_of_ne_nil (List.splitOn_ne_nil 0 rest)]
  rfl

def textImages (texts : List String) : List UInt8 := texts.flatMap fun text => utf8 text ++ [0]

theorem length_le_textImages (texts : List String) : texts.length ≤ (textImages texts).length := by
  induction texts with
  | nil => exact Nat.le_refl 0
  | cons text texts ih =>
    rw [textImages, List.flatMap_cons, List.length_append, List.length_append, List.length_singleton, List.length_cons]
    rw [textImages] at ih
    omega

structure Drained.Of (b : Buffer N) (left : List UInt8) (d : Drained N) : Prop where
  texts_eq : d.texts.map utf8 = (terminated left).takeWhile fun s => WellFormed s
  buffer_eq : d.buffer = { b with cursor := b.cursor + (textImages d.texts).length }
  behind : ∃ behind, left = textImages d.texts ++ behind ∧
    (d.error = .invalidUtf8 ∧ 0 ∈ behind ∨ d.error = .underflow (behind.length + 1) behind.length ∧ 0 ∉ behind)

namespace Buffer

/-- The loop ends with `d`, after one call more than it reads texts. -/
def DrainsTo (b : Buffer N) (d : Drained N) : Prop :=
  ∀ calls, drain calls b = if d.texts.length < calls then some d else none

/-! ## One call -/

theorem decodeText_of_not_mem {b : Buffer N} (h : 0 ∉ b.reader.rest) :
    (decodeText b).result = .error (.underflow (b.reader.rest.length + 1) b.reader.rest.length) ∧
      (decodeText b).state = b := by
  have hr := Reader.decodeText_of_not_mem h
  have hd : (Reader.decodeText b.reader).result =
      .error (.underflow (b.reader.rest.length + 1) b.reader.rest.length) := by
    rw [hr, Reader.length_rest]
    rfl
  rw [decodeText, read_of_error hd]
  exact ⟨rfl, rfl⟩

theorem decodeText_of_malformed {b : Buffer N} {s : CString} {rest : List UInt8}
    (h : b.reader.rest = s.image ++ rest) (hs : ¬ WellFormed s.bytes) :
    (decodeText b).result = .error .invalidUtf8 ∧ (decodeText b).state = b := by
  have hd := congrArg Outcome.result (Reader.decodeText_of_malformed h hs)
  rw [decodeText, read_of_error hd]
  exact ⟨rfl, rfl⟩

theorem decodeText_of_text {b : Buffer N} {s : CString} {rest : List UInt8} {text : String}
    (h : b.reader.rest = s.image ++ rest) (ht : utf8 text = s.bytes) :
    let c : Buffer N := { b with cursor := b.cursor + s.width }
    (decodeText b).result = .ok text ∧ (decodeText b).state = c ∧ c.reader.rest = rest := by
  have hd := Reader.decodeText_of_text h ht
  obtain ⟨k, hk, hs, hread⟩ := read_of_onward (Format.leaf .text).onward_decode (congrArg Outcome.result hd)
  have hplace : b.reader.position + k = b.reader.position + s.width :=
    congrArg Reader.position (hs.symm.trans (congrArg Outcome.state hd))
  obtain rfl : k = s.width := Nat.add_left_cancel hplace
  intro c
  have hread' : decodeText b = ⟨.ok text, c, _⟩ := hread
  have hmoved : c.reader = b.reader.moveTo (b.reader.position + s.image.length) := by
    rw [s.length_image]
    exact reader_moveCursor hk
  rw [hread', hmoved]
  exact ⟨rfl, rfl, b.reader.rest_moveTo_add h⟩

theorem drainsTo_of_error {b : Buffer N} {e : Error} (hr : (decodeText b).result = .error e)
    (hs : (decodeText b).state = b) : b.DrainsTo ⟨[], e, b⟩ := by
  intro calls
  cases calls with
  | zero => rfl
  | succ calls =>
    rw [drain]
    rcases hd : decodeText b with ⟨e' | text, c, log⟩
    · rw [hd] at hr hs
      cases hr
      cases hs
      rfl
    · rw [hd] at hr
      cases hr

theorem drainsTo_of_ok {b c : Buffer N} {text : String} {d : Drained N} (hr : (decodeText b).result = .ok text)
    (hs : (decodeText b).state = c) (hd : c.DrainsTo d) : b.DrainsTo { d with texts := text :: d.texts } := by
  intro calls
  cases calls with
  | zero => rfl
  | succ calls =>
    rw [drain]
    rcases ht : decodeText b with ⟨e | text', c', log⟩
    · rw [ht] at hr
      cases hr
    · rw [ht] at hr hs
      cases hr
      cases hs
      simp only [hd calls, List.length_cons, Nat.add_lt_add_iff_right]
      split <;> rfl

/-! ## The loop -/

/-- Every text that is read leaves less to read. -/
theorem exists_drainsTo (b : Buffer N) (left : List UInt8) (h : b.reader.rest = left) :
    ∃ d : Drained N, b.DrainsTo d ∧ d.Of b left := by
  by_cases hm : 0 ∈ left
  · obtain ⟨s, rest, hs⟩ := CString.exists_of_mem hm
    rw [hs] at h
    by_cases hw : WellFormed s.bytes
    · obtain ⟨text, ht⟩ := wellFormed_iff.mp hw
      obtain ⟨hr, hst, hrest⟩ := decodeText_of_text h ht
      have hshorter : rest.length < left.length := by
        rw [hs, List.length_append, s.length_image, CString.width]
        omega
      obtain ⟨d, hd, hof⟩ := exists_drainsTo _ rest hrest
      obtain ⟨htexts, hbuffer, behind, hbehind, herror⟩ := hof
      have himages : textImages (text :: d.texts) = s.image ++ textImages d.texts := by
        rw [textImages, List.flatMap_cons, ht]
        rfl
      refine ⟨_, drainsTo_of_ok hr hst hd, ?_, ?_, behind, ?_, herror⟩
      · rw [hs, terminated_image_append, List.takeWhile_cons_of_pos (by simpa using hw), ← htexts, List.map_cons, ht]
      · rw [hbuffer, himages, List.length_append, s.length_image, Nat.add_assoc]
      · rw [hs, himages, hbehind, List.append_assoc]
    · obtain ⟨hr, hst⟩ := decodeText_of_malformed h hw
      refine ⟨_, drainsTo_of_error hr hst, ?_, rfl, left, rfl, .inl ⟨rfl, hm⟩⟩
      rw [hs, terminated_image_append, List.takeWhile_cons_of_neg (by simpa using hw)]
      rfl
  · rw [← h] at hm
    obtain ⟨hr, hst⟩ := decodeText_of_not_mem hm
    rw [← h]
    refine ⟨_, drainsTo_of_error hr hst, ?_, rfl, b.reader.rest, rfl, .inr ⟨rfl, hm⟩⟩
    rw [terminated_of_not_mem hm]
    rfl
termination_by left.length

end Buffer

/-- **A message is drained text by text.** The loop that decodes texts until one fails ends after
one call more than it reads texts. It reads the terminated pieces as long as they are well-formed,
and the failure tells whether one follows. -/
theorem message_drained_text_by_text {m : List UInt8} (h : m.length ≤ N) (b : Buffer N) :
    let loaded := (Buffer.load m b).state
    (Buffer.load m b).result = .ok () ∧ ∃ d : Drained N, d.texts.length + 1 ≤ m.length + 1 ∧
      (∀ calls, loaded.drain calls = if d.texts.length + 1 ≤ calls then some d else none) ∧
      d.texts.map utf8 = ((m.splitOn 0).dropLast).takeWhile (fun s => WellFormed s) ∧
      m.take d.buffer.cursor = d.texts.flatMap (fun text => utf8 text ++ [0]) ∧
      (d.error = .invalidUtf8 ↔ 0 ∈ m.drop d.buffer.cursor) ∧
      (d.error = .underflow (d.buffer.unread + 1) d.buffer.unread ↔ 0 ∉ m.drop d.buffer.cursor) ∧
      d.buffer.cursor ≤ d.buffer.used ∧ d.buffer.message = m ∧
      d.buffer = { loaded with cursor := d.buffer.cursor } := by
  intro loaded
  have hload := Buffer.load_of_le (b := b) h
  have hloaded : loaded = ⟨overwrite b.storage 0 m, 0, m.length⟩ := congrArg Outcome.state hload
  have hmessage : loaded.message = m := by
    rw [hloaded]
    exact Buffer.message_overwrite b.storage h
  have hrest : loaded.reader.rest = m := by
    rw [Buffer.rest_reader (by rw [hloaded]; exact h), hmessage, hloaded]
    rfl
  obtain ⟨d, hdrains, htexts, hbuffer, behind, hbehind, herror⟩ := loaded.exists_drainsTo m hrest
  have hcursor : d.buffer.cursor = (textImages d.texts).length := by
    rw [hbuffer, hloaded]
    exact Nat.zero_add _
  have hused : d.buffer.used = m.length := by
    rw [hbuffer, hloaded]
  have hlength : m.length = (textImages d.texts).length + behind.length := by
    rw [hbehind, List.length_append]
  have hdrop : m.drop d.buffer.cursor = behind := by
    rw [hcursor, hbehind, List.drop_left]
  have hunread : d.buffer.unread = behind.length := by
    rw [Buffer.unread, hused, hcursor]
    omega
  have hcount := length_le_textImages d.texts
  refine ⟨congrArg Outcome.result hload, d, by omega, hdrains, htexts, ?_, ?_, ?_, by omega, ?_, ?_⟩
  · rw [hcursor]
    conv => lhs; rw [hbehind]
    exact List.take_left
  · rw [hdrop]
    rcases herror with ⟨he, hm⟩ | ⟨he, hm⟩
    · exact ⟨fun _ => hm, fun _ => he⟩
    · rw [he]
      exact ⟨nofun, fun hm' => absurd hm' hm⟩
  · rw [hdrop, hunread]
    rcases herror with ⟨he, hm⟩ | ⟨he, hm⟩
    · rw [he]
      exact ⟨nofun, fun hm' => absurd hm hm'⟩
    · exact ⟨fun _ => hm, fun _ => he⟩
  · rw [← hmessage, hbuffer]
    rfl
  · rw [hcursor, hbuffer, hloaded, Nat.zero_add]

/-- Two texts, one of them empty, and then a surrogate. -/
theorem message_drained_text_by_text_up_to_surrogate :
    let m : List UInt8 := [104, 105, 0, 0, 237, 160, 128, 0, 33]
    let loaded := (Buffer.load m ((Buffer.empty 12).append [7, 7])).state
    ∃ d, loaded.drain 3 = some d ∧ loaded.drain 2 = none ∧ d.texts.map utf8 = [[104, 105], []] ∧
      d.buffer.cursor = 4 ∧ d.error = .invalidUtf8 := by
  intro m loaded
  obtain ⟨-, d, -, hdrains, htexts, htaken, hinvalid, -⟩ :=
    message_drained_text_by_text (N := 12) (m := m) (by decide) ((Buffer.empty 12).append [7, 7])
  have hpieces : d.texts.map utf8 = [[104, 105], []] := htexts.trans (by decide)
  have hcount : d.texts.length = 2 := by rw [← List.length_map (f := utf8), hpieces]; rfl
  have hcursor : d.buffer.cursor = 4 := by
    rw [← List.flatMap_map (f := utf8) (g := (· ++ [0])), hpieces] at htaken
    have hlength := congrArg List.length htaken
    rw [List.length_take] at hlength
    have : min d.buffer.cursor 9 = 4 := hlength
    omega
  refine ⟨d, (hdrains 3).trans (if_pos (by omega)), (hdrains 2).trans (if_neg (by omega)), hpieces, hcursor, ?_⟩
  rw [hinvalid, hcursor]
  decide

end Marshal
