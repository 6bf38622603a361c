import Marshal.Proofs.BufferReads

/-!
# Which strings a decode accepts

A string ends at the first NUL of the bytes left, a text is a string that is
well-formed UTF-8, and a bounded text is a text that is short enough. Each
decoder asks the one before it, so a missing terminator comes first, then bad
UTF-8, then the bound, and all of them leave the reader where the string
starts. `WellFormed` says what UTF-8 is by the numbers it stands for.
-/

namespace Marshal

open Marshal.Action

variable {N : Nat}

/-! ## UTF-8 -/

/-- The numbers that stand for characters: no surrogates, and nothing above U+10FFFF. -/
def IsScalarValue (n : Nat) : Prop := n < 0xD800 ∨ 0xDFFF < n ∧ n ≤ 0x10FFFF

/-- The base-64 digits of a number, marked as first and as later bytes, in as few bytes as it fits in. -/
def encodeScalarValue (n : Nat) : List UInt8 :=
  if n < 0x80 then
    [.ofNat n]
  else if n < 0x800 then
    [.ofNat (n / 64 + 0xC0), .ofNat (n % 64 + 0x80)]
  else if n < 0x10000 then
    [.ofNat (n / 64 / 64 + 0xE0), .ofNat (n / 64 % 64 + 0x80), .ofNat (n % 64 + 0x80)]
  else
    [.ofNat (n / 64 / 64 / 64 + 0xF0), .ofNat (n / 64 / 64 % 64 + 0x80), .ofNat (n / 64 % 64 + 0x80),
      .ofNat (n % 64 + 0x80)]

/-- The bytes are the encodings of some scalar values in a row. -/
def WellFormed (bytes : List UInt8) : Prop :=
  ∃ values : List Nat, (∀ n ∈ values, IsScalarValue n) ∧ bytes = values.flatMap encodeScalarValue

theorem isScalarValue_toNat (c : Char) : IsScalarValue c.toNat := by
  rcases c.valid with h | ⟨hl, hu⟩
  · exact .inl h
  · exact .inr ⟨hl, Nat.lt_succ_iff.mp hu⟩

theorem exists_char {n : Nat} (h : IsScalarValue n) : ∃ c : Char, c.toNat = n := by
  have hvalid : n.isValidChar := h.imp_right fun ⟨hl, hu⟩ => ⟨hl, Nat.lt_succ_iff.mpr hu⟩
  exact ⟨Char.ofNatAux n hvalid, rfl⟩

theorem exists_chars {values : List Nat} (h : ∀ n ∈ values, IsScalarValue n) :
    ∃ cs : List Char, cs.map Char.toNat = values := by
  induction values with
  | nil => exact ⟨[], rfl⟩
  | cons n values ih =>
    obtain ⟨c, rfl⟩ := exists_char (h n (List.mem_cons_self ..))
    obtain ⟨cs, rfl⟩ := ih fun m hm => h m (List.mem_cons_of_mem _ hm)
    exact ⟨c :: cs, rfl⟩

theorem utf8EncodeChar_eq (c : Char) : String.utf8EncodeChar c = encodeScalarValue c.toNat := by
  have hc : c.toNat ≤ 0x10FFFF := by
    rcases isScalarValue_toNat c with h | h
    · omega
    · exact h.2
  have hn : c.val.toNat = c.toNat := rfl
  have h4096 : c.toNat / 4096 = c.toNat / 64 / 64 := by omega
  have h262144 : c.toNat / 262144 = c.toNat / 64 / 64 / 64 := by omega
  simp only [String.utf8EncodeChar, encodeScalarValue, hn, h4096, h262144]
  by_cases h1 : c.toNat < 0x80
  · rw [if_pos h1, if_pos (by omega)]
  rw [if_neg h1, if_neg (by omega)]
  -- the first byte has room for its digits, so cutting them to size changes nothing
  by_cases h2 : c.toNat < 0x800
  · rw [if_pos h2, if_pos (by omega), Nat.mod_eq_of_lt (a := c.toNat / 64) (b := 0x20) (by omega)]
  rw [if_neg h2, if_neg (by omega)]
  by_cases h3 : c.toNat < 0x10000
  · rw [if_pos h3, if_pos (by omega), Nat.mod_eq_of_lt (b := 0x10) (by omega)]
  · rw [if_neg h3, if_neg (by omega), Nat.mod_eq_of_lt (b := 0x08) (by omega)]

theorem utf8_eq_flatMap (text : String) : utf8 text = (text.toList.map Char.toNat).flatMap encodeScalarValue := by
  have hbytes : text.toByteArray = (text.toList.flatMap String.utf8EncodeChar).toByteArray :=
    String.utf8Encode_toList.symm
  rw [utf8, hbytes, List.toList_data_toByteArray, List.flatMap_map, funext utf8EncodeChar_eq]

theorem wellFormed_iff {bytes : List UInt8} : WellFormed bytes ↔ ∃ text, utf8 text = bytes := by
  constructor
  · rintro ⟨values, hvalues, rfl⟩
    obtain ⟨cs, rfl⟩ := exists_chars hvalues
    exact ⟨String.ofList cs, by rw [utf8_eq_flatMap, String.toList_ofList]⟩
  · rintro ⟨text, rfl⟩
    refine ⟨text.toList.map Char.toNat, ?_, utf8_eq_flatMap text⟩
    intro n hn
    obtain ⟨c, -, rfl⟩ := List.mem_map.mp hn
    exact isScalarValue_toNat c

theorem ofUtf8?_eq_none_iff {bytes : List UInt8} : ofUtf8? bytes = none ↔ ¬ WellFormed bytes := by
  rw [wellFormed_iff, Option.eq_none_iff_forall_ne_some]
  simp only [ne_eq, ofUtf8?_eq_some_iff, not_exists]

instance : DecidablePred WellFormed := fun bytes =>
  decidable_of_iff (ofUtf8? bytes ≠ none) (by rw [ne_eq, ofUtf8?_eq_none_iff, not_not])

/-- An overlong form, a surrogate and a number above the last are refused. -/
example : ¬ WellFormed [0xC0, 0x80] ∧ ¬ WellFormed [0xED, 0xA0, 0x80] ∧ ¬ WellFormed [0xF4, 0x90, 0x80, 0x80] := by
  decide

/-! ## How each decoder ends -/

namespace Reader

variable {r : Reader} {s : CString} {rest : List UInt8}

theorem decodeText_of_text {text : String} (h : r.rest = s.image ++ rest) (ht : utf8 text = s.bytes) :
    decodeText r = ⟨.ok text, r.moveTo (r.position + s.width), []⟩ := by
  rw [decodeText_of_append s h, ofUtf8?_eq_some_iff.mpr ht]

theorem decodeText_of_malformed (h : r.rest = s.image ++ rest) (hs : ¬ WellFormed s.bytes) :
    decodeText r = ⟨.error .invalidUtf8, r, []⟩ := by
  rw [decodeText_of_append s h, ofUtf8?_eq_none_iff.mpr hs]

theorem decodeBoundedText_of_malformed (limit : Nat) (h : r.rest = s.image ++ rest) (hs : ¬ WellFormed s.bytes) :
    decodeBoundedText limit r = ⟨.error .invalidUtf8, r, []⟩ := by
  rw [decodeBoundedText_apply, decodeText_of_malformed h hs]

theorem decodeBoundedText_of_le {limit : Nat} {text : String} (h : r.rest = s.image ++ rest)
    (ht : utf8 text = s.bytes) (hle : text.utf8ByteSize ≤ limit) :
    decodeBoundedText limit r = ⟨.ok ⟨text, hle⟩, r.moveTo (r.position + s.width), []⟩ := by
  rw [decodeBoundedText_apply, decodeText_of_text h ht]
  simp only [hle, dite_true]

/-- The terminator was passed before the bound is looked at, and the reader goes back all the same. -/
theorem decodeBoundedText_of_lt {limit : Nat} {text : String} (h : r.rest = s.image ++ rest)
    (ht : utf8 text = s.bytes) (hlt : limit < text.utf8ByteSize) :
    decodeBoundedText limit r = ⟨.error .invalidParameter, r, [.textAboveBound text.utf8ByteSize limit]⟩ := by
  rw [decodeBoundedText_apply, decodeText_of_text h ht]
  simp only [Nat.not_le.mpr hlt, dite_false, List.nil_append]
  rfl

end Reader

theorem length_bytes_of_utf8 {text : String} {bytes : List UInt8} (h : utf8 text = bytes) :
    text.utf8ByteSize = bytes.length := by
  rw [← h, length_utf8]

theorem Reader.exists_take {r : Reader} {n : Nat} (h : ¬ r.unread < n) :
    ∃ taken rest, r.rest = taken ++ rest ∧ taken.length = n := by
  refine ⟨r.rest.take n, r.rest.drop n, (List.take_append_drop ..).symm, ?_⟩
  rw [List.length_take, length_rest]
  omega

/-! ## Leaves that fail -/

namespace Leaf

theorem decode_of_not_short {l : Leaf} {r : Reader} {e : Error} (hs : ¬ l.Short r)
    (h : (l.decode r).result = .error e) :
    l.decode r = ⟨.error .invalidUtf8, r, []⟩ ∨
      ∃ limit text, l = .boundedText limit ∧ (Reader.decodeText r).result = .ok text ∧ limit < text.utf8ByteSize ∧
        l.decode r = ⟨.error .invalidParameter, r, [.textAboveBound text.utf8ByteSize limit]⟩ := by
  cases l with
  | scalar t =>
    obtain ⟨taken, rest, hr, hl⟩ := Reader.exists_take hs
    have hd := Reader.decodeScalar_of_append t hr hl
    cases h.symm.trans (congrArg Outcome.result hd)
  | messageId =>
    obtain ⟨taken, rest, hr, hl⟩ := Reader.exists_take hs
    have hd := Reader.decodeMessageId_of_append hr hl
    cases h.symm.trans (congrArg Outcome.result hd)
  | cstring =>
    obtain ⟨s, rest, hr⟩ := CString.exists_of_mem (not_not.mp hs)
    have hd := Reader.decodeCString_of_append s hr
    cases h.symm.trans (congrArg Outcome.result hd)
  | text =>
    obtain ⟨s, rest, hr⟩ := CString.exists_of_mem (not_not.mp hs)
    by_cases hw : WellFormed s.bytes
    · obtain ⟨text, ht⟩ := wellFormed_iff.mp hw
      have hd := Reader.decodeText_of_text hr ht
      cases h.symm.trans (congrArg Outcome.result hd)
    · exact .inl (Reader.decodeText_of_malformed hr hw)
  | boundedText limit =>
    obtain ⟨s, rest, hr⟩ := CString.exists_of_mem (not_not.mp hs)
    by_cases hw : WellFormed s.bytes
    · obtain ⟨text, ht⟩ := wellFormed_iff.mp hw
      rcases Nat.lt_or_ge limit text.utf8ByteSize with hlt | hle
      · have htext := congrArg Outcome.result (Reader.decodeText_of_text hr ht)
        exact .inr ⟨limit, text, rfl, htext, hlt, Reader.decodeBoundedText_of_lt hr ht hlt⟩
      · have hd := Reader.decodeBoundedText_of_le hr ht hle
        cases h.symm.trans (congrArg Outcome.result hd)
    · exact .inl (Reader.decodeBoundedText_of_malformed limit hr hw)

def strings (limit : Nat) : List Leaf := [.cstring, .text, .boundedText limit]

theorem decode_eq_underflow_iff {limit : Nat} {l : Leaf} (hl : l ∈ strings limit) (r : Reader) :
    (l.decode r).result = .error (.underflow (r.unread + 1) r.unread) ↔ 0 ∉ r.rest := by
  rw [strings, List.mem_cons, List.mem_cons, List.mem_singleton] at hl
  have hshort : l.Short r ↔ 0 ∉ r.rest := by rcases hl with rfl | rfl | rfl <;> exact Iff.rfl
  constructor
  · intro h
    rw [← hshort]
    by_contra hs
    rcases decode_of_not_short hs h with hd | ⟨_, _, -, -, -, hd⟩
    · cases h.symm.trans (congrArg Outcome.result hd)
    · cases h.symm.trans (congrArg Outcome.result hd)
  · intro h
    rcases hl with rfl | rfl | rfl
    · exact congrArg Outcome.result (Reader.decodeCString_of_not_mem h)
    · exact congrArg Outcome.result (Reader.decodeText_of_not_mem h)
    · exact congrArg Outcome.result (Reader.decodeBoundedText_of_not_mem limit h)

end Leaf

theorem Buffer.read_leaf (l : Leaf) (b : Buffer N) :
    (read l.decode b).result = (l.decode b.reader).result ∧
      (∀ e, (l.decode b.reader).result = .error e → (read l.decode b).state = b) ∧
      ∀ x, (l.decode b.reader).result = .ok x →
        (read l.decode b).state = { b with cursor := (l.decode b.reader).state.position } := by
  cases hr : (l.decode b.reader).result with
  | error e =>
    rw [read_of_error hr]
    exact ⟨rfl, fun _ _ => rfl, nofun⟩
  | ok x =>
    obtain ⟨hres, hst⟩ := read_of_ok hr rfl
    have hmoved : b.reader.position < (l.decode b.reader).state.position := by
      rw [congrArg Outcome.state (Leaf.decode_of_ok hr)]
      exact Nat.lt_add_of_pos_right (l.width_pos x)
    rw [hres, hst, if_pos hmoved]
    exact ⟨rfl, nofun, fun _ _ => rfl⟩

/-- **Strings are accepted if they are terminated, well-formed and short enough.** Without a NUL
left all decoders underflow. A text must be UTF-8, and a bounded text within its bound. What is
refused leaves the reader where the string starts. -/
theorem strings_accepted_exactly (r : Reader) (limit : Nat) :
    (∀ l ∈ Leaf.strings limit,
      ((l.decode r).result = .error (.underflow (r.unread + 1) r.unread) ↔ 0 ∉ r.rest) ∧
      ∀ e, (l.decode r).result = .error e → (l.decode r).state = r) ∧
    (0 ∈ r.rest → ∃ (s : CString) (rest : List UInt8), r.rest = s.bytes ++ 0 :: rest ∧
      let behind := r.moveTo (r.position + (s.bytes.length + 1))
      Reader.decodeCString r = ⟨.ok s, behind, []⟩ ∧
      ((Reader.decodeText r).result = .error .invalidUtf8 ↔ ¬ WellFormed s.bytes) ∧
      ((Reader.decodeBoundedText limit r).result = .error .invalidUtf8 ↔ ¬ WellFormed s.bytes) ∧
      ((Reader.decodeBoundedText limit r).result = .error .invalidParameter ↔
        WellFormed s.bytes ∧ limit < s.bytes.length) ∧
      (WellFormed s.bytes → ∃ text, utf8 text = s.bytes ∧ Reader.decodeText r = ⟨.ok text, behind, []⟩ ∧
        (s.bytes.length ≤ limit → ∃ x : BoundedText limit, x.text = text ∧
          Reader.decodeBoundedText limit r = ⟨.ok x, behind, []⟩))) ∧
    (∀ (N : Nat) (b : Buffer N), b.reader = r → ∀ l ∈ Leaf.strings limit,
      (Buffer.read l.decode b).result = (l.decode r).result ∧
      (∀ e, (l.decode r).result = .error e → (Buffer.read l.decode b).state = b) ∧
      ∀ x, (l.decode r).result = .ok x →
        (Buffer.read l.decode b).state = { b with cursor := (l.decode r).state.position }) := by
  refine ⟨fun l hl => ⟨Leaf.decode_eq_underflow_iff hl r, fun e => Leaf.state_of_error⟩, fun hm => ?_, ?_⟩
  · obtain ⟨s, rest, hs⟩ := CString.exists_of_mem hm
    refine ⟨s, rest, hs.trans (s.image_append rest), Reader.decodeCString_of_append s hs, ?_⟩
    by_cases hw : WellFormed s.bytes
    · obtain ⟨text, ht⟩ := wellFormed_iff.mp hw
      have hsize := length_bytes_of_utf8 ht
      have htext := Reader.decodeText_of_text hs ht
      simp only [hw, not_true_eq_false, iff_false, true_and, true_imp_iff]
      rcases Nat.lt_or_ge limit s.bytes.length with hlt | hle
      · rw [htext, Reader.decodeBoundedText_of_lt hs ht (hsize ▸ hlt)]
        exact ⟨nofun, nofun, ⟨fun _ => hlt, fun _ => rfl⟩, text, ht, rfl, fun hle => absurd hlt (Nat.not_lt.mpr hle)⟩
      · rw [htext, Reader.decodeBoundedText_of_le hs ht (hsize ▸ hle)]
        exact ⟨nofun, nofun, ⟨nofun, fun hlt => absurd hlt (Nat.not_lt.mpr hle)⟩, text, ht, rfl,
          fun _ => ⟨⟨text, hsize ▸ hle⟩, rfl, rfl⟩⟩
    · rw [Reader.decodeText_of_malformed hs hw, Reader.decodeBoundedText_of_malformed limit hs hw]
      exact ⟨⟨fun _ => hw, fun _ => rfl⟩, ⟨fun _ => hw, fun _ => rfl⟩, ⟨nofun, fun h => absurd h.1 hw⟩,
        fun h => absurd h hw⟩
  · rintro N b rfl l -
    exact b.read_leaf l

/-- Two letters in three bytes are above a bound of two; the next string is overlong. -/
theorem strings_accepted_exactly_but_for_bound :
    let b : Buffer 9 := ⟨#v[104, 195, 169, 0, 192, 128, 0, 33, 0], 0, 8⟩
    let c : Buffer 9 := { b with cursor := 7 }
    (Reader.decodeBoundedText 2 b.reader).result = .error .invalidParameter ∧
      (Buffer.read (Leaf.boundedText 2).decode b).state = b ∧
      (Buffer.read Leaf.text.decode c).result = .error (.underflow 2 1) ∧
      (Buffer.read Leaf.text.decode c).state = c := by
  intro b c
  obtain ⟨-, hterminated, hbuffer⟩ := strings_accepted_exactly b.reader 2
  obtain ⟨s, rest, hs, -, -, -, hbound, -⟩ := hterminated (by decide)
  have hstring : s.bytes = [104, 195, 169] := by
    rw [← CString.upToNul_image_append s rest, s.image_append, ← hs]
    decide
  have hlong : (Reader.decodeBoundedText 2 b.reader).result = .error .invalidParameter :=
    hbound.mpr (by rw [hstring]; decide)
  obtain ⟨-, hstays, -⟩ := hbuffer 9 b rfl (.boundedText 2) (by decide)
  obtain ⟨hends, -, hbuffer'⟩ := strings_accepted_exactly c.reader 2
  obtain ⟨hshort, hstays', -⟩ := hbuffer' 9 c rfl .text (by decide)
  have hunderflow := (hends .text (by decide)).1.mpr (by decide)
  exact ⟨hlong, hstays _ hlong, hshort.trans hunderflow, hstays' _ hunderflow⟩

end Marshal
