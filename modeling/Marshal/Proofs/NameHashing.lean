import Marshal.Proofs.RouteTables

/-!
# Names that differ in two neighbouring bytes

A round of the hash can be undone, since the prime is odd, so equal bytes keep
two hashes apart or equal. Where names differ, one byte alone cannot give the
same hash. Of two bytes, the first leaves hashes that differ above their lowest
eight bits, and the second changes nothing there.
-/

namespace Marshal

namespace MessageId

/-! ## One byte -/

theorem eq_of_mul_prime_eq {a b : UInt32} (h : a * 0x01000193 = b * 0x01000193) : a = b := by
  have hinverse : (0x01000193 : UInt32) * 0x359c449b = 1 := by decide
  calc a = a * 0x01000193 * 0x359c449b := by rw [UInt32.mul_assoc, hinverse, UInt32.mul_one]
    _ = b * 0x01000193 * 0x359c449b := by rw [h]
    _ = b := by rw [UInt32.mul_assoc, hinverse, UInt32.mul_one]

theorem mix_left_injective {a b : UInt32} {byte : UInt8} (h : mix a byte = mix b byte) : a = b :=
  (UInt32.xor_left_inj byte.toUInt32).mp (eq_of_mul_prime_eq h)

theorem mix_right_injective {a : UInt32} {x y : UInt8} (h : mix a x = mix a y) : x = y := by
  have hxor : x.toUInt32 = y.toUInt32 := (UInt32.xor_right_inj a).mp (eq_of_mul_prime_eq h)
  have hnat := congrArg UInt32.toNat hxor
  rw [UInt8.toNat_toUInt32, UInt8.toNat_toUInt32] at hnat
  exact UInt8.toNat_inj.mp hnat

theorem foldl_mix_injective {a b : UInt32} (bytes : List UInt8) (h : bytes.foldl mix a = bytes.foldl mix b) :
    a = b := by
  induction bytes generalizing a b with
  | nil => exact h
  | cons byte bytes ih => exact mix_left_injective (ih h)

/-! ## Two bytes -/

theorem upper_xor (a : UInt32) (byte : UInt8) : (a ^^^ byte.toUInt32).toNat / 256 = a.toNat / 256 := by
  have hbyte : byte.toNat / 2 ^ 8 = 0 := Nat.div_eq_of_lt byte.toNat_lt
  have hxor := Nat.xor_div_two_pow (a := a.toNat) (b := byte.toNat) (n := 8)
  rw [hbyte, Nat.xor_zero] at hxor
  rw [UInt32.toNat_xor, UInt8.toNat_toUInt32]
  exact hxor

/-- Numbers that differ only in the lowest eight bits still differ above these after the product. -/
theorem eq_of_upper_mul_eq {a b : Nat} (hle : a ≤ b) (h : a / 256 = b / 256)
    (hp : a * 0x01000193 % 2 ^ 32 / 256 = b * 0x01000193 % 2 ^ 32 / 256) : a = b := by
  have hclose : b - a < 256 := by omega
  obtain ⟨k, hk⟩ : ∃ k : Int, (b * 0x01000193 % 2 ^ 32 : Nat) - (a * 0x01000193 % 2 ^ 32 : Nat) =
      ((b : Int) - a) * 0x01000193 - k * 2 ^ 32 := by
    refine ⟨(b * 0x01000193 / 2 ^ 32 : Nat) - (a * 0x01000193 / 2 ^ 32 : Nat), ?_⟩
    omega
  -- 255 times the prime stays more than 255 below 2 ^ 32, so the difference does not wrap
  have hzero : k = 0 := by omega
  omega

theorem mix_mix_injective {a : UInt32} {x x' y y' : UInt8} (h : mix (mix a x) x' = mix (mix a y) y') : x = y := by
  have hmixed : mix a x ^^^ x'.toUInt32 = mix a y ^^^ y'.toUInt32 := eq_of_mul_prime_eq h
  have hupper : (mix a x).toNat / 256 = (mix a y).toNat / 256 := by
    rw [← upper_xor _ x', hmixed, upper_xor]
  have hstart : (a ^^^ x.toUInt32).toNat / 256 = (a ^^^ y.toUInt32).toNat / 256 := by
    rw [upper_xor, upper_xor]
  rw [mix, mix, UInt32.toNat_mul, UInt32.toNat_mul] at hupper
  have hnat : (a ^^^ x.toUInt32).toNat = (a ^^^ y.toUInt32).toNat := by
    rcases Nat.le_total (a ^^^ x.toUInt32).toNat (a ^^^ y.toUInt32).toNat with hle | hle
    · exact eq_of_upper_mul_eq hle hstart hupper
    · exact (eq_of_upper_mul_eq hle hstart.symm hupper.symm).symm
  exact mix_right_injective (congrArg (· * 0x01000193) (UInt32.toNat_inj.mp hnat))

/-! ## Names -/

theorem foldl_mix_window {a : UInt32} {x y : List UInt8} (hlen : x.length = y.length)
    (hwindow : x.length = 1 ∨ x.length = 2) (h : x.foldl mix a = y.foldl mix a) : x = y := by
  rcases hwindow with hone | htwo
  · obtain ⟨b, rfl⟩ := List.length_eq_one_iff.mp hone
    obtain ⟨c, rfl⟩ := List.length_eq_one_iff.mp (hlen ▸ hone)
    have hbyte : b = c := mix_right_injective h
    rw [hbyte]
  · obtain ⟨b, b', rfl⟩ := List.length_eq_two.mp htwo
    obtain ⟨c, c', rfl⟩ := List.length_eq_two.mp (hlen ▸ htwo)
    have hfirst : b = c := mix_mix_injective h
    subst hfirst
    have hsecond : b' = c' := mix_right_injective h
    rw [hsecond]

theorem ofBytes_window {start x y rest : List UInt8} (hlen : x.length = y.length)
    (hwindow : x.length = 1 ∨ x.length = 2) (h : ofBytes (start ++ x ++ rest) = ofBytes (start ++ y ++ rest)) :
    x = y := by
  have hhash := congrArg MessageId.value h
  simp only [ofBytes, List.foldl_append] at hhash
  exact foldl_mix_window hlen hwindow (foldl_mix_injective rest hhash)

end MessageId

theorem RouteTable.register_two {κ : Type} {N H : Nat} {id id' : MessageId} (hne : id ≠ id') (hroom : 2 ≤ H)
    (state state' : κ) (handler handler' : Handler κ N) :
    (do register id state handler; register id' state' handler' : Action Error (RouteTable κ N H) Unit) .empty =
      ⟨.ok (), ⟨[⟨id, state, handler⟩, ⟨id', state', handler'⟩]⟩, [.registered id, .registered id']⟩ := by
  have hfirst : (register id state handler : Action Error (RouteTable κ N H) Unit) .empty =
      ⟨.ok (), ⟨[⟨id, state, handler⟩]⟩, [.registered id]⟩ :=
    register_of_room state handler List.not_mem_nil (Nat.lt_of_lt_of_le Nat.zero_lt_two hroom)
  have hnew : id' ∉ (⟨[⟨id, state, handler⟩]⟩ : RouteTable κ N H).ids := by
    rw [ids, List.map_singleton, List.mem_singleton]
    exact hne.symm
  rw [Action.bind_apply, hfirst]
  simp only [register_of_room state' handler' hnew hroom, List.singleton_append]

/-- **Neighbouring names are told apart.** Names of one length that differ in one byte, or in two
side by side, have different identifiers. So an empty table with room for two takes both. -/
theorem neighbouring_names_told_apart {start x y rest : List UInt8} {name name' : String}
    (hname : utf8 name = start ++ x ++ rest) (hname' : utf8 name' = start ++ y ++ rest)
    (hlen : x.length = y.length) (hwindow : x.length = 1 ∨ x.length = 2) (hne : x ≠ y) :
    MessageId.ofName name ≠ MessageId.ofName name' ∧
    ∀ (κ : Type) (N H : Nat) (state state' : κ) (handler handler' : Handler κ N), 2 ≤ H →
      let both : Action Error (RouteTable κ N H) Unit := do
        RouteTable.register (.ofName name) state handler
        RouteTable.register (.ofName name') state' handler'
      (both .empty).result = .ok () ∧
        (both .empty).state.routes = [⟨.ofName name, state, handler⟩, ⟨.ofName name', state', handler'⟩] := by
  have hids : MessageId.ofName name ≠ MessageId.ofName name' := by
    intro h
    rw [MessageId.ofName, MessageId.ofName, hname, hname'] at h
    exact hne (MessageId.ofBytes_window hlen hwindow h)
  refine ⟨hids, ?_⟩
  intro κ N H state state' handler handler' hroom both
  have hboth := RouteTable.register_two hids hroom state state' handler handler'
  exact ⟨congrArg Outcome.result hboth, congrArg (fun o => o.state.routes) hboth⟩

/-- One letter apart, of which the encodings share no byte. -/
theorem neighbouring_names_told_apart_by_accent :
    let handler : Handler Nat 8 := fun s => ⟨.ok (), s, []⟩
    let both : Action Error (RouteTable Nat 8 2) Unit := do
      RouteTable.register (.ofName "voilà_call") 1 handler
      RouteTable.register (.ofName "voilĀ_call") 2 handler
    MessageId.ofName "voilà_call" ≠ MessageId.ofName "voilĀ_call" ∧ (both .empty).result = .ok () := by
  intro handler both
  have hname : utf8 "voilà_call" = [118, 111, 105, 108] ++ [195, 160] ++ [95, 99, 97, 108, 108] := by decide
  have hname' : utf8 "voilĀ_call" = [118, 111, 105, 108] ++ [196, 128] ++ [95, 99, 97, 108, 108] := by decide
  obtain ⟨hne, hboth⟩ := neighbouring_names_told_apart hname hname' rfl (.inr rfl) (by decide)
  exact ⟨hne, (hboth Nat 8 2 1 2 handler handler (Nat.le_refl 2)).1⟩

end Marshal
