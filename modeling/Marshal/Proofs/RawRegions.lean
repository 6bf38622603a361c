import Marshal.Proofs.ArrayReads
import Marshal.Proofs.Loops
import Marshal.Proofs.MachineCalls
import Marshal.Proofs.Regions
import Marshal.Proofs.Writing

/-!
# Raw regions on buffers

The pieces of a region are written and read one after another. As long as
there is room, or are bytes to read, this is one write or read of the whole;
else it stops at the first piece that does not fit, and what was done is one
write or read of the pieces before it.
-/

namespace Marshal

open Marshal.Action

variable {N n size : Nat}

/-! ## Writing pieces -/

namespace Buffer

theorem forM_encodeBytes_of_le {pieces : List (List UInt8)} {b : Buffer N} (h : pieces.flatten.length ≤ b.remaining) :
    forM pieces encodeBytes b = ⟨.ok (), b.append pieces.flatten, []⟩ := by
  induction pieces generalizing b with
  | nil => rfl
  | cons piece pieces ih =>
    rw [List.flatten_cons, List.length_append] at h
    have hrest : pieces.flatten.length ≤ (b.append piece).remaining := by
      rw [remaining_append]
      omega
    rw [List.forM_cons, bind_apply, encodeBytes_of_le (by omega)]
    simp only [ih hrest, append_append, List.flatten_cons, List.append_nil]

theorem encodePieces_of_le {pieces : List (List UInt8)} {b : Buffer N} (h : pieces.flatten.length ≤ b.remaining) :
    (encodePieces pieces b).result = .ok pieces.length ∧ (encodePieces pieces b).state = b.append pieces.flatten := by
  have hall := forM_encodeBytes_of_le h
  rw [encodePieces, codeEach_state, codeEach_of_ok (congrArg Outcome.result hall), hall]
  exact ⟨rfl, rfl⟩

theorem encodePieces_of_lt {pieces : List (List UInt8)} {b : Buffer N}
    (hpieces : ∀ piece ∈ pieces, piece.length = size) (h : b.remaining < pieces.length * size) :
    let k := b.remaining / size
    (encodePieces pieces b).result = .error ⟨k, .overflow size (b.remaining % size)⟩ ∧
      (encodePieces pieces b).state = b.append (pieces.take k).flatten := by
  intro k
  have hk : k < pieces.length := Nat.div_lt_of_lt_mul (by rwa [Nat.mul_comm])
  have hsplit : pieces = pieces.take k ++ pieces[k] :: pieces.drop (k + 1) := by
    rw [List.cons_getElem_drop_succ, List.take_append_drop]
  have hpiece : (pieces[k]).length = size := hpieces _ (List.getElem_mem hk)
  have hlength : (pieces.take k).length = k := List.length_take_of_le hk.le
  have htaken : (pieces.take k).flatten.length = k * size := by
    rw [Region.length_flatten fun piece hp => hpieces piece (List.mem_of_mem_take hp), hlength]
  have hdone := forM_encodeBytes_of_le (b := b) (by rw [htaken]; exact Nat.div_mul_le_self _ _)
  -- what is left behind the pieces that fit is less than one piece
  have hroom : (b.append (pieces.take k).flatten).remaining = b.remaining % size := by
    rw [remaining_append, htaken, Nat.mod_eq_sub_div_mul]
  have hsize : 0 < size := Nat.pos_of_ne_zero fun h0 => by rw [h0, Nat.mul_zero] at h; omega
  obtain ⟨log, hfails⟩ : ∃ log, encodeBytes pieces[k] (b.append (pieces.take k).flatten) =
      ⟨.error (.overflow size (b.remaining % size)), b.append (pieces.take k).flatten, log⟩ :=
    ⟨_, by rw [encodeBytes, hroom, hpiece, if_pos (Nat.mod_lt _ hsize)]⟩
  have hstop : (encodeBytes pieces[k] (forM (pieces.take k) encodeBytes b).state).result =
      .error (.overflow size (b.remaining % size)) := by
    rw [hdone, hfails]
  have heach := codeEach_of_error (congrArg Outcome.result hdone) hstop (pieces.drop (k + 1))
  rw [← hsplit, hlength, hdone, hfails] at heach
  exact heach

end Buffer

/-! ## Reading pieces -/

theorem Reader.inRow_chunks {k : Nat} {r : Reader} (h : k * size ≤ r.unread) :
    InRow (decodeBytes size) r (Region.chunks size k r.rest) (r.moveTo (r.position + k * size)) := by
  induction k generalizing r with
  | zero =>
    rw [Nat.zero_mul]
    exact .nil r
  | succ k ih =>
    rw [Nat.succ_mul] at h
    have hfirst : decodeBytes size r = _ := decodeBytes_of_le (by omega)
    have hrest : (r.moveTo (r.position + size)).rest = r.rest.drop size := List.drop_drop.symm
    have hunread : k * size ≤ (r.moveTo (r.position + size)).unread := by
      rw [← length_rest, hrest, List.length_drop, length_rest]
      omega
    have hrow := ih hunread
    rw [hrest] at hrow
    rw [Nat.succ_mul, Nat.add_comm (k * size), ← Nat.add_assoc]
    exact .of_eq hfirst hrow

namespace Buffer

variable {b : Buffer N}

def rest (b : Buffer N) : List UInt8 := b.message.drop b.cursor

theorem length_rest (hb : b.used ≤ N) : b.rest.length = b.unread := by
  rw [rest, List.length_drop, length_message hb, unread]

theorem inRow_chunks (hb : b.used ≤ N) {k : Nat} (h : k * size ≤ b.unread) :
    InRow (decodeBytes size) b (Region.chunks size k b.rest) { b with cursor := b.cursor + k * size } := by
  have hrow := Reader.inRow_chunks (r := b.reader) (k := k) (by rwa [unread_reader hb])
  obtain ⟨j, hj, hbuffer, -⟩ := hrow.onBuffer (Reader.onward_decodeBytes size) rfl
  have hlength : j = k * size := Nat.add_left_cancel (congrArg Reader.position hj.symm)
  rwa [hlength, rest_reader hb] at hbuffer

theorem decodeBytes_of_le (hb : b.used ≤ N) {length : Nat} (h : length ≤ b.unread) :
    (decodeBytes length b).result = .ok (b.rest.take length) ∧
      (decodeBytes length b).state = { b with cursor := b.cursor + length } := by
  have hd : Reader.decodeBytes length b.reader = _ := Reader.decodeBytes_of_le (by rwa [unread_reader hb])
  obtain ⟨k, -, hk, hread⟩ := read_of_onward (Reader.onward_decodeBytes length) (congrArg Outcome.result hd)
  rw [hd] at hk
  have hlength : k = length := Nat.add_left_cancel (congrArg Reader.position hk.symm)
  rw [decodeBytes, hread, hlength, rest_reader hb]
  exact ⟨rfl, rfl⟩

theorem decodePieces_of_le (hb : b.used ≤ N) (h : n * size ≤ b.unread) (slots : Vector (List UInt8) n) :
    let filled := decodePieces size ⟨b, slots⟩
    filled.result = .ok n ∧ filled.state.slots.toList = Region.chunks size n b.rest ∧
      filled.state.source = { b with cursor := b.cursor + n * size } := by
  intro filled
  obtain ⟨v, hv⟩ : ∃ v : Vector (List UInt8) n, v.toList = Region.chunks size n b.rest :=
    ⟨⟨(Region.chunks size n b.rest).toArray, Region.length_chunks size n b.rest⟩, rfl⟩
  have hrow := inRow_chunks hb h
  rw [← hv] at hrow
  obtain ⟨hr, hs⟩ := hrow.fillSlots slots
  have hstate : filled.state = ⟨_, v⟩ := hs
  rw [hstate]
  exact ⟨hr, hv, rfl⟩

theorem decodePieces_of_lt (hb : b.used ≤ N) (h : b.unread < n * size) (slots : Vector (List UInt8) n) :
    let k := b.unread / size
    let filled := decodePieces size ⟨b, slots⟩
    filled.result = .error ⟨k, .underflow size (b.unread % size)⟩ ∧
      filled.state.slots.toList = Region.chunks size k b.rest ++ slots.toList.drop k ∧
      filled.state.source = { b with cursor := b.cursor + k * size } := by
  intro k filled
  have hk : k < n := Nat.div_lt_of_lt_mul (by rwa [Nat.mul_comm])
  have hsize : 0 < size := Nat.pos_of_ne_zero fun h0 => by rw [h0, Nat.mul_zero] at h; omega
  have hrow := inRow_chunks hb (Nat.div_mul_le_self b.unread size)
  -- what is left behind the pieces that were read is less than one piece
  have hleft : ({ b with cursor := b.cursor + k * size } : Buffer N).reader.unread = b.unread % size := by
    rw [unread_reader (b := { b with cursor := b.cursor + k * size }) hb, Nat.mod_eq_sub_div_mul]
    exact Nat.sub_add_eq b.used b.cursor (k * size)
  have hfails := Reader.decodeBytes_of_lt (hleft ▸ Nat.mod_lt b.unread hsize)
  have hread := read_of_error (congrArg Outcome.result hfails)
  have hlength : (Region.chunks size k b.rest).length = k := Region.length_chunks size k b.rest
  obtain ⟨hr, hs⟩ := hrow.fillSlots_of_error (congrArg Outcome.result hread) (by rwa [hlength]) slots
  rw [hlength, hleft] at hr
  have hstate : filled.state = ⟨_, _⟩ := hs
  rw [hstate, toList_overwrite _ _ _ (by rw [Nat.zero_add, hlength]; exact hk.le), List.take_zero, List.nil_append,
    Nat.zero_add, hlength]
  exact ⟨hr, rfl, congrArg Outcome.state hread⟩

theorem rest_of_written {bytes : List UInt8} (h : b.cursor + bytes.length ≤ N) :
    let c : Buffer N := { (b.append bytes).sealed with cursor := b.cursor }
    c.rest = bytes ∧ c.unread = bytes.length ∧ c.used ≤ N := by
  intro c
  have hmessage : c.message = b.written ++ bytes := b.written_append bytes h
  have hl : b.written.length = b.cursor := length_written (by omega)
  refine ⟨?_, Nat.add_sub_cancel_left _ _, h⟩
  rw [rest, hmessage, List.drop_left' hl]

end Buffer

/-! ## Regions -/

namespace Region.Fits

variable {count : Nat} {region : List UInt8} {b : Buffer N}

theorem encodePieces_of_le (h : Fits region count size) (hroom : count * size ≤ b.remaining) :
    (Buffer.encodePieces (chunks size count region) b).result = .ok count ∧
      (Buffer.encodePieces (chunks size count region) b).state = b.append region := by
  have hlength : (chunks size count region).flatten.length ≤ b.remaining := by rwa [h.flatten_chunks, ← h.2]
  have hall := Buffer.encodePieces_of_le hlength
  rwa [length_chunks, h.flatten_chunks] at hall

theorem encodePieces_of_lt (h : Fits region count size) (hroom : b.remaining < count * size) :
    let k := b.remaining / size
    (Buffer.encodePieces (chunks size count region) b).result = .error ⟨k, .overflow size (b.remaining % size)⟩ ∧
      (Buffer.encodePieces (chunks size count region) b).state = b.append (region.take (k * size)) := by
  have hk : b.remaining / size ≤ count := (Nat.div_lt_of_lt_mul (by rwa [Nat.mul_comm])).le
  obtain ⟨hr, hs⟩ := Buffer.encodePieces_of_lt (fun _ => length_of_mem_chunks h.2.le) (by rwa [length_chunks])
  rw [take_chunks hk, Region.flatten_chunks] at hs
  exact ⟨hr, hs⟩

theorem flatten_filled (h : Fits region count size) (hb : b.used ≤ N) (hleft : b.unread < count * size)
    {slots : Vector (List UInt8) count} (hslots : slots.toList = chunks size count region) :
    let k := b.unread / size
    (Buffer.decodePieces size ⟨b, slots⟩).state.slots.toList.flatten = b.rest.take (k * size) ++ region.drop (k * size) := by
  have hk : b.unread / size ≤ count := (Nat.div_lt_of_lt_mul (by rwa [Nat.mul_comm])).le
  obtain ⟨-, hfilled, -⟩ := Buffer.decodePieces_of_lt hb hleft slots
  rw [hfilled, List.flatten_append, Region.flatten_chunks, hslots, h.flatten_drop_chunks hk]

end Region.Fits

/-- **Raw regions are coded exactly.** A region is cut into elements if their size is not zero and
the true product is its length. Writing or reading them is writing or reading the region, or stops
at the quotient of the room by the size. What was written is read back, in elements of any size. -/
theorem raw_regions_exact {region : List UInt8} (hregion : region.length < 2 ^ 64) (count size : Nat) :
    (∀ (σ : Type) (s : σ) (f : Nat → List UInt8 → List UInt8),
      let cut : Outcome Error σ (List (List UInt8)) := Region.elements region count size s
      let changed : Outcome Error σ (List UInt8) := Region.mapElements f region count size s
      Checked.elements region count size s = cut ∧ cut.state = s ∧ changed.state = s ∧
        (Region.Fits region count size →
          cut.result = .ok (Region.chunks size count region) ∧
            changed.result = .ok ((Region.chunks size count region).mapIdx f).flatten) ∧
        (¬ Region.Fits region count size →
          cut.result = .error .invalidParameter ∧ changed.result = .error .invalidParameter)) ∧
    (Region.Fits region count size →
      let pieces := Region.chunks size count region
      (pieces.length = count ∧ (∀ piece ∈ pieces, piece.length = size) ∧ pieces.flatten = region) ∧
      (∀ (N : Nat) (b : Buffer N),
        let written := Buffer.encodePieces pieces b
        let whole := Buffer.encodeBytes region b
        let k := b.remaining / size
        let front := Buffer.encodeBytes (region.take (k * size)) b
        (count * size ≤ b.remaining →
          written.result = .ok count ∧ whole.result = .ok () ∧ written.state = whole.state) ∧
        (b.remaining < count * size →
          written.result = .error ⟨k, .overflow size (b.remaining % size)⟩ ∧
            front.result = .ok () ∧ written.state = front.state)) ∧
      (∀ (N : Nat) (b : Buffer N) (slots : Vector (List UInt8) count), b.InBounds → slots.toList = pieces →
        let filled := Buffer.decodePieces size ⟨b, slots⟩
        let whole := Buffer.decodeBytes (count * size) b
        let k := b.unread / size
        let front := Buffer.decodeBytes (k * size) b
        (count * size ≤ b.unread →
          filled.result = .ok count ∧ whole.result = .ok filled.state.slots.toList.flatten ∧
            filled.state.source = whole.state) ∧
        (b.unread < count * size →
          filled.result = .error ⟨k, .underflow size (b.unread % size)⟩ ∧
            (∃ bytes, front.result = .ok bytes ∧ bytes.length = k * size ∧
              filled.state.slots.toList.flatten = bytes ++ region.drop (k * size)) ∧
            filled.state.source = front.state)) ∧
      ∀ (N : Nat) (b : Buffer N) (count' size' : Nat) (slots : Vector (List UInt8) count'),
        b.cursor ≤ N → count * size ≤ b.remaining → Region.Fits region count' size' →
        let c := (Buffer.seek b.cursor (Buffer.encodePieces pieces b).state.sealed).state
        let filled := Buffer.decodePieces size' ⟨c, slots⟩
        filled.result = .ok count' ∧ filled.state.slots.toList.flatten = region ∧
          filled.state.source = { c with cursor := b.cursor + region.length }) := by
  refine ⟨fun σ s f => ?_, fun hfits => ?_⟩
  · have hchecked : (Checked.elements region count size : Action Error σ _) = Region.elements region count size :=
      Checked.elements_eq hregion count size
    dsimp only
    rw [hchecked]
    by_cases hfits : Region.Fits region count size
    · rw [Region.elements_of_fits hfits, Region.mapElements_of_fits hfits]
      exact ⟨rfl, rfl, rfl, fun _ => ⟨rfl, rfl⟩, fun hn => (hn hfits).elim⟩
    · rw [Region.elements_of_misfit hfits, Region.mapElements_of_misfit hfits]
      exact ⟨rfl, rfl, rfl, fun h => (hfits h).elim, fun _ => ⟨rfl, rfl⟩⟩
  refine ⟨⟨Region.length_chunks size count region, fun _ => Region.length_of_mem_chunks hfits.2.le, hfits.flatten_chunks⟩,
    fun N b => ⟨fun h => ?_, fun h => ?_⟩, fun N b slots hb hslots => ⟨fun h => ?_, fun h => ?_⟩,
    fun N b count' size' slots hb hroom hfits' => ?_⟩
  · obtain ⟨hr, hs⟩ := hfits.encodePieces_of_le h
    rw [hr, hs, Buffer.encodeBytes_of_le (hfits.2 ▸ h)]
    exact ⟨rfl, rfl, rfl⟩
  · obtain ⟨hr, hs⟩ := hfits.encodePieces_of_lt h
    have hfront : (region.take (b.remaining / size * size)).length ≤ b.remaining :=
      (List.length_take_le _ _).trans (Nat.div_mul_le_self _ _)
    rw [hr, hs, Buffer.encodeBytes_of_le hfront]
    exact ⟨rfl, rfl, rfl⟩
  · obtain ⟨hr, hfilled, hs⟩ := Buffer.decodePieces_of_le hb.used_le h slots
    obtain ⟨hwhole, hafter⟩ := Buffer.decodeBytes_of_le hb.used_le h
    rw [hr, hfilled, hs, hwhole, hafter, Region.flatten_chunks]
    exact ⟨rfl, rfl, rfl⟩
  · obtain ⟨hr, -, hs⟩ := Buffer.decodePieces_of_lt hb.used_le h slots
    have hle : b.unread / size * size ≤ b.unread := Nat.div_mul_le_self _ _
    obtain ⟨hfront, hafter⟩ := Buffer.decodeBytes_of_le hb.used_le hle
    have hlength : (b.rest.take (b.unread / size * size)).length = b.unread / size * size :=
      List.length_take_of_le (by rwa [Buffer.length_rest hb.used_le])
    exact ⟨hr, ⟨_, hfront, hlength, hfits.flatten_filled hb.used_le h hslots⟩, hs.trans hafter.symm⟩
  · have hfit : b.cursor + region.length ≤ N := (Buffer.le_remaining_iff hb).mp (hfits.2 ▸ hroom)
    obtain ⟨-, hs⟩ := hfits.encodePieces_of_le hroom
    dsimp only
    rw [hs, Buffer.seek_of_le hb]
    obtain ⟨hrest, hunread, hused⟩ := Buffer.rest_of_written hfit
    obtain ⟨hr, hfilled, hsource⟩ := Buffer.decodePieces_of_le hused (hfits'.2.le.trans hunread.ge) slots
    rw [hr, hfilled, hsource, hrest, hfits'.flatten_chunks, hfits'.2]
    exact ⟨rfl, rfl, rfl⟩

/-- Three elements of two bytes, with five bytes of room or five to read. -/
theorem raw_regions_exact_six :
    let region : List UInt8 := [1, 2, 3, 4, 5, 6]
    let b : Buffer 7 := ⟨#v[9, 8, 7, 6, 5, 4, 3], 2, 7⟩
    let c : Buffer 8 := ⟨.replicate 8 9, 1, 0⟩
    let written := Buffer.encodePieces (Region.chunks 2 3 region) b
    let whole := Buffer.encodePieces (Region.chunks 2 3 region) c
    let filled := Buffer.decodePieces 2 ⟨b, #v[[1, 2], [3, 4], [5, 6]]⟩
    written.result = .error ⟨2, .overflow 2 1⟩ ∧ written.state = (Buffer.encodeBytes [1, 2, 3, 4] b).state ∧
    filled.result = .error ⟨2, .underflow 2 1⟩ ∧ filled.state.source = (Buffer.decodeBytes 4 b).state ∧
    whole.result = .ok 3 ∧
    (Buffer.decodePieces 3 ⟨(Buffer.seek c.cursor (Buffer.encodePieces (Region.chunks 2 3 region) c).state.sealed).state,
      #v[[], []]⟩).state.slots.toList.flatten = region ∧
    (Region.elements [] (2 ^ 63) 2 () : Outcome Error Unit _).result = .error .invalidParameter := by
  intro region b c written whole filled
  have hroom : b.remaining = 5 := rfl
  have hunread : b.unread = 5 := rfl
  obtain ⟨-, hcoded⟩ := @raw_regions_exact region (by decide) 3 2
  obtain ⟨-, hwritten, hread, hback⟩ := hcoded ⟨by decide, rfl⟩
  obtain ⟨hr, -, hs⟩ := (hwritten 7 b).2 (by decide)
  obtain ⟨hf, -, hsource⟩ := (hread 7 b #v[[1, 2], [3, 4], [5, 6]] ⟨by decide, by decide⟩ rfl).2 (by decide)
  rw [hroom] at hr hs
  rw [hunread] at hf hsource
  obtain ⟨hc, -⟩ := (hwritten 8 c).1 (by decide)
  obtain ⟨-, hregion, -⟩ := hback 8 c 2 3 #v[[], []] (by decide) (by decide) ⟨by decide, rfl⟩
  obtain ⟨hcut, -⟩ := @raw_regions_exact [] (by decide) (2 ^ 63) 2
  obtain ⟨-, -, -, -, hmisfit⟩ := hcut Unit () fun _ piece => piece
  exact ⟨hr, hs, hf, hsource, hc, hregion, (hmisfit (by simp [Region.Fits])).1⟩

end Marshal
