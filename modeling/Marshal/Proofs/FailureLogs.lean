import Marshal.Proofs.FailureTrails
import Marshal.Proofs.PartialWrites
import Marshal.Proofs.StringReads
import Marshal.Proofs.Truncation

/-!
# What the log of a failure tells

A call that succeeds logs nothing. One that fails logs what its leaf complains
of, and then the index of this leaf in every array around it, innermost first.
The complaint names the place where the leaf starts, and leaves take at least
one byte, so the log tells which leaf it was.
-/

namespace Marshal

open Marshal.Action

variable {N : Nat}

/-! ## The complaint of a leaf -/

def Part.overflowRecord (p : Part) (position room : Nat) : Record :=
  match p.leaf with
  | .text | .boundedText _ => .textOverflow position p.width room
  | .scalar _ | .cstring | .messageId => .bytesOverflow position p.width room

/-- What a leaf returns and logs that cannot be written at `position`, where `room` bytes are left. -/
inductive Part.Complaint (p : Part) (position room : Nat) : Error → List Record → Prop
  | overflow : p.NulFree → room < p.width →
    Complaint p position room (.overflow p.width room) [p.overflowRecord position room]
  | interiorNul : ¬ p.NulFree → Complaint p position room .interiorNul []

inductive Leaf.Complaint (l : Leaf) (r : Reader) : Error → List Record → Prop
  | underflow {requested : Nat} : r.unread < requested →
    Complaint l r (.underflow requested r.unread) [.underflow r.position requested r.unread]
  | invalidUtf8 : Complaint l r .invalidUtf8 []
  | aboveBound {limit : Nat} {text : String} : l = .boundedText limit →
    (Reader.decodeText r).result = .ok text → limit < text.utf8ByteSize →
    Complaint l r .invalidParameter [.textAboveBound text.utf8ByteSize limit]

def Record.start? : Record → Option Nat
  | .bytesOverflow position .. | .textOverflow position .. | .underflow position .. => some position
  | _ => none

def logStart (log : List Record) : Option Nat := log.head?.bind Record.start?

theorem logStart_elementFailed (place : List Nat) : logStart (place.map .elementFailed) = none := by
  cases place <;> rfl

theorem Part.start?_overflowRecord (p : Part) (position room : Nat) :
    (p.overflowRecord position room).start? = some position := by
  unfold overflowRecord
  split <;> rfl

theorem Part.Complaint.logStart_eq {p : Part} {position room : Nat} {e : Error} {complaint : List Record}
    (h : p.Complaint position room e complaint) (place : List Nat) :
    logStart (complaint ++ place.map .elementFailed) = if p.NulFree then some position else none := by
  cases h with
  | overflow hn => exact (p.start?_overflowRecord position room).trans (if_pos hn).symm
  | interiorNul hn => rw [List.nil_append, logStart_elementFailed, if_neg hn]

theorem Leaf.Complaint.logStart_eq {l : Leaf} {r : Reader} {e : Error} {complaint : List Record}
    (h : l.Complaint r e complaint) (place : List Nat) :
    logStart (complaint ++ place.map .elementFailed) =
      match e with
      | .underflow .. => some r.position
      | _ => none := by
  cases h with
  | underflow => rfl
  | invalidUtf8 => exact logStart_elementFailed place
  | aboveBound => rfl

theorem Part.level_overflowRecord (p : Part) (position room : Nat) :
    (p.overflowRecord position room).level = .trace := by
  unfold overflowRecord
  split <;> rfl

theorem map_level {complaint : List Record} (h : ∀ record ∈ complaint, record.level = .trace) (place : List Nat) :
    (complaint ++ place.map Record.elementFailed).map Record.level =
      complaint.map (fun _ => .trace) ++ place.map fun _ => .debug := by
  rw [List.map_append, List.map_congr_left h, List.map_map]
  rfl

theorem Part.Complaint.level {p : Part} {position room : Nat} {e : Error} {complaint : List Record}
    (h : p.Complaint position room e complaint) : ∀ record ∈ complaint, record.level = .trace := by
  cases h with
  | overflow => exact List.forall_mem_singleton.mpr (p.level_overflowRecord position room)
  | interiorNul => exact List.forall_mem_nil _

theorem Leaf.Complaint.level {l : Leaf} {r : Reader} {e : Error} {complaint : List Record}
    (h : l.Complaint r e complaint) : ∀ record ∈ complaint, record.level = .trace := by
  cases h with
  | underflow => exact List.forall_mem_singleton.mpr rfl
  | invalidUtf8 => exact List.forall_mem_nil _
  | aboveBound => exact List.forall_mem_singleton.mpr rfl

theorem Part.encode_complains {p : Part} {b : Buffer N} (h : ¬ p.NulFree ∨ b.remaining < p.width) :
    ∃ e complaint, p.Complaint b.cursor b.remaining e complaint ∧ p.encode b = ⟨.error e, b, complaint⟩ := by
  by_cases hn : p.NulFree
  · have hroom : b.remaining < p.width := h.resolve_left (not_not_intro hn)
    refine ⟨_, _, .overflow hn hroom, ?_⟩
    obtain ⟨l, x⟩ := p
    cases l with
    | scalar _ | cstring | messageId => exact Buffer.encodeBytes_of_refused (Leaf.length_image _ x) hroom
    | text | boundedText => exact Buffer.encodeText_of_refused hn hroom
  · refine ⟨_, _, .interiorNul hn, ?_⟩
    obtain ⟨l, x⟩ := p
    cases l with
    | text | boundedText => exact Buffer.encodeText_of_nul hn b
    | scalar _ | cstring | messageId => exact absurd trivial hn

namespace Leaf

theorem decode_complains {l : Leaf} {r : Reader} {e : Error} (h : (l.decode r).result = .error e) :
    l.Complaint r e (l.decode r).log := by
  by_cases hs : l.Short r
  · obtain ⟨k, hk, hd⟩ := decode_eq_underflow hs
    rw [hd] at h ⊢
    cases h
    exact .underflow hk
  · obtain hd | ⟨limit, text, hl, htext, hlt, hd⟩ := decode_of_not_short hs h
    · rw [hd] at h ⊢
      cases h
      exact .invalidUtf8
    · rw [hd] at h ⊢
      cases h
      exact .aboveBound hl htext hlt

/-- More bytes make good no other failure than too few bytes. -/
theorem short_of_more {l : Leaf} {r s : Reader} {e : Error} {x : l.Value} (h : (l.decode r).result = .error e)
    (hs : (l.decode s).result = .ok x) (hmore : r.rest <+: s.rest) : l.Short r := by
  obtain ⟨taken, rest, hr, hw⟩ := wire_of_decode hs
  rw [hr] at hmore
  rcases Nat.lt_or_ge r.rest.length taken.length with hlt | hle
  · have hcut : r.rest <+: taken := List.prefix_of_prefix_length_le hmore (List.prefix_append taken rest) hlt.le
    exact hw.short hlt (List.prefix_iff_eq_take.mp hcut)
  · obtain ⟨more, hrest⟩ := List.prefix_of_prefix_length_le (List.prefix_append taken rest) hmore hle
    rw [decode_of_wire hw hrest.symm] at h
    cases h

end Leaf

/-! ## Leaves in a row -/

namespace Takes

variable {r r' s : Reader} {ps qs : List Part}

theorem forM_skip (h : Takes r ps r') : forM (ps.map Part.leaf) Leaf.skip r = ⟨.ok (), r', []⟩ := by
  induction h with
  | nil => rfl
  | @cons r r' p ps hp _ ih =>
    rw [Leaf.decode_of_ok hp] at ih
    rw [List.map_cons, List.forM_cons, bind_apply, Leaf.skip, void_apply, Leaf.decode_of_ok hp]
    simp only [Except.map, ih, List.append_nil]

theorem more (h : Takes r ps r') (hs : r.rest <+: s.rest) : Takes s ps (s.moveTo (s.position + widthSum ps)) := by
  obtain ⟨hres, -⟩ := decodeParts_eq_ok_iff.mpr ⟨rfl, h⟩
  obtain ⟨taken, rest, hr, hw, -⟩ := wire_of_decodeParts hres
  obtain ⟨more, hs⟩ := hs
  rw [hr, List.append_assoc] at hs
  rw [← hw.length_eq]
  exact hw.takes hs.symm

theorem unique (h : Takes r ps r') (h' : Takes r qs s) (hl : ps.map Part.leaf = qs.map Part.leaf) : ps = qs := by
  obtain ⟨hres, -⟩ := decodeParts_eq_ok_iff.mpr ⟨hl, h⟩
  obtain ⟨hres', -⟩ := decodeParts_eq_ok_iff.mpr ⟨rfl, h'⟩
  exact Except.ok.inj (hres.symm.trans hres')

theorem split (h : Takes r (ps ++ qs) s) : ∃ r', Takes r ps r' ∧ Takes r' qs s := by
  induction ps generalizing r with
  | nil => exact ⟨r, .nil r, h⟩
  | cons p ps ih =>
    cases h with
    | cons hp h =>
      obtain ⟨r', hps, hqs⟩ := ih h
      exact ⟨r', .cons hp hps, hqs⟩

theorem cut (h : Takes r ps s) {l : Leaf} {ls ms : List Leaf} (hl : ps.map Part.leaf = ls ++ l :: ms) :
    ∃ qs p between r', ps = qs ++ p :: between ∧ qs.map Part.leaf = ls ∧ p.leaf = l ∧ Takes r qs r' ∧
      (p.leaf.decode r').result = .ok p.value := by
  obtain ⟨qs, rest, rfl, rfl, hrest⟩ := List.map_eq_append_iff.mp hl
  obtain ⟨p, between, rfl, rfl, rfl⟩ := List.map_eq_cons_iff.mp hrest
  obtain ⟨r', hqs, hp⟩ := h.split
  cases hp with
  | cons hp _ => exact ⟨qs, p, between, r', rfl, rfl, rfl, hqs, hp⟩

end Takes

theorem Reader.rest_moveTo (r : Reader) (k : Nat) : (r.moveTo (r.position + k)).rest = r.rest.drop k := by
  rw [rest, rest, List.drop_drop]
  rfl

theorem eq_or_earlier {α : Type} {before before' after after' : List α} {x x' : α}
    (h : before ++ x :: after = before' ++ x' :: after') :
    before = before' ∧ x = x' ∨ (∃ between, before' = before ++ x :: between) ∨
      ∃ between, before = before' ++ x' :: between := by
  rcases List.append_eq_append_iff.mp h with ⟨between, hbefore, hafter⟩ | ⟨between, hbefore, hafter⟩
  · cases between with
    | nil =>
      rw [List.append_nil] at hbefore
      exact .inl ⟨hbefore.symm, (List.cons.inj hafter).1⟩
    | cons y between =>
      rw [← (List.cons.inj hafter).1] at hbefore
      exact .inr (.inl ⟨between, hbefore⟩)
  · cases between with
    | nil =>
      rw [List.append_nil] at hbefore
      exact .inl ⟨hbefore, (List.cons.inj hafter).1.symm⟩
    | cons y between =>
      rw [← (List.cons.inj hafter).1] at hbefore
      exact .inr (.inr ⟨between, hbefore⟩)

theorem widthSum_append (ps qs : List Part) : widthSum (ps ++ qs) = widthSum ps + widthSum qs := by
  simp only [← length_flatMap_image, List.flatMap_append, List.length_append]

theorem widthSum_lt_append_cons (before between : List Part) (p : Part) :
    widthSum before < widthSum (before ++ p :: between) := by
  have := p.leaf.width_pos p.value
  rw [widthSum_append, widthSum_cons]
  unfold Part.width
  omega

namespace Format

/-! ## The leaf that fails -/

theorem exists_place {f : Format} {k : Nat} (h : k < f.leaves.length) :
    ∃ earlier place later, f.places = earlier ++ place :: later ∧ earlier.length = k ∧ f.places[k]? = some place := by
  rw [← length_places] at h
  refine ⟨f.places.take k, f.places[k], f.places.drop (k + 1), ?_, ?_, List.getElem?_eq_getElem h⟩
  · rw [List.getElem_cons_drop, List.take_append_drop]
  · rw [List.length_take]
    omega

structure EncodeFailsAt (f : Format) (x : f.Value) (b : Buffer N) (before : List Part) (p : Part) : Prop where
  parts_eq : ∃ after, f.parts x = before ++ p :: after
  stops : Stops b.remaining before p

structure DecodeFailsAt (f : Format) (r : Reader) (before : List Part) (l : Leaf) (s : Reader) (e : Error) : Prop where
  leaves_eq : ∃ after, f.leaves = before.map Part.leaf ++ l :: after
  takes : Takes r before s
  fails : (l.decode s).result = .error e

theorem encode_of_ok {f : Format} {x : f.Value} {b : Buffer N} (h : (f.encode x b).result = .ok ()) :
    f.encode x b = ⟨.ok (), b.append (f.image x), []⟩ := by
  obtain ⟨hn, hw⟩ := encode_eq_ok_iff.mp h
  have hall : forM (f.parts x) Part.encode b = ⟨.ok (), b.append (f.image x), []⟩ := forM_encode_of_le hn hw
  have hlen : (f.parts x).length = f.places.length := by rw [length_parts, length_places]
  rw [encode_eq_forPlaced, forPlaced_of_ok hlen (congrArg Outcome.result hall), hall]

theorem EncodeFailsAt.encode {f : Format} {x : f.Value} {b : Buffer N} {before : List Part} {p : Part}
    (h : f.EncodeFailsAt x b before p) :
    ∃ place e complaint, f.places[before.length]? = some place ∧
      p.Complaint (b.cursor + widthSum before) (b.remaining - widthSum before) e complaint ∧
      (f.encode x b).result = .error e ∧ (f.encode x b).log = complaint ++ place.map .elementFailed := by
  obtain ⟨⟨after, hparts⟩, hstops⟩ := h
  have hleaf : before.length < f.leaves.length := by
    rw [← f.length_parts x, hparts, List.length_append, List.length_cons]
    omega
  obtain ⟨earlier, place, later, hplaces, hlen, hplace⟩ := exists_place hleaf
  have hbefore : forM before Part.encode b = ⟨.ok (), b.append (before.flatMap Part.image), []⟩ :=
    forM_encode_of_le hstops.nul_free hstops.fits
  have hcursor : (b.append (before.flatMap Part.image)).cursor = b.cursor + widthSum before := by
    rw [Buffer.cursor_append, length_flatMap_partImage]
  have hroom : (b.append (before.flatMap Part.image)).remaining = b.remaining - widthSum before := by
    rw [Buffer.remaining_append, length_flatMap_partImage]
  have hrefused : ¬ p.NulFree ∨ (b.append (before.flatMap Part.image)).remaining < p.width := by
    have := hstops.fits
    rw [hroom]
    exact hstops.refused.imp_right fun hlt => by omega
  obtain ⟨e, complaint, hcomplaint, hp⟩ := Part.encode_complains hrefused
  rw [hcursor, hroom] at hcomplaint
  have hrun := forPlaced_of_error hlen.symm hbefore (congrArg Outcome.result hp) after place later
  rw [← hparts, ← hplaces, ← encode_eq_forPlaced, hp] at hrun
  exact ⟨place, e, complaint, hplace, hcomplaint, congrArg Outcome.result hrun, congrArg Outcome.log hrun⟩

/-- The number that does not fit starts at 4, the first of the second row. -/
example : let rows : Vector (Vector UInt16 2) 2 := #v[#v[1, 2], #v[3, 4]]
    ((array (array (scalar .u16) 2) 2).encode rows (Buffer.empty 5)).log =
      [.bytesOverflow 4 2 1, .elementFailed 0, .elementFailed 1] := by decide

theorem log_decode_of_ok {f : Format} {r : Reader} {x : f.Value} (h : (f.decode r).result = .ok x) :
    (f.decode r).log = [] := by
  have hall := (decode_eq_ok_iff.mp ⟨h, rfl⟩).forM_skip
  rw [map_leaf_parts] at hall
  have hrun := forPlaced_of_ok f.length_places.symm (congrArg Outcome.result hall)
  rw [← decode_eq_forPlaced, hall, void_apply] at hrun
  exact congrArg Outcome.log hrun

theorem DecodeFailsAt.decode {f : Format} {r s : Reader} {before : List Part} {l : Leaf} {e : Error}
    (h : f.DecodeFailsAt r before l s e) :
    ∃ place complaint, f.places[before.length]? = some place ∧ l.Complaint s e complaint ∧
      (f.decode r).result = .error e ∧ (f.decode r).log = complaint ++ place.map .elementFailed := by
  obtain ⟨⟨after, hleaves⟩, htakes, hfails⟩ := h
  have hleaf : before.length < f.leaves.length := by
    rw [hleaves, List.length_append, List.length_map, List.length_cons]
    omega
  obtain ⟨earlier, place, later, hplaces, hlen, hplace⟩ := exists_place hleaf
  have hskip : l.skip s = ⟨.error e, (l.decode s).state, (l.decode s).log⟩ := by
    rw [Leaf.skip, void_apply, hfails]
    rfl
  have hmap : (before.map Part.leaf).length = earlier.length := by rw [List.length_map, hlen]
  have hrun := forPlaced_of_error hmap htakes.forM_skip (congrArg Outcome.result hskip) after place later
  rw [← hleaves, ← hplaces, ← decode_eq_forPlaced, void_apply, hskip] at hrun
  have hresult := (decode_eq_error_iff.mpr ⟨before, l, after, hleaves, htakes, hfails⟩).1
  exact ⟨place, (l.decode s).log, hplace, Leaf.decode_complains hfails, hresult, congrArg Outcome.log hrun⟩

/-! ## Which leaf it was -/

theorem EncodeFailsAt.not_earlier {f : Format} {x : f.Value} {N' : Nat} {b : Buffer N} {b' : Buffer N'}
    {before before' : List Part} {p p' : Part} (h : f.EncodeFailsAt x b before p)
    (h' : f.EncodeFailsAt x b' before' p') (hcursor : b.cursor = b'.cursor)
    (hlog : (f.encode x b).log = (f.encode x b').log) (between : List Part) : before' ≠ before ++ p :: between := by
  intro hbefore
  obtain ⟨place, e, complaint, -, hc, -, hl⟩ := h.encode
  obtain ⟨place', e', complaint', -, hc', -, hl'⟩ := h'.encode
  -- the second run has written `p`, so the first complains of its room
  have hp : p.NulFree := h'.stops.nul_free p (by rw [hbefore]; exact List.mem_append_cons_self)
  have hstart := hc.logStart_eq place
  rw [← hl, hlog, hl', hc'.logStart_eq place', if_pos hp, hcursor] at hstart
  have hlt := widthSum_lt_append_cons before between p
  rw [← hbefore] at hlt
  by_cases hp' : p'.NulFree
  · rw [if_pos hp', Option.some_inj] at hstart
    omega
  · rw [if_neg hp'] at hstart
    cases hstart

theorem EncodeFailsAt.eq_of_log_eq {f : Format} {x : f.Value} {N' : Nat} {b : Buffer N} {b' : Buffer N'}
    {before before' : List Part} {p p' : Part} (h : f.EncodeFailsAt x b before p)
    (h' : f.EncodeFailsAt x b' before' p') (hcursor : b.cursor = b'.cursor)
    (hlog : (f.encode x b).log = (f.encode x b').log) : before = before' ∧ p = p' := by
  obtain ⟨after, hparts⟩ := h.parts_eq
  obtain ⟨after', hparts'⟩ := h'.parts_eq
  rcases eq_or_earlier (hparts.symm.trans hparts') with heq | ⟨between, hb⟩ | ⟨between, hb⟩
  · exact heq
  · exact absurd hb (h.not_earlier h' hcursor hlog between)
  · exact absurd hb (h'.not_earlier h hcursor.symm hlog.symm between)

theorem DecodeFailsAt.same_or_short {f : Format} {r r' s s' : Reader} {before before' : List Part} {l l' : Leaf}
    {e e' : Error} (h : f.DecodeFailsAt r before l s e) (h' : f.DecodeFailsAt r' before' l' s' e')
    (hmore : r.rest <+: r'.rest) :
    before = before' ∧ l = l' ∨ l.Short s ∧ widthSum before < widthSum before' := by
  obtain ⟨after, hleaves⟩ := h.leaves_eq
  obtain ⟨after', hleaves'⟩ := h'.leaves_eq
  have htakes := h.takes.more hmore
  rcases eq_or_earlier (hleaves.symm.trans hleaves') with ⟨hsame, hl⟩ | ⟨between, hb⟩ | ⟨between, hb⟩
  · exact .inl ⟨htakes.unique h'.takes hsame, hl⟩
  · obtain ⟨qs, p, between, u, rfl, hqs, rfl, hu, hp⟩ := h'.takes.cut hb
    obtain rfl : before = qs := htakes.unique hu hqs.symm
    have hrest : s.rest <+: u.rest := by
      rw [h.takes.eq_moveTo, hu.eq_moveTo, Reader.rest_moveTo, Reader.rest_moveTo]
      exact hmore.drop _
    exact .inr ⟨Leaf.short_of_more h.fails hp hrest, widthSum_lt_append_cons before between p⟩
  · obtain ⟨qs, p, between, u, -, hqs, rfl, hu, hp⟩ := htakes.cut hb
    obtain rfl : before' = qs := h'.takes.unique hu hqs.symm
    rw [hu.eq_moveTo, ← h'.takes.eq_moveTo] at hp
    cases h'.fails.symm.trans hp

theorem DecodeFailsAt.eq_of_log_eq {f : Format} {r r' s s' : Reader} {before before' : List Part} {l l' : Leaf}
    {e e' : Error} (h : f.DecodeFailsAt r before l s e) (h' : f.DecodeFailsAt r' before' l' s' e')
    (hposition : r.position = r'.position) (hmore : r.rest <+: r'.rest)
    (hlog : (f.decode r).log = (f.decode r').log) : before = before' ∧ l = l' := by
  rcases h.same_or_short h' hmore with hsame | ⟨hshort, hlt⟩
  · exact hsame
  · obtain ⟨place, complaint, -, hc, -, hl⟩ := h.decode
    obtain ⟨place', complaint', -, hc', -, hl'⟩ := h'.decode
    obtain ⟨k, -, hk⟩ := Leaf.decode_eq_underflow hshort
    obtain rfl : e = .underflow k s.unread := Except.error.inj (h.fails.symm.trans (congrArg Outcome.result hk))
    have hstart := hc.logStart_eq place
    rw [← hl, hlog, hl', hc'.logStart_eq place'] at hstart
    have hs : s.position = r.position + widthSum before := congrArg Reader.position h.takes.eq_moveTo
    have hs' : s'.position = r'.position + widthSum before' := congrArg Reader.position h'.takes.eq_moveTo
    cases e' with
    | underflow =>
      have := Option.some.inj hstart
      omega
    | _ => cases hstart

end Format

/-- **The log of a failure tells where it was.** It holds what the leaf that failed complains of,
and then its indices in the arrays around it, innermost first. Two encodes of one value from one
cursor that log the same stop at the same leaf, and so do two decodes of which one has more bytes. -/
theorem failure_log_locates_leaf :
    (∀ (N : Nat) (f : Format) (x : f.Value) (b : Buffer N),
      ((f.encode x b).result = .ok () → (f.encode x b).log = []) ∧
      ∀ e, (f.encode x b).result = .error e → ∃ before p place complaint,
        f.EncodeFailsAt x b before p ∧ f.places[before.length]? = some place ∧
        p.Complaint (b.cursor + widthSum before) (b.remaining - widthSum before) e complaint ∧
        (f.encode x b).log = complaint ++ place.map .elementFailed ∧
        (f.encode x b).log.map Record.level = complaint.map (fun _ => .trace) ++ place.map fun _ => .debug) ∧
    (∀ (f : Format) (r : Reader),
      (∀ x, (f.decode r).result = .ok x → (f.decode r).log = []) ∧
      ∀ e, (f.decode r).result = .error e → ∃ before l s place complaint,
        f.DecodeFailsAt r before l s e ∧ f.places[before.length]? = some place ∧ l.Complaint s e complaint ∧
        (f.decode r).log = complaint ++ place.map .elementFailed ∧
        (f.decode r).log.map Record.level = complaint.map (fun _ => .trace) ++ place.map fun _ => .debug) ∧
    (∀ (M N : Nat) (f : Format) (x : f.Value) (b : Buffer M) (c : Buffer N) (before before' : List Part) (p p' : Part),
      f.EncodeFailsAt x b before p → f.EncodeFailsAt x c before' p' → b.cursor = c.cursor →
      (f.encode x b).log = (f.encode x c).log → before = before' ∧ p = p') ∧
    (∀ (f : Format) (r r' s s' : Reader) (before before' : List Part) (l l' : Leaf) (e e' : Error),
      f.DecodeFailsAt r before l s e → f.DecodeFailsAt r' before' l' s' e' → r.position = r'.position →
      r.rest <+: r'.rest → (f.decode r).log = (f.decode r').log → before = before' ∧ l = l') := by
  refine ⟨fun N f x b => ⟨fun hr => ?_, fun e hr => ?_⟩, fun f r => ⟨fun x => Format.log_decode_of_ok, fun e hr => ?_⟩,
    fun M N f x b c before before' p p' => Format.EncodeFailsAt.eq_of_log_eq,
    fun f r r' s s' before before' l l' e e' => Format.DecodeFailsAt.eq_of_log_eq⟩
  · rw [Format.encode_of_ok hr]
  · have hstops : ¬ (f.NulFree x ∧ f.width x ≤ b.remaining) := by
      rw [← Format.encode_eq_ok_iff, hr]
      exact fun h => nomatch h
    obtain ⟨before, p, after, hparts, hstops⟩ := exists_stops hstops
    have hfails : f.EncodeFailsAt x b before p := ⟨⟨after, hparts⟩, hstops⟩
    obtain ⟨place, e', complaint, hplace, hcomplaint, hresult, hlog⟩ := hfails.encode
    obtain rfl : e' = e := Except.error.inj (hresult.symm.trans hr)
    refine ⟨before, p, place, complaint, hfails, hplace, hcomplaint, hlog, ?_⟩
    rw [hlog, map_level hcomplaint.level]
  · obtain ⟨before, l, after, hleaves, htakes, hl⟩ := Format.decode_eq_error_iff.mp ⟨hr, rfl⟩
    have hfails : f.DecodeFailsAt r before l (f.decode r).state e := ⟨⟨after, hleaves⟩, htakes, hl⟩
    obtain ⟨place, complaint, hplace, hcomplaint, -, hlog⟩ := hfails.decode
    refine ⟨before, l, _, place, complaint, hfails, hplace, hcomplaint, hlog, ?_⟩
    rw [hlog, map_level hcomplaint.level]

/-- Numbers in two rows: the error is the same whichever fails, and the log is not. -/
theorem failure_log_locates_leaf_of_grid :
    let f := Format.record [.array (.array (.scalar .u16) 2) 2, .leaf .text]
    let x : f.Value := (#v[#v[1, 2], #v[3, 4]], "a", ())
    let b := (Buffer.empty 6).append [9]
    let c := (Buffer.empty 8).append [9]
    let r : Reader := ⟨[1], 0⟩
    let s : Reader := ⟨[1, 0, 2], 0⟩
    (f.encode x b).result = .error (.overflow 2 1) ∧ (f.encode x c).result = .error (.overflow 2 1) ∧
      (f.encode x b).log ≠ (f.encode x c).log ∧
      (∃ before p place complaint, f.EncodeFailsAt x c before p ∧ f.places[before.length]? = some place ∧
        p.Complaint (1 + widthSum before) (7 - widthSum before) (.overflow 2 1) complaint ∧
        (f.encode x c).log = complaint ++ place.map .elementFailed) ∧
      (f.encode x (Buffer.empty 10)).log = [] ∧
      (f.decode r).result = .error (.underflow 2 1) ∧ (f.decode s).result = .error (.underflow 2 1) ∧
      (f.decode r).log ≠ (f.decode s).log ∧
      (∃ before l s' place complaint, f.DecodeFailsAt s before l s' (.underflow 2 1) ∧
        f.places[before.length]? = some place ∧ l.Complaint s' (.underflow 2 1) complaint ∧
        (f.decode s).log = complaint ++ place.map .elementFailed) ∧
      ((Format.array (.scalar .u16) 3).decode ⟨[1, 0, 2, 0, 3, 0], 0⟩).log = [] := by
  intro f x b c r s
  obtain ⟨hencode, hdecode, hencoded, hdecoded⟩ := failure_log_locates_leaf
  let number (n : UInt16) : Part := ⟨.scalar .u16, n⟩
  have hparts : f.parts x = [number 1, number 2] ++ number 3 :: [number 4, ⟨.text, "a"⟩] := rfl
  have hb : f.EncodeFailsAt x b [number 1, number 2] (number 3) :=
    ⟨⟨_, hparts⟩, by decide, by decide, .inr (by decide)⟩
  have hparts' : f.parts x = [number 1, number 2, number 3] ++ number 4 :: [⟨.text, "a"⟩] := rfl
  have hc : f.EncodeFailsAt x c [number 1, number 2, number 3] (number 4) :=
    ⟨⟨_, hparts'⟩, by decide, by decide, .inr (by decide)⟩
  have hr : f.DecodeFailsAt r [] (.scalar .u16) r (.underflow 2 1) := ⟨⟨_, rfl⟩, .nil r, rfl⟩
  have hs : f.DecodeFailsAt s [number 1] (.scalar .u16) (s.moveTo 2) (.underflow 2 1) :=
    ⟨⟨_, rfl⟩, .cons rfl (.nil _), rfl⟩
  have hbresult : (f.encode x b).result = .error (.overflow 2 1) := (Format.encode_of_stops hparts hb.stops).1
  have hcresult : (f.encode x c).result = .error (.overflow 2 1) := (Format.encode_of_stops hparts' hc.stops).1
  obtain ⟨-, -, -, -, hrresult, -⟩ := hr.decode
  obtain ⟨-, -, -, -, hsresult, -⟩ := hs.decode
  have hnul : ∀ p ∈ f.parts x, p.NulFree := by
    rw [hparts]
    decide
  have hfits : (f.encode x (Buffer.empty 10)).result = .ok () := Format.encode_eq_ok_iff.mpr ⟨hnul, by decide⟩
  refine ⟨hbresult, hcresult, fun h => ?_, ?_, (hencode 10 f x (Buffer.empty 10)).1 hfits, hrresult, hsresult,
    fun h => ?_, ?_, (hdecode (.array (.scalar .u16) 3) _).1 #v[1, 2, 3] (by cbv)⟩
  · cases (hencoded 6 8 f x b c _ _ _ _ hb hc rfl h).1
  · obtain ⟨before, p, place, complaint, hfails, hplace, hcomplaint, hlog, -⟩ := (hencode 8 f x c).2 _ hcresult
    exact ⟨before, p, place, complaint, hfails, hplace, hcomplaint, hlog⟩
  · cases (hdecoded f r s _ _ _ _ _ _ _ _ hr hs rfl (by decide) h).1
  · obtain ⟨before, l, s', place, complaint, hfails, hplace, hcomplaint, hlog, -⟩ := (hdecode f s).2 _ hsresult
    exact ⟨before, l, s', place, complaint, hfails, hplace, hcomplaint, hlog⟩

end Marshal
