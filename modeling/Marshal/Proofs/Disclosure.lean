import Marshal.Proofs.StaleBytes

/-!
# Calls that bring old bytes back

A call discloses something if its result, or the state after it, tells a
buffer after a reset from an empty one. Moving the cursor or the used count
over old bytes does, and so does looking at the storage. A filling is handed
the storage, so it does not help that it reports no more bytes than it writes:
it may take them from old ones, write them elsewhere, or tell in its failure
what it saw.
-/

namespace Marshal

open Marshal.Action Session

variable {N : Nat}

def Session.Call.Tells (call : Call N) (b c : Buffer N) : Prop :=
  (call.step b).result = (call.step c).result →
    (Call.state.step (call.step b).state).result ≠ (Call.state.step (call.step c).state).result

theorem state_result_ne {b c : Buffer N} (h : b.written = c.written → b.message ≠ c.message) :
    (Call.state.step b).result ≠ (Call.state.step c).result := by
  intro heq
  obtain ⟨-, -, -, hw, hm⟩ := Answer.buffer.inj (Except.ok.inj heq)
  exact h hw hm

theorem take_ne {s t : Vector UInt8 N} {i : Fin N} (h : s.get i ≠ t.get i) {n : Nat} (hn : i < n) :
    s.toList.take n ≠ t.toList.take n := by
  intro heq
  have := congrArg (·[i.val]?) heq
  simp only [List.getElem?_take, hn, if_true, Vector.getElem?_toList] at this
  rw [Vector.getElem?_eq_getElem i.isLt, Vector.getElem?_eq_getElem i.isLt] at this
  exact h (Option.some.inj this)

theorem get_empty (i : Fin N) : (Buffer.empty N).storage.get i = 0 := Vector.getElem_replicate i.isLt

/-! ## Moving over old bytes -/

/-- Three ways to bring the cursor or the used count to `n` over whatever the bytes are. -/
def exposing (n : Nat) : List (Call N) := [.seek n, .restore ⟨n⟩, .receive fun storage => (.ok n, storage)]

theorem exposed {b : Buffer N} {i : Nat} (hi : i < N) (h : b.storage[i] ≠ 0) :
    ∀ c ∈ exposing (i + 1), (Call.state.step (c.step b.reset).state).result ≠
      (Call.state.step (c.step (.empty N)).state).result := by
  have hget : b.storage.get ⟨i, hi⟩ ≠ (Buffer.empty N).storage.get ⟨i, hi⟩ := by rwa [get_empty]
  have hne : b.storage.toList.take (i + 1) ≠ (Buffer.empty N).storage.toList.take (i + 1) :=
    take_ne hget (Nat.lt_succ_self i)
  have hseek : ∀ c : Buffer N, ((Call.seek (i + 1)).step c).state = { c with cursor := i + 1 } := by
    intro c
    show (Buffer.seek (i + 1) c).state = _
    rw [Buffer.seek_of_le (by omega)]
  intro c hc
  simp only [exposing, List.mem_cons, List.not_mem_nil, or_false] at hc
  rcases hc with rfl | rfl | rfl
  · rw [hseek, hseek]
    exact state_result_ne fun hw => absurd hw hne
  · show (Call.state.step ((Call.seek (i + 1)).step b.reset).state).result ≠
      (Call.state.step ((Call.seek (i + 1)).step (.empty N)).state).result
    rw [hseek, hseek]
    exact state_result_ne fun hw => absurd hw hne
  · refine state_result_ne fun _ hm => hne ?_
    have hmin : min (i + 1) N = i + 1 := by omega
    change b.storage.toList.take (min (i + 1) N) = (Buffer.empty N).storage.toList.take (min (i + 1) N) at hm
    rwa [hmin] at hm

theorem storage_tells {b : Buffer N} {i : Fin N} (h : b.storage.get i ≠ 0) : Call.storage.Tells b.reset (.empty N) := by
  intro heq _
  have hbytes : b.storage.toList = (Buffer.empty N).storage.toList := Answer.bytes.inj (Except.ok.inj heq)
  apply h
  rw [Vector.toList_inj.mp hbytes, get_empty]

/-! ## Fillings that write what they report -/

/-- What a filling returns and which bytes it writes, given the storage. -/
def Plan (N : Nat) : Type := Vector UInt8 N → Except String Nat × List (Fin N × UInt8)

namespace Plan

def write (storage : Vector UInt8 N) (writes : List (Fin N × UInt8)) : Vector UInt8 N :=
  writes.foldl (fun storage (i, x) => storage.set i x i.isLt) storage

def fill (plan : Plan N) (storage : Vector UInt8 N) : Except String Nat × Vector UInt8 N :=
  let (result, writes) := plan storage
  (result, write storage writes)

/-- No more bytes are reported than are written, wherever these are and whatever they are. -/
def ReportsWritten (plan : Plan N) : Prop :=
  ∀ storage reported, (plan storage).1 = .ok reported → reported ≤ ((plan storage).2.map Prod.fst).dedup.length

def copying (i : Fin N) : Plan N := fun storage => (.ok 1, [(⟨0, i.pos⟩, storage.get i)])

/-- Writes every byte but the one at `i`, and reports as many as it writes. -/
def sparing (i : Fin N) : Plan N := fun _ => (.ok (N - 1), ((List.finRange N).erase i).map (·, 0))

def naming (i : Fin N) : Plan N := fun storage => (.error (storage.get i).toNat.repr, [])

def disclosing (i : Fin N) : List (Plan N) := [copying i, sparing i, naming i]

theorem indices_sparing (i : Fin N) (storage : Vector UInt8 N) :
    (sparing i storage).2.map Prod.fst = (List.finRange N).erase i := by
  rw [sparing, List.map_map]
  exact List.map_id _

theorem get_write_of_not_mem {writes : List (Fin N × UInt8)} {i : Fin N} (h : i ∉ writes.map Prod.fst)
    (storage : Vector UInt8 N) : (write storage writes).get i = storage.get i := by
  induction writes generalizing storage with
  | nil => rfl
  | cons w writes ih =>
    rw [List.map_cons, List.mem_cons, not_or] at h
    obtain ⟨hw, hrest⟩ := h
    exact (ih hrest _).trans (Vector.getElem_set_ne w.1.isLt i.isLt (Fin.val_ne_of_ne (Ne.symm hw)))

theorem copying_reportsWritten (i : Fin N) : (copying i).ReportsWritten := by
  intro storage reported hr
  cases hr
  exact Nat.le_refl 1

theorem sparing_reportsWritten (i : Fin N) : (sparing i).ReportsWritten := by
  intro storage reported hr
  cases hr
  have hnodup : ((List.finRange N).erase i).Nodup := (List.nodup_finRange N).erase i
  rw [indices_sparing, hnodup.dedup, List.length_erase_of_mem (List.mem_finRange i), List.length_finRange]

theorem naming_reportsWritten (i : Fin N) : (naming i).ReportsWritten := by
  intro storage reported hr
  cases hr

theorem state_receive {plan : Plan N} {b : Buffer N} {reported : Nat} (h : (plan b.storage).1 = .ok reported) :
    (Buffer.receive plan.fill b).state = ⟨write b.storage (plan b.storage).2, 0, min reported N⟩ := by
  unfold Buffer.receive fill
  dsimp only
  rcases hp : plan b.storage with ⟨_ | n, writes⟩
  · rw [hp] at h
    cases h
  · rw [hp] at h
    cases h
    rfl

theorem receive_tells {plan : Plan N} {b c : Buffer N} {reported : Nat} (hb : (plan b.storage).1 = .ok reported)
    (hc : (plan c.storage).1 = .ok reported) {i : Fin N} (hi : i < reported)
    (h : (write b.storage (plan b.storage).2).get i ≠ (write c.storage (plan c.storage).2).get i) :
    (Call.receive plan.fill).Tells b c := by
  intro _
  refine state_result_ne fun _ => ?_
  show (Buffer.receive plan.fill b).state.message ≠ (Buffer.receive plan.fill c).state.message
  rw [state_receive hb, state_receive hc]
  exact take_ne h (Nat.lt_min.mpr ⟨hi, i.isLt⟩)

variable {b : Buffer N} {i : Fin N} (h : b.storage.get i ≠ 0)

include h

theorem copying_tells : (Call.receive (copying i).fill).Tells b.reset (.empty N) := by
  have hfront (storage : Vector UInt8 N) : (write storage (copying i storage).2).get ⟨0, i.pos⟩ = storage.get i :=
    Vector.getElem_set_self i.pos
  refine receive_tells rfl rfl (i := ⟨0, i.pos⟩) Nat.one_pos ?_
  rw [hfront, hfront, get_empty]
  exact h

theorem sparing_tells (hi : i.val + 1 < N) : (Call.receive (sparing i).fill).Tells b.reset (.empty N) := by
  have hspared (storage : Vector UInt8 N) : (write storage (sparing i storage).2).get i = storage.get i := by
    apply get_write_of_not_mem
    rw [indices_sparing]
    exact (List.nodup_finRange N).not_mem_erase
  refine receive_tells rfl rfl (i := i) (Nat.lt_sub_of_add_lt hi) ?_
  rw [hspared, hspared, get_empty]
  exact h

theorem naming_tells : (Call.receive (naming i).fill).Tells b.reset (.empty N) := by
  intro heq _
  have htext : (b.storage.get i).toNat.repr = ((Buffer.empty N).storage.get i).toNat.repr :=
    Fault.transport.inj (Except.error.inj heq)
  apply h
  rw [UInt8.toNat_inj.mp (Nat.repr_inj.mp htext), get_empty]

theorem disclosed (hi : i.val + 1 < N) :
    ∀ plan ∈ disclosing i, plan.ReportsWritten ∧ (Call.receive plan.fill).Tells b.reset (.empty N) := by
  intro plan hplan
  simp only [disclosing, List.mem_cons, List.not_mem_nil, or_false] at hplan
  rcases hplan with rfl | rfl | rfl
  · exact ⟨copying_reportsWritten i, copying_tells h⟩
  · exact ⟨sparing_reportsWritten i, sparing_tells h hi⟩
  · exact ⟨naming_reportsWritten i, naming_tells h⟩

end Plan

end Marshal
