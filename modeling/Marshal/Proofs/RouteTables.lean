import Marshal.Proofs.Agreement
import Marshal.Routing

/-!
# What the calls on a route table return

Registering, dispatching and serving by the cases in which they end, and what
storing a handler's state leaves as it was.
-/

namespace Marshal

open Marshal.Action

namespace RouteTable

variable {κ : Type} {N H : Nat} {t : RouteTable κ N H} {id : MessageId} {x : Exchange N} {route : Route κ N}

theorem contains_iff : t.contains id = true ↔ id ∈ t.ids := by simp [contains, ids]

theorem find?_eq_none_iff : t.find? id = none ↔ id ∉ t.ids := by simp [find?, ids]

theorem mem_of_find? (h : t.find? id = some route) : route ∈ t.routes ∧ route.id = id := by
  unfold find? at h
  exact ⟨List.mem_of_find?_eq_some h, by simpa using List.find?_some h⟩

theorem find?_of_mem (hn : t.ids.Nodup) (h : route ∈ t.routes) : t.find? route.id = some route := by
  cases hf : t.find? route.id with
  | none => exact absurd (List.mem_map_of_mem h) (find?_eq_none_iff.mp hf)
  | some found =>
    obtain ⟨hm, hid⟩ := mem_of_find? hf
    rw [List.inj_on_of_nodup_map hn hm h hid]

/-! ## Storing -/

@[simp] theorem ids_store (state : κ) : (t.store id state).ids = t.ids := by
  simp only [store, ids, List.map_map]
  apply List.map_congr_left
  intro route _
  simp only [Function.comp_apply]
  split <;> rfl

theorem find?_store (id' : MessageId) (state : κ) :
    (t.store id state).find? id' =
      (t.find? id').map fun route => if route.id = id then { route with state } else route := by
  simp only [store, find?, List.find?_map]
  congr 2
  funext route
  simp only [Function.comp_apply]
  split <;> rfl

theorem find?_store_self (state : κ) (h : t.find? id = some route) :
    (t.store id state).find? id = some { route with state } := by
  rw [find?_store, h, Option.map_some, if_pos (mem_of_find? h).2]

theorem find?_store_of_ne {id' : MessageId} (state : κ) (h : id' ≠ id) :
    (t.store id state).find? id' = t.find? id' := by
  rw [find?_store]
  cases hf : t.find? id' with
  | none => rfl
  | some route => rw [Option.map_some, if_neg (by rw [(mem_of_find? hf).2]; exact h)]

/-! ## Registering -/

theorem register_of_mem (state : κ) (handler : Handler κ N) (h : id ∈ t.ids) :
    t.register id state handler = ⟨.error (.duplicateMessage id), t, [.registeredTwice id]⟩ := by
  rw [register, if_pos (contains_iff.mpr h)]

theorem register_of_full (state : κ) (handler : Handler κ N) (h : id ∉ t.ids) (hfull : H ≤ t.routes.length) :
    t.register id state handler = ⟨.error .resourceExhausted, t, [.tableFull H]⟩ := by
  rw [register, if_neg (by rwa [contains_iff]), if_pos hfull]

theorem register_of_room (state : κ) (handler : Handler κ N) (h : id ∉ t.ids) (hroom : t.routes.length < H) :
    t.register id state handler = ⟨.ok (), ⟨t.routes ++ [⟨id, state, handler⟩]⟩, [.registered id]⟩ := by
  rw [register, if_neg (by rwa [contains_iff]), if_neg (Nat.not_le.mpr hroom)]

/-! ## Dispatching -/

theorem dispatch_of_not_mem (x : Exchange N) (h : id ∉ t.ids) :
    dispatch id (t, x) = ⟨.error (.unknownMessage id), (t, x), [.unrouted id]⟩ := by
  simp only [dispatch, find?_eq_none_iff.mpr h]

theorem dispatch_of_find (x : Exchange N) (h : t.find? id = some route) :
    dispatch id (t, x) =
      let o := route.handler (route.state, x)
      ⟨o.result, (t.store id o.state.1, o.state.2), .dispatching id :: o.log⟩ := by
  simp only [dispatch, h]

theorem serve_of_error {e : Error} (h : (Buffer.read Reader.decodeMessageId x.input).result = .error e) :
    (serve (t, x)).result = .error e ∧
      (serve (t, x)).state = (t, ⟨(Buffer.read Reader.decodeMessageId x.input).state, x.output⟩) :=
  bind_of_error (a := (Exchange.onInput (Buffer.read Reader.decodeMessageId)).onSnd) (s := (t, x)) h

theorem serve_of_ok (h : (Buffer.read Reader.decodeMessageId x.input).result = .ok id) :
    (serve (t, x)).result =
        (dispatch id (t, ⟨(Buffer.read Reader.decodeMessageId x.input).state, x.output⟩)).result ∧
      (serve (t, x)).state =
        (dispatch id (t, ⟨(Buffer.read Reader.decodeMessageId x.input).state, x.output⟩)).state :=
  bind_of_ok (a := (Exchange.onInput (Buffer.read Reader.decodeMessageId)).onSnd) (s := (t, x)) h

end RouteTable

end Marshal
