import Marshal.Proofs.RouteTables
import Marshal.Session.Service

/-!
# Every handler sees its own exchanges only

What happens to a route table is a list of events: a registration that
succeeded, or an exchange handed to the handler of an identifier. The table
after any session is computed from them one route at a time. A route has the
handler it was registered with, and the state of it depends on nothing but the
exchanges handed to its own identifier.
-/

namespace Marshal

open Session

variable {κ : Type} {N H : Nat}

def Route.after (r : Route κ N) (xs : List (Exchange N)) : Route κ N :=
  { r with state := xs.foldl (fun state x => (r.handler (state, x)).state.1) r.state }

@[simp] theorem Route.after_id (r : Route κ N) (xs : List (Exchange N)) : (r.after xs).id = r.id := rfl

theorem Route.after_append (r : Route κ N) (xs : List (Exchange N)) (x : Exchange N) :
    r.after (xs ++ [x]) = { r.after xs with state := (r.handler ((r.after xs).state, x)).state.1 } := by
  simp [Route.after]

/-! ## Events -/

inductive Event (κ : Type) (N : Nat)
  | registered (r : Route κ N)
  | delivered (id : MessageId) (x : Exchange N)

namespace Event

def route? : Event κ N → Option (Route κ N)
  | registered r => some r
  | delivered .. => none

def exchange? (id : MessageId) : Event κ N → Option (Exchange N)
  | registered _ => none
  | delivered id' x => if id' = id then some x else none

end Event

def registrations (history : List (Event κ N)) : List (Route κ N) := history.filterMap Event.route?

def deliveries (id : MessageId) (history : List (Event κ N)) : List (Exchange N) :=
  history.filterMap (Event.exchange? id)

section
variable (history : List (Event κ N)) (r : Route κ N) (id : MessageId) (x : Exchange N)

@[simp] theorem registrations_registered :
    registrations (history ++ [.registered r]) = registrations history ++ [r] := by
  simp [registrations, Event.route?]

@[simp] theorem registrations_delivered :
    registrations (history ++ [.delivered id x]) = registrations history := by
  simp [registrations, Event.route?]

@[simp] theorem deliveries_registered : deliveries id (history ++ [.registered r]) = deliveries id history := by
  simp [deliveries, Event.exchange?]

@[simp] theorem deliveries_self : deliveries id (history ++ [.delivered id x]) = deliveries id history ++ [x] := by
  simp [deliveries, Event.exchange?]

theorem deliveries_of_ne {id' : MessageId} (h : id ≠ id') :
    deliveries id' (history ++ [.delivered id x]) = deliveries id' history := by
  simp [deliveries, Event.exchange?, h]

end

/-! ## The table by its history -/

/-- The table is what the history says, and no exchange went to an identifier before it was
registered. -/
structure RouteTable.Follows (t : RouteTable κ N H) (history : List (Event κ N)) : Prop where
  nodup : t.ids.Nodup
  length_le : t.routes.length ≤ H
  routes_eq : t.routes = (registrations history).map fun r => r.after (deliveries r.id history)
  unrouted : ∀ id, id ∉ t.ids → deliveries id history = []

namespace RouteTable.Follows

variable {t : RouteTable κ N H} {history : List (Event κ N)}

theorem empty : (RouteTable.empty : RouteTable κ N H).Follows [] :=
  ⟨List.nodup_nil, Nat.zero_le _, rfl, fun _ _ => rfl⟩

theorem ids_eq (h : t.Follows history) : t.ids = (registrations history).map Route.id := by
  rw [ids, h.routes_eq, List.map_map]
  rfl

theorem mem_ids_iff (h : t.Follows history) {id : MessageId} :
    id ∈ t.ids ↔ ∃ r ∈ registrations history, r.id = id := by
  rw [h.ids_eq, List.mem_map]

theorem find?_eq (h : t.Follows history) {r : Route κ N} (hr : r ∈ registrations history) :
    t.find? r.id = some (r.after (deliveries r.id history)) := by
  have hmem : r.after (deliveries r.id history) ∈ t.routes := by
    rw [h.routes_eq]
    exact List.mem_map.mpr ⟨r, hr, rfl⟩
  exact find?_of_mem h.nodup hmem

theorem register (h : t.Follows history) {r : Route κ N} (hid : r.id ∉ t.ids) (hroom : t.routes.length < H) :
    (⟨t.routes ++ [r]⟩ : RouteTable κ N H).Follows (history ++ [.registered r]) := by
  have hids : ids (⟨t.routes ++ [r]⟩ : RouteTable κ N H) = t.ids ++ [r.id] := by simp [ids]
  refine ⟨?_, ?_, ?_, fun id hnew => ?_⟩
  · rw [hids]
    exact List.nodup_append_comm.mp (List.nodup_cons.mpr ⟨hid, h.nodup⟩)
  · simp only [List.length_append, List.length_singleton]
    omega
  · -- nothing was handed to the new identifier yet
    have hnew : r.after (deliveries r.id history) = r := by rw [h.unrouted r.id hid]; rfl
    simp only [registrations_registered, deliveries_registered, List.map_append, List.map_singleton, hnew,
      ← h.routes_eq]
  · rw [deliveries_registered]
    apply h.unrouted
    rw [hids] at hnew
    exact fun hold => hnew (List.mem_append_left _ hold)

theorem deliver (h : t.Follows history) {r : Route κ N} (hr : r ∈ registrations history) (x : Exchange N) :
    (t.store r.id (r.handler ((r.after (deliveries r.id history)).state, x)).state.1).Follows
      (history ++ [.delivered r.id x]) := by
  refine ⟨by rw [ids_store]; exact h.nodup, by simpa [store] using h.length_le, ?_, fun id hid => ?_⟩
  · have hinj : ∀ r' ∈ registrations history, r'.id = r.id → r' = r := by
      intro r' hr' hid
      exact List.inj_on_of_nodup_map (h.ids_eq ▸ h.nodup) hr' hr hid
    rw [registrations_delivered, store, h.routes_eq, List.map_map]
    apply List.map_congr_left
    intro r' hr'
    rw [Function.comp_apply, Route.after_id]
    split
    · next hid => simp [hinj r' hr' hid, Route.after_append]
    · next hid => rw [deliveries_of_ne _ _ _ (Ne.symm hid)]
  · rw [ids_store] at hid
    have hne : r.id ≠ id := fun heq => hid (heq ▸ h.mem_ids_iff.mpr ⟨r, hr, rfl⟩)
    rw [deliveries_of_ne _ _ _ hne, h.unrouted id hid]

end RouteTable.Follows

/-! ## Sessions -/

def Exchange.tagged? (x : Exchange N) : Option (MessageId × Exchange N) :=
  let o := Buffer.read Reader.decodeMessageId x.input
  match o.result with
  | .ok id => some (id, ⟨o.state, x.output⟩)
  | .error _ => none

namespace RouteTable

variable {t : RouteTable κ N H} {id : MessageId} {x x' : Exchange N}

theorem serve_of_tagged (h : x.tagged? = some (id, x')) :
    (serve (t, x)).result = (dispatch id (t, x')).result ∧ (serve (t, x)).state = (dispatch id (t, x')).state := by
  simp only [Exchange.tagged?] at h
  split at h
  · next hid =>
    cases h
    exact serve_of_ok hid
  · cases h

theorem serve_of_untagged (h : x.tagged? = none) : (serve (t, x)).state.1 = t := by
  simp only [Exchange.tagged?] at h
  split at h
  · cases h
  · next he => rw [(serve_of_error he).2]

end RouteTable

namespace Session

def ServiceCall.turn : ServiceCall κ N → Exchange N → Exchange N
  | .serveBack, x => x.swap
  | _, x => x

namespace Service

/-- The identifier that a call comes to, if any, and the exchange for its handler. -/
def request? (s : Service κ N H) : ServiceCall κ N → Option (MessageId × Exchange N)
  | .dispatch id => some (id, s.exchange)
  | .serve => s.exchange.tagged?
  | .serveBack => s.exchange.swap.tagged?
  | _ => none

def event? (s : Service κ N H) (c : ServiceCall κ N) : Option (Event κ N) :=
  match c with
  | .register id state handler =>
    match (s.step c).1.result with
    | .ok _ => some (.registered ⟨id, state, handler⟩)
    | .error _ => none
  | c =>
    match s.request? c with
    | some (id, x) => if s.table.contains id then some (.delivered id x) else none
    | none => none

def history (s : Service κ N H) : List (ServiceCall κ N) → List (Event κ N)
  | [] => []
  | c :: rest => (s.event? c).toList ++ (s.step c).2.history rest

structure Returns (s : Service κ N H) (c : ServiceCall κ N) (result : Except Error Unit) (t : RouteTable κ N H)
    (x : Exchange N) : Prop where
  result_eq : (s.step c).1.result = verdict result
  table_eq : (s.step c).2.table = t
  exchange_eq : c.turn (s.step c).2.exchange = x

variable {s : Service κ N H} {c : ServiceCall κ N} {id : MessageId} {x : Exchange N} {past : List (Event κ N)}

theorem returns_of_request (h : s.request? c = some (id, x)) :
    let o := RouteTable.dispatch id (s.table, x)
    s.Returns c o.result o.state.1 o.state.2 := by
  cases c with
  | dispatch id' =>
    cases h
    exact ⟨rfl, rfl, rfl⟩
  | serve =>
    obtain ⟨hr, hs⟩ := RouteTable.serve_of_tagged (t := s.table) h
    exact ⟨congrArg verdict hr, congrArg Prod.fst hs, congrArg Prod.snd hs⟩
  | serveBack =>
    obtain ⟨hr, hs⟩ := RouteTable.serve_of_tagged (t := s.table) h
    exact ⟨congrArg verdict hr, congrArg Prod.fst hs, congrArg Prod.snd hs⟩
  | _ => cases h

theorem table_of_no_request (h : s.request? c = none) (hc : ∀ id state handler, c ≠ .register id state handler) :
    (s.step c).2.table = s.table := by
  cases c with
  | register id state handler => exact absurd rfl (hc id state handler)
  | dispatch id => cases h
  | serve => exact RouteTable.serve_of_untagged h
  | serveBack => exact RouteTable.serve_of_untagged h
  | startCall id side => cases side <;> rfl
  | station side c => cases side <;> rfl
  | _ => rfl

theorem event?_of_request (h : s.request? c = some (id, x)) :
    s.event? c = if s.table.contains id then some (.delivered id x) else none := by
  cases c with
  | register id state handler => cases h
  | _ => simp only [event?, h]

theorem event?_of_no_request (h : s.request? c = none) (hc : ∀ id state handler, c ≠ .register id state handler) :
    s.event? c = none := by
  cases c with
  | register id state handler => exact absurd rfl (hc id state handler)
  | _ => simp only [event?, h]

/-! ## Runs -/

theorem follows_register (h : s.table.Follows past) (id : MessageId) (state : κ) (handler : Handler κ N) :
    (s.step (.register id state handler)).2.table.Follows
      (past ++ (s.event? (.register id state handler)).toList) := by
  simp only [step, event?, report]
  by_cases hid : id ∈ s.table.ids
  · rw [RouteTable.register_of_mem state handler hid]
    simpa [verdict, Except.mapError, Except.map] using h
  by_cases hroom : s.table.routes.length < H
  · rw [RouteTable.register_of_room state handler hid hroom]
    exact h.register (r := ⟨id, state, handler⟩) hid hroom
  · rw [RouteTable.register_of_full state handler hid (Nat.le_of_not_lt hroom)]
    simpa [verdict, Except.mapError, Except.map] using h

theorem follows_request (h : s.table.Follows past) (hq : s.request? c = some (id, x)) :
    (s.step c).2.table.Follows (past ++ (s.event? c).toList) := by
  rw [(returns_of_request hq).table_eq, event?_of_request hq]
  by_cases hid : id ∈ s.table.ids
  · obtain ⟨r, hr, rfl⟩ := h.mem_ids_iff.mp hid
    rw [RouteTable.dispatch_of_find x (h.find?_eq hr), if_pos (RouteTable.contains_iff.mpr hid)]
    exact h.deliver hr x
  · rw [RouteTable.dispatch_of_not_mem x hid, if_neg (by rwa [RouteTable.contains_iff])]
    simpa using h

theorem follows_step (h : s.table.Follows past) (c : ServiceCall κ N) :
    (s.step c).2.table.Follows (past ++ (s.event? c).toList) := by
  cases hq : s.request? c with
  | some q => exact follows_request h hq
  | none =>
    by_cases hc : ∃ id state handler, c = .register id state handler
    · obtain ⟨id, state, handler, rfl⟩ := hc
      exact follows_register h id state handler
    · have hc : ∀ id state handler, c ≠ .register id state handler := fun id state handler heq =>
        hc ⟨id, state, handler, heq⟩
      rw [table_of_no_request hq hc, event?_of_no_request hq hc]
      simpa using h

theorem follows_run (h : s.table.Follows past) (calls : List (ServiceCall κ N)) :
    (s.run calls).2.table.Follows (past ++ s.history calls) := by
  induction calls generalizing s past with
  | nil => simpa [run, history] using h
  | cons c rest ih =>
    have hstep := ih (follows_step h c)
    rwa [List.append_assoc] at hstep

end Service

end Session

structure RouteTable.Registers (t : RouteTable κ N H) (r : Route κ N) (o : Outcome Error (RouteTable κ N H) Unit) :
    Prop where
  duplicate_iff : o.result = .error (.duplicateMessage r.id) ↔ r.id ∈ t.ids
  exhausted_iff : o.result = .error .resourceExhausted ↔ r.id ∉ t.ids ∧ t.routes.length = H
  ok_iff : o.result = .ok () ↔ r.id ∉ t.ids ∧ t.routes.length < H
  routes_of_ok : o.result = .ok () → o.state.routes = t.routes ++ [r]
  unchanged_of_error : ∀ e, o.result = .error e → o.state = t

theorem RouteTable.Follows.registers {t : RouteTable κ N H} {history : List (Event κ N)} (h : t.Follows history)
    (r : Route κ N) : t.Registers r (t.register r.id r.state r.handler) := by
  have hle := h.length_le
  by_cases hid : r.id ∈ t.ids
  · rw [register_of_mem r.state r.handler hid]
    constructor <;> simp [hid]
  by_cases hroom : t.routes.length < H
  · rw [register_of_room r.state r.handler hid hroom]
    constructor <;> simp [hid, hroom, hroom.ne]
  · have hfull : t.routes.length = H := by omega
    rw [register_of_full r.state r.handler hid hfull.ge]
    constructor <;> simp [hid, hfull]

/-- **Routes are isolated.** After every session the table holds the registered routes in order,
each with the state that the exchanges handed to its identifier lead to. A call returns what its one
handler returns and leaves the other routes alone. -/
theorem routes_isolated (input output : Station N) (calls : List (ServiceCall κ N)) :
    let start : Service κ N H := ⟨.empty, input, output⟩
    let s := (start.run calls).2
    let history := start.history calls
    let registered := registrations history
    s.table.routes = registered.map (fun r => r.after (deliveries r.id history)) ∧
    s.table.ids = registered.map Route.id ∧ s.table.ids.Nodup ∧ s.table.ids.length ≤ H ∧
    (∀ id, s.table.contains id = true ↔ ∃ r ∈ registered, r.id = id) ∧
    (∀ r : Route κ N, s.table.Registers r (s.table.register r.id r.state r.handler)) ∧
    ∀ c id x, s.request? c = some (id, x) →
      (id ∉ s.table.ids → s.Returns c (.error (.unknownMessage id)) s.table x) ∧
      ∀ r ∈ registered, r.id = id →
        let o := r.handler ((r.after (deliveries id history)).state, x)
        s.Returns c o.result (s.table.store id o.state.1) o.state.2 ∧
        (s.step c).2.table.find? id = some { r with state := o.state.1 } ∧
        ∀ id' ≠ id, (s.step c).2.table.find? id' = s.table.find? id' := by
  intro start s history registered
  have h : s.table.Follows history := Service.follows_run (s := start) .empty calls
  refine ⟨h.routes_eq, h.ids_eq, h.nodup, ?_, fun id => ?_, h.registers, fun c id x hq => ⟨fun hid => ?_, ?_⟩⟩
  · simpa [RouteTable.ids] using h.length_le
  · rw [RouteTable.contains_iff, h.mem_ids_iff]
  · have hreturns := Service.returns_of_request hq
    rwa [RouteTable.dispatch_of_not_mem x hid] at hreturns
  · rintro r hr rfl o
    have hfind := h.find?_eq hr
    have hreturns := Service.returns_of_request hq
    rw [RouteTable.dispatch_of_find x hfind] at hreturns
    refine ⟨hreturns, ?_, fun id' hne => ?_⟩
    · have hself := RouteTable.find?_store_self o.state.1 hfind
      rw [hreturns.table_eq]
      exact hself
    · rw [hreturns.table_eq]
      exact RouteTable.find?_store_of_ne _ hne

/-- The table is full, and its one handler fails, but counts first. -/
theorem routes_isolated_of_full_table :
    let counting : Handler Nat 4 := fun (count, x) => ⟨.error .invalidParameter, (count + 1, x), []⟩
    let calls : List (ServiceCall Nat 4) := [.dispatch ⟨9⟩, .register ⟨9⟩ 0 counting, .dispatch ⟨9⟩,
      .register ⟨5⟩ 0 counting, .dispatch ⟨9⟩]
    let s := ((Service.fresh Nat 4 1).run calls).2
    s.table.routes = [⟨⟨9⟩, 2, counting⟩] ∧ s.table.ids.Nodup ∧ s.table.contains ⟨9⟩ = true ∧
      (s.table.register ⟨9⟩ 0 counting).result = .error (.duplicateMessage ⟨9⟩) ∧
      (s.table.register ⟨5⟩ 0 counting).result = .error .resourceExhausted ∧
      s.Returns (.dispatch ⟨5⟩) (.error (.unknownMessage ⟨5⟩)) s.table s.exchange ∧
      s.Returns (.dispatch ⟨9⟩) (.error .invalidParameter) ⟨[⟨⟨9⟩, 3, counting⟩]⟩ s.exchange := by
  intro counting calls s
  obtain ⟨hroutes, hids, hnodup, -, hcontains, hregisters, hcalls⟩ :=
    routes_isolated (H := 1) ⟨.empty 4, []⟩ ⟨.empty 4, []⟩ calls
  have hmem : (⟨⟨9⟩, 0, counting⟩ : Route Nat 4) ∈ registrations ((Service.fresh Nat 4 1).history calls) :=
    .head _
  have hold : (⟨9⟩ : MessageId) ∈ s.table.ids := .head _
  have hnew : (⟨5⟩ : MessageId) ∉ s.table.ids := by
    change _ ∉ [(⟨9⟩ : MessageId)]
    decide
  exact ⟨hroutes, hnodup, (hcontains ⟨9⟩).mpr ⟨_, hmem, rfl⟩,
    (hregisters ⟨⟨9⟩, 0, counting⟩).duplicate_iff.mpr hold,
    (hregisters ⟨⟨5⟩, 0, counting⟩).exhausted_iff.mpr ⟨hnew, rfl⟩,
    (hcalls (.dispatch ⟨5⟩) ⟨5⟩ _ rfl).1 hnew, ((hcalls (.dispatch ⟨9⟩) ⟨9⟩ _ rfl).2 _ hmem rfl).1⟩

end Marshal
