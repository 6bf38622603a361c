import Marshal.Proofs.RoundTrip
import Marshal.Proofs.RouteTables

/-!
# Several calls in one message

Calls are encoded one after another, each as its identifier and its argument.
To serve as many calls is to run what their handlers do with the arguments, in
this order, if each handler takes one value of the argument's format from the
input. The calls that were served need not succeed for the others to be
served. An identifier without a handler is taken all the same, and nothing else.
-/

namespace Marshal

open Marshal.Action

variable {κ : Type} {N H : Nat}

/-! ## Requests -/

structure Request where
  id : MessageId
  argument : Item

namespace Request

def image (r : Request) : List UInt8 :=
  littleEndian 4 r.id.value.toNat ++ r.argument.format.image r.argument.value

def width (r : Request) : Nat := 4 + r.argument.format.width r.argument.value

def NulFree (r : Request) : Prop := r.argument.format.NulFree r.argument.value

instance (r : Request) : Decidable r.NulFree :=
  inferInstanceAs (Decidable (r.argument.format.NulFree r.argument.value))

def encode (r : Request) : Action Error (Buffer N) Unit := do
  Buffer.encodeMessageId r.id
  Buffer.encode r.argument

def totalWidth (requests : List Request) : Nat := (requests.map width).sum

variable {r : Request} {requests : List Request}

theorem length_image (r : Request) : r.image.length = r.width := by simp [image, width]

@[simp] theorem totalWidth_cons (r : Request) (requests : List Request) :
    totalWidth (r :: requests) = r.width + totalWidth requests := by simp [totalWidth]

theorem length_images (requests : List Request) : (requests.flatMap image).length = totalWidth requests := by
  induction requests with
  | nil => rfl
  | cons r requests ih => simp [ih, length_image]

theorem encode_of_le {b : Buffer N} (hn : r.NulFree) (h : r.width ≤ b.remaining) :
    (r.encode b).result = .ok () ∧ (r.encode b).state = b.append r.image := by
  rw [width] at h
  have hlen : (littleEndian 4 r.id.value.toNat).length = 4 := length_littleEndian ..
  have hid : Buffer.encodeMessageId r.id b = ⟨.ok (), b.append (littleEndian 4 r.id.value.toNat), []⟩ :=
    Buffer.encodeBytes_of_le (hlen.trans_le (by omega))
  have hrest : r.argument.format.width r.argument.value ≤ (b.append (littleEndian 4 r.id.value.toNat)).remaining := by
    rw [Buffer.remaining_append]
    omega
  obtain ⟨hr, hs⟩ := Format.encode_of_le hn hrest
  rw [Buffer.append_append] at hs
  rw [encode, bind_apply, hid]
  exact ⟨hr, hs⟩

theorem forM_encode_of_le {b : Buffer N} (hn : ∀ r ∈ requests, r.NulFree) (h : totalWidth requests ≤ b.remaining) :
    (forM requests encode b).result = .ok () ∧ (forM requests encode b).state = b.append (requests.flatMap image) := by
  induction requests generalizing b with
  | nil => exact ⟨rfl, rfl⟩
  | cons r requests ih =>
    rw [totalWidth_cons] at h
    obtain ⟨hr, hs⟩ := encode_of_le (b := b) (hn r (List.mem_cons_self ..)) (by omega)
    have hrest : totalWidth requests ≤ (b.append r.image).remaining := by
      rw [Buffer.remaining_append, r.length_image]
      omega
    obtain ⟨hr', hs'⟩ := ih (fun r hm => hn r (List.mem_cons_of_mem _ hm)) hrest
    rw [List.forM_cons, (bind_of_ok hr).1, (bind_of_ok hr).2, hs, List.flatMap_cons, ← Buffer.append_append]
    exact ⟨hr', hs'⟩

end Request

def Buffer.encodeCalls : List Request → Action Error (Buffer N) Unit
  | [] => pure ()
  | r :: others => do
    startCall r.id
    encode r.argument
    forM others Request.encode

theorem Buffer.encodeCalls_of_le {requests : List Request} (hne : requests ≠ []) (hn : ∀ r ∈ requests, r.NulFree)
    (h : Request.totalWidth requests ≤ N) (b : Buffer N) :
    (encodeCalls requests b).result = .ok () ∧
      (encodeCalls requests b).state = b.reset.append (requests.flatMap Request.image) := by
  obtain ⟨r, others, rfl⟩ := List.exists_cons_of_ne_nil hne
  have heq : (encodeCalls (r :: others) : Action Error (Buffer N) Unit) =
      Action.update reset >>= fun _ => forM (r :: others) Request.encode := by
    simp only [encodeCalls, startCall, List.forM_cons, Request.encode, bind_bind]
  rw [heq]
  exact Request.forM_encode_of_le (b := b.reset) hn h

/-! ## What is left of the input -/

namespace Buffer

structure Pending (b : Buffer N) (bytes : List UInt8) : Prop where
  used_le : b.used ≤ N
  cursor_le : b.cursor ≤ b.used
  drop_eq : b.message.drop b.cursor = bytes

def skip (length : Nat) (b : Buffer N) : Buffer N := { b with cursor := b.cursor + length }

theorem skip_skip (b : Buffer N) (m n : Nat) : (b.skip m).skip n = b.skip (m + n) := by simp [skip, Nat.add_assoc]

namespace Pending

variable {b : Buffer N} {bytes taken rest : List UInt8}

theorem unread_eq (h : b.Pending bytes) : b.unread = bytes.length := by
  rw [← h.drop_eq, List.length_drop, length_message h.used_le, unread]

theorem skip (h : b.Pending (taken ++ rest)) : (b.skip taken.length).Pending rest := by
  have hlen := h.unread_eq
  rw [unread, List.length_append] at hlen
  have hcursor := h.cursor_le
  refine ⟨h.used_le, ?_, ?_⟩
  · simp only [Buffer.skip]
    omega
  · have hdrop := h.drop_eq
    rw [Buffer.skip, message] at *
    rw [← List.drop_drop, hdrop, List.drop_left]

theorem decode {f : Format} {x : f.Value} (h : b.Pending (taken ++ rest)) (hw : Wire (f.parts x) taken) :
    (Buffer.decode f b).result = .ok x ∧ (Buffer.decode f b).state = b.skip taken.length := by
  have hrest : b.reader.rest = taken ++ rest := by rw [rest_reader h.used_le, h.drop_eq]
  have hposition : b.reader.position = b.cursor := Nat.min_eq_left h.cursor_le
  obtain ⟨hx, hr⟩ := Format.decode_of_wire hw hrest
  obtain ⟨hx', hs⟩ := read_of_ok hx hr
  refine ⟨hx', hs.trans ?_⟩
  simp only [Reader.moveTo, hposition, Buffer.skip]
  split
  · rfl
  · -- nothing was taken
    have hzero : taken.length = 0 := by omega
    rw [hzero]
    rfl

theorem decodeMessageId {id : MessageId} (h : b.Pending (littleEndian 4 id.value.toNat ++ rest)) :
    (read Reader.decodeMessageId b).result = .ok id ∧ (read Reader.decodeMessageId b).state = b.skip 4 := by
  have hw : Wire ((Format.leaf .messageId).parts id) (littleEndian 4 id.value.toNat) :=
    Format.wire_image (f := .leaf .messageId) fun p hp => by cases List.mem_singleton.mp hp; trivial
  have hd := h.decode hw
  rwa [length_littleEndian] at hd

end Pending

theorem pending_sealed {b : Buffer N} (h : b.cursor ≤ N) : b.sealed.Pending b.written := ⟨h, Nat.zero_le _, rfl⟩

theorem pending_load {bytes : List UInt8} (h : bytes.length ≤ N) (b : Buffer N) :
    (load bytes b).state.Pending bytes := by
  rw [load_of_le h]
  exact ⟨h, Nat.zero_le _, message_overwrite b.storage h⟩

theorem exists_pending_id {b : Buffer N} (h : b.used ≤ N) (hfour : 4 ≤ b.unread) :
    ∃ id rest, b.Pending (littleEndian 4 (MessageId.value id).toNat ++ rest) := by
  rw [unread] at hfour
  obtain ⟨taken, rest, hdrop, hlen⟩ : ∃ taken rest, b.message.drop b.cursor = taken ++ rest ∧ taken.length = 4 := by
    refine ⟨_, _, (List.take_append_drop 4 _).symm, ?_⟩
    rw [List.length_take, List.length_drop, length_message h]
    omega
  have hid : ScalarType.u32.toBytes (ScalarType.ofBytes .u32 taken) = taken := by
    rw [ScalarType.toBytes_ofBytes _ hlen, ScalarType.settle_of_ne_bool (by decide)]
  refine ⟨⟨ScalarType.ofBytes .u32 taken⟩, rest, h, by omega, hdrop.trans ?_⟩
  exact congrArg (· ++ rest) hid.symm

end Buffer

/-! ## Handlers that take one value -/

/-- The handler takes one value of the format from the input and touches the input no further:
`body` is what it does with the value. -/
structure Handler.Takes (handler : Handler κ N) (f : Format) (body : f.Value → Handler κ N) : Prop where
  run_eq : ∀ k x v, (Buffer.decode f x.input).result = .ok v →
    let o := body v (k, ⟨(Buffer.decode f x.input).state, x.output⟩)
    (handler (k, x)).result = o.result ∧ (handler (k, x)).state = o.state
  input_eq : ∀ v s, (body v s).state.2.input = s.2.input

theorem Handler.takes_bind {f : Format} {body : f.Value → Handler κ N}
    (hbody : ∀ v s, (body v s).state.2.input = s.2.input) :
    Handler.Takes (do let v ← (Exchange.onInput (Buffer.decode f)).onSnd; body v) f body :=
  ⟨fun k x _ hv => bind_of_ok (a := (Exchange.onInput (Buffer.decode f)).onSnd) (s := (k, x)) hv, hbody⟩

abbrev Bodies (κ : Type) (N : Nat) : Type := MessageId → (f : Format) → f.Value → Handler κ N

namespace RouteTable

variable {t : RouteTable κ N H} {body : Bodies κ N} {x : Exchange N} {r : Request} {rest : List UInt8}

def Answers (t : RouteTable κ N H) (body : Bodies κ N) (r : Request) : Prop :=
  ∃ route, t.find? r.id = some route ∧ route.handler.Takes r.argument.format (body r.id r.argument.format)

theorem Answers.store (h : t.Answers body r) (id : MessageId) (state : κ) : (t.store id state).Answers body r := by
  obtain ⟨route, hfind, htakes⟩ := h
  rw [Answers, find?_store, hfind, Option.map_some]
  refine ⟨_, rfl, ?_⟩
  split <;> exact htakes

/-! ## Serving -/

def serveTimes : Nat → RouteTable κ N H × Exchange N → List (Except Error Unit) × RouteTable κ N H × Exchange N
  | 0, s => ([], s)
  | count + 1, s =>
    let o := serve s
    let (results, s) := serveTimes count o.state
    (o.result :: results, s)

/-- Hands every request to its handler, with the input right behind the argument. -/
def callAll (body : Bodies κ N) :
    List Request → RouteTable κ N H × Exchange N → List (Except Error Unit) × RouteTable κ N H × Exchange N
  | [], s => ([], s)
  | r :: others, (t, x) =>
    match t.find? r.id with
    | none => ([], (t, x))
    | some route =>
      let o := body r.id r.argument.format r.argument.value (route.state, ⟨x.input.skip r.width, x.output⟩)
      let (results, s) := callAll body others (t.store r.id o.state.1, o.state.2)
      (o.result :: results, s)

theorem serve_of_pending {id : MessageId} (h : x.input.Pending (littleEndian 4 id.value.toNat ++ rest)) :
    (serve (t, x)).result = (dispatch id (t, ⟨x.input.skip 4, x.output⟩)).result ∧
      (serve (t, x)).state = (dispatch id (t, ⟨x.input.skip 4, x.output⟩)).state := by
  obtain ⟨hid, hs⟩ := h.decodeMessageId
  rw [← hs]
  exact serve_of_ok hid

theorem serve_of_unknown {id : MessageId} (h : x.input.Pending (littleEndian 4 id.value.toNat ++ rest))
    (hid : id ∉ t.ids) :
    (serve (t, x)).result = .error (.unknownMessage id) ∧
      (serve (t, x)).state = (t, ⟨x.input.skip 4, x.output⟩) := by
  have hserve := serve_of_pending (t := t) h
  rwa [dispatch_of_not_mem _ hid] at hserve

theorem serve_of_short (h : x.input.used ≤ N) (hlt : x.input.unread < 4) :
    (serve (t, x)).result = .error (.underflow 4 x.input.unread) ∧ (serve (t, x)).state = (t, x) := by
  have hunread := Buffer.unread_reader h
  have hd : (Reader.decodeMessageId x.input.reader).result = .error (.underflow 4 x.input.unread) := by
    rw [Reader.decodeMessageId_of_lt (by rwa [hunread]), ← hunread]
    rfl
  have hread := Buffer.read_of_error hd
  have hserve := serve_of_error (t := t) (x := x) (congrArg Outcome.result hread)
  rwa [hread] at hserve

theorem serve_of_takes {route : Route κ N} (hfind : t.find? r.id = some route)
    (htakes : route.handler.Takes r.argument.format (body r.id r.argument.format)) (hn : r.NulFree)
    (h : x.input.Pending (r.image ++ rest)) :
    let o := body r.id r.argument.format r.argument.value (route.state, ⟨x.input.skip r.width, x.output⟩)
    (serve (t, x)).result = o.result ∧ (serve (t, x)).state = (t.store r.id o.state.1, o.state.2) := by
  rw [Request.image, List.append_assoc] at h
  have hlen : (littleEndian 4 r.id.value.toNat).length = 4 := length_littleEndian ..
  have hargument := h.skip
  rw [hlen] at hargument
  obtain ⟨hv, hs⟩ := hargument.decode (Format.wire_image hn)
  rw [Format.length_image, Buffer.skip_skip] at hs
  obtain ⟨hr, hst⟩ := htakes.run_eq route.state ⟨x.input.skip 4, x.output⟩ _ hv
  rw [hs] at hr hst
  have hserve := serve_of_pending (t := t) h
  rw [dispatch_of_find _ hfind] at hserve
  dsimp only at hserve
  rw [hr, hst] at hserve
  exact hserve

theorem serveTimes_eq_callAll {first : List Request} (ha : ∀ r ∈ first, t.Answers body r)
    (hn : ∀ r ∈ first, r.NulFree) (h : x.input.Pending (first.flatMap Request.image ++ rest)) :
    let served := callAll body first (t, x)
    serveTimes first.length (t, x) = served ∧ served.2.1.ids = t.ids ∧
      served.2.2.input = x.input.skip (Request.totalWidth first) ∧ served.2.2.input.Pending rest := by
  induction first generalizing t x with
  | nil => exact ⟨rfl, rfl, rfl, h⟩
  | cons r others ih =>
    obtain ⟨route, hfind, htakes⟩ := ha r (List.mem_cons_self ..)
    rw [List.flatMap_cons, List.append_assoc] at h
    obtain ⟨hr, hs⟩ := serve_of_takes hfind htakes (hn r (List.mem_cons_self ..)) h
    have hskip := h.skip
    rw [r.length_image] at hskip
    have hinput := htakes.input_eq r.argument.value (route.state, ⟨x.input.skip r.width, x.output⟩)
    have hothers : ∀ r' ∈ others, (t.store r.id (body r.id r.argument.format r.argument.value
        (route.state, ⟨x.input.skip r.width, x.output⟩)).state.1).Answers body r' :=
      fun r' hr' => (ha r' (List.mem_cons_of_mem _ hr')).store ..
    obtain ⟨hserved, hids, hend, hrest⟩ := ih hothers (fun r' hr' => hn r' (List.mem_cons_of_mem _ hr'))
      (by rwa [hinput])
    rw [hinput, Buffer.skip_skip] at hend
    simp only [callAll, hfind, List.length_cons, serveTimes, hr, hs, hserved]
    refine ⟨trivial, hids.trans (ids_store _), ?_, hrest⟩
    rw [Request.totalWidth_cons]
    exact hend

/-- The calls `first` are run in order, each with its own argument, and `rest` is left. Of its next
call the identifier is taken if that has no handler. -/
structure Serves (t : RouteTable κ N H) (body : Bodies κ N) (input output : Buffer N) (first rest : List Request) :
    Prop where
  runs : serveTimes first.length (t, ⟨input, output⟩) = callAll body first (t, ⟨input, output⟩)
  input_eq : (serveTimes first.length (t, ⟨input, output⟩)).2.2.input = input.skip (Request.totalWidth first)
  unread_eq : (serveTimes first.length (t, ⟨input, output⟩)).2.2.input.unread = Request.totalWidth rest
  unknown : ∀ r ∈ rest.head?, r.id ∉ t.ids →
    let s := (serveTimes first.length (t, ⟨input, output⟩)).2
    (serve s).result = .error (.unknownMessage r.id) ∧ (serve s).state = (s.1, ⟨s.2.input.skip 4, s.2.output⟩)

theorem serves_of_pending {first rest : List Request} {input output : Buffer N} (ha : ∀ r ∈ first, t.Answers body r)
    (hn : ∀ r ∈ first, r.NulFree) (h : input.Pending ((first ++ rest).flatMap Request.image)) :
    t.Serves body input output first rest := by
  rw [List.flatMap_append] at h
  obtain ⟨hruns, hids, hinput, hrest⟩ := serveTimes_eq_callAll (x := ⟨input, output⟩) ha hn h
  refine ⟨hruns, by rw [hruns, hinput], ?_, fun r hr hid => ?_⟩
  · rw [hruns, hrest.unread_eq, Request.length_images]
  · obtain ⟨others, rfl⟩ := List.head?_eq_some_iff.mp hr
    rw [List.flatMap_cons, Request.image, List.append_assoc] at hrest
    rw [hruns]
    exact serve_of_unknown hrest (by rwa [hids])

end RouteTable

/-- Whoever serves the calls from `input` serves as many of them as are answered. -/
def Delivers (requests : List Request) (input : Buffer N) : Prop :=
  ∀ ⦃κ : Type⦄ ⦃H : Nat⦄ (t : RouteTable κ N H) (body : Bodies κ N) (output : Buffer N) (first rest : List Request),
    requests = first ++ rest → (∀ r ∈ first, t.Answers body r) → t.Serves body input output first rest

theorem delivers_of_pending {requests : List Request} (hn : ∀ r ∈ requests, r.NulFree) {input : Buffer N}
    (h : input.Pending (requests.flatMap Request.image)) : Delivers requests input := by
  rintro κ H t body output first rest rfl ha
  exact RouteTable.serves_of_pending ha (fun r hr => hn r (List.mem_append_left _ hr)) h

/-- **Tagged calls arrive.** Calls that fit are served in order from the sealed buffer, or from any
that the bytes are loaded into: each by its own handler, once, with its own argument. A cut
identifier fails and changes nothing; one without a handler is taken. -/
theorem tagged_calls_arrive (requests : List Request) (hne : requests ≠ []) (hn : ∀ r ∈ requests, r.NulFree)
    (hroom : Request.totalWidth requests ≤ N) (b : Buffer N) :
    let o := Buffer.encodeCalls requests b
    o.result = .ok () ∧ o.state.written = requests.flatMap Request.image ∧ Delivers requests o.state.sealed ∧
    (∀ (M : Nat) (c : Buffer M), Request.totalWidth requests ≤ M →
      (Buffer.load o.state.written c).result = .ok () ∧ Delivers requests (Buffer.load o.state.written c).state) ∧
    ∀ {κ : Type} {H : Nat} (t : RouteTable κ N H) (x : Exchange N), x.input.used ≤ N →
      (x.input.unread < 4 →
        (RouteTable.serve (t, x)).result = .error (.underflow 4 x.input.unread) ∧
        (RouteTable.serve (t, x)).state = (t, x)) ∧
      (4 ≤ x.input.unread → ∃ id rest, x.input.Pending (littleEndian 4 (MessageId.value id).toNat ++ rest) ∧
        (id ∉ t.ids →
          (RouteTable.serve (t, x)).result = .error (.unknownMessage id) ∧
          (RouteTable.serve (t, x)).state = (t, ⟨x.input.skip 4, x.output⟩))) := by
  intro o
  obtain ⟨hresult, hstate⟩ := Buffer.encodeCalls_of_le hne hn hroom b
  have hlen : (requests.flatMap Request.image).length ≤ N := by rwa [Request.length_images]
  have hwritten : o.state.written = requests.flatMap Request.image := by
    rw [hstate, Buffer.written_append _ _ (by simpa [Buffer.reset] using hlen)]
    rfl
  refine ⟨hresult, hwritten, ?_, fun M c hM => ?_, fun t x hused => ⟨RouteTable.serve_of_short hused, fun hfour => ?_⟩⟩
  · have hcursor : o.state.cursor ≤ N := by
      rw [hstate]
      simpa [Buffer.reset] using hlen
    exact delivers_of_pending hn (hwritten ▸ Buffer.pending_sealed hcursor)
  · have hM : (requests.flatMap Request.image).length ≤ M := by rwa [Request.length_images]
    rw [hwritten]
    exact ⟨by rw [Buffer.load_of_le hM], delivers_of_pending hn (Buffer.pending_load hM c)⟩
  · obtain ⟨id, rest, hid⟩ := Buffer.exists_pending_id hused hfour
    exact ⟨id, rest, hid, RouteTable.serve_of_unknown hid⟩

/-- Three calls to handlers that echo their arguments, and one that nobody answers. -/
theorem tagged_calls_arrive_and_echo :
    let echo : Bodies Unit 24 := fun _ f x => (Exchange.onOutput (Buffer.encode ⟨f, x⟩)).onSnd
    let route (id : MessageId) (f : Format) : Route Unit 24 :=
      ⟨id, (), do let x ← (Exchange.onInput (Buffer.decode f)).onSnd; echo id f x⟩
    let t : RouteTable Unit 24 2 := ⟨[route ⟨7⟩ (.scalar .u8), route ⟨8⟩ (.leaf .text)]⟩
    let first : List Request := [⟨⟨7⟩, .scalar .u8, (5 : UInt8)⟩, ⟨⟨8⟩, .leaf .text, "hi"⟩,
      ⟨⟨7⟩, .scalar .u8, (3 : UInt8)⟩]
    let rest : List Request := [⟨⟨9⟩, .nothing, ()⟩]
    let input := (Buffer.encodeCalls (first ++ rest) (.mk (.replicate 24 6) 20 9)).state.sealed
    let called := RouteTable.callAll echo first (t, ⟨input, .empty 24⟩)
    t.Serves echo input (.empty 24) first rest ∧ ⟨9⟩ ∉ t.ids ∧
      called.1 = [.ok (), .ok (), .ok ()] ∧ called.2.2.output.written = [5, 104, 105, 0, 3] := by
  intro echo route t first rest input called
  have htakes (id : MessageId) (f : Format) : (route id f).handler.Takes f (echo id f) :=
    Handler.takes_bind fun _ _ => rfl
  have ha : ∀ r ∈ first, t.Answers echo r := by
    intro r hr
    simp only [first, List.mem_cons, List.not_mem_nil, or_false] at hr
    rcases hr with rfl | rfl | rfl
    · exact ⟨route ⟨7⟩ _, rfl, htakes ..⟩
    · exact ⟨route ⟨8⟩ _, rfl, htakes ..⟩
    · exact ⟨route ⟨7⟩ _, rfl, htakes ..⟩
  obtain ⟨-, -, hdelivers, -, -⟩ := tagged_calls_arrive (N := 24) (first ++ rest) (by decide) (by decide) (by decide)
    (.mk (.replicate 24 6) 20 9)
  exact ⟨hdelivers t echo (.empty 24) first rest rfl ha, by decide, rfl, rfl⟩

end Marshal
