import Marshal.Proofs.Agreement
import Marshal.Coder
import Marshal.Region

/-!
# Runs side by side

`Sim R a b`: from states that `R` relates, `a` and `b` return the same, log
the same and end in states that `R` relates. Whatever actions are put together
with keeps this, so a relation that the primitives keep is kept by every loop
and every coder. `Keeps P a` is the case of one run with an invariant.
-/

namespace Marshal

variable {ε δ σ τ κ α β : Type} {n : Nat}

structure Outcome.Alike (R : σ → τ → Prop) (o : Outcome ε σ α) (p : Outcome ε τ α) : Prop where
  result_eq : o.result = p.result
  log_eq : o.log = p.log
  state : R o.state p.state

theorem Outcome.Alike.exists_eq {R : σ → τ → Prop} {o : Outcome ε σ α} {p : Outcome ε τ α} (h : o.Alike R p) :
    ∃ r s t l, o = ⟨r, s, l⟩ ∧ p = ⟨r, t, l⟩ ∧ R s t := by
  obtain ⟨r, s, l⟩ := o
  obtain ⟨r', t, l'⟩ := p
  obtain ⟨hr, hl, hs⟩ := h
  cases hr
  cases hl
  exact ⟨r, s, t, l, rfl, rfl, hs⟩

namespace Action

def Sim (R : σ → τ → Prop) (a : Action ε σ α) (b : Action ε τ α) : Prop := ∀ s t, R s t → (a s).Alike R (b t)

def Keeps (P : σ → Prop) (a : Action ε σ α) : Prop := ∀ s, P s → P (a s).state

def Both (P : σ → Prop) (s t : σ) : Prop := s = t ∧ P s

def Beside (κ : Type) (R : σ → τ → Prop) (p : κ × σ) (q : κ × τ) : Prop := p.1 = q.1 ∧ R p.2 q.2

theorem keeps_iff_sim {P : σ → Prop} {a : Action ε σ α} : Keeps P a ↔ Sim (Both P) a a := by
  constructor
  · rintro h s t ⟨rfl, hs⟩
    exact ⟨rfl, rfl, rfl, h s hs⟩
  · intro h s hs
    exact (h s s ⟨rfl, hs⟩).state.2

def attempt (a : Action δ σ α) : Action ε σ (Except δ α) := fun s =>
  let o := a s
  ⟨.ok o.result, o.state, o.log⟩

/-- Runs `a` and takes back what it did to the state if it fails. -/
def undoing (a : Action ε σ α) : Action ε σ α := fun s =>
  match a s with
  | ⟨.ok x, s', log⟩ => ⟨.ok x, s', log⟩
  | ⟨.error e, _, log⟩ => ⟨.error e, s, log⟩

theorem undoing_of_ok {a : Action ε σ α} {s : σ} {x : α} (h : (a s).result = .ok x) : undoing a s = a s := by
  unfold undoing
  rcases ha : a s with ⟨_ | y, s', log⟩
  · rw [ha] at h; cases h
  · rfl

theorem undoing_of_error {a : Action ε σ α} {s : σ} {e : ε} (h : (a s).result = .error e) :
    undoing a s = ⟨.error e, s, (a s).log⟩ := by
  unfold undoing
  rcases ha : a s with ⟨e' | y, s', log⟩
  · rw [ha] at h
    cases h
    rfl
  · rw [ha] at h; cases h

def within (memory : κ) (a : Action ε (κ × σ) α) : Action ε σ α := fun s =>
  let o := a (memory, s)
  ⟨o.result, o.state.2, o.log⟩

namespace Sim

variable {R : σ → τ → Prop} {a : Action ε σ α} {b : Action ε τ α}

theorem pure (x : α) : Sim R (pure x : Action ε σ α) (pure x) := fun _ _ h => ⟨rfl, rfl, h⟩

theorem fail (e : ε) : Sim R (Action.fail e : Action ε σ α) (Action.fail e) := fun _ _ h => ⟨rfl, rfl, h⟩

theorem note (r : Record) : Sim R (Action.note r : Action ε σ Unit) (Action.note r) := fun _ _ h => ⟨rfl, rfl, h⟩

theorem view {f : σ → α} {g : τ → α} (h : ∀ s t, R s t → f s = g t) :
    Sim R (Action.view f : Action ε σ α) (Action.view g) := fun s t hst =>
  ⟨congrArg Except.ok (h s t hst), rfl, hst⟩

theorem update {f : σ → σ} {g : τ → τ} (h : ∀ s t, R s t → R (f s) (g t)) :
    Sim R (Action.update f : Action ε σ Unit) (Action.update g) := fun s t hst => ⟨rfl, rfl, h s t hst⟩

theorem bind {f : α → Action ε σ β} {g : α → Action ε τ β} (h : Sim R a b) (hf : ∀ x, Sim R (f x) (g x)) :
    Sim R (a >>= f) (b >>= g) := by
  intro s t hst
  obtain ⟨r, s', t', l, ha, hb, hs⟩ := (h s t hst).exists_eq
  rw [bind_apply, bind_apply, ha, hb]
  cases r with
  | error e => exact ⟨rfl, rfl, hs⟩
  | ok x =>
    obtain ⟨hr', hl', hs'⟩ := hf x s' t' hs
    exact ⟨hr', congrArg (l ++ ·) hl', hs'⟩

theorem map (f : α → β) (h : Sim R a b) : Sim R (f <$> a) (f <$> b) := by
  rw [map_eq_pure_bind, map_eq_pure_bind]
  exact h.bind fun x => pure _

theorem mapError (f : ε → δ) (h : Sim R a b) : Sim R (a.mapError f) (b.mapError f) := by
  intro s t hst
  obtain ⟨r, s', t', l, ha, hb, hs⟩ := (h s t hst).exists_eq
  rw [Action.mapError, Action.mapError, ha, hb]
  cases r <;> exact ⟨rfl, rfl, hs⟩

theorem onSnd (h : Sim R a b) : Sim (Beside κ R) (a.onSnd (σ := κ)) b.onSnd := by
  rintro ⟨k, s⟩ ⟨l, t⟩ ⟨rfl, hst⟩
  obtain ⟨hr, hl, hs⟩ := h s t hst
  exact ⟨hr, hl, rfl, hs⟩

theorem onFst (a : Action ε κ α) : Sim (Beside κ R) (a.onFst (τ := σ)) a.onFst := by
  rintro ⟨k, s⟩ ⟨l, t⟩ ⟨rfl, hst⟩
  exact ⟨rfl, rfl, rfl, hst⟩

theorem attempt (h : Sim R a b) : Sim R (attempt (ε := δ) a) (attempt b) := by
  intro s t hst
  obtain ⟨hr, hl, hs⟩ := h s t hst
  exact ⟨congrArg Except.ok hr, hl, hs⟩

theorem within {a : Action ε (κ × σ) α} {b : Action ε (κ × τ) α} (h : Sim (Beside κ R) a b) (memory : κ) :
    Sim R (within memory a) (within memory b) := by
  intro s t hst
  obtain ⟨hr, hl, hs⟩ := h (memory, s) (memory, t) ⟨rfl, hst⟩
  exact ⟨hr, hl, hs.2⟩

/-! ## Loops -/

theorem codeElement {a : Action ε σ Unit} {b : Action ε τ Unit} (index : Nat) (h : Sim R a b) :
    Sim R (codeElement index a) (codeElement index b) := by
  intro s t hst
  obtain ⟨r, s', t', l, ha, hb, hs⟩ := (h s t hst).exists_eq
  rw [Marshal.codeElement, Marshal.codeElement, ha, hb]
  cases r <;> exact ⟨rfl, rfl, hs⟩

theorem codeFrom {f : α → Action ε σ Unit} {g : α → Action ε τ Unit} (h : ∀ x, Sim R (f x) (g x)) (index : Nat)
    (xs : List α) : Sim R (codeFrom f index xs) (codeFrom g index xs) := by
  induction xs generalizing index with
  | nil => exact pure _
  | cons x xs ih => exact ((h x).codeElement index).bind fun _ => ih (index + 1)

theorem codeEach {f : α → Action ε σ Unit} {g : α → Action ε τ Unit} (h : ∀ x, Sim R (f x) (g x)) (xs : List α) :
    Sim R (codeEach f xs) (codeEach g xs) := codeFrom h 0 xs

theorem codeRange {f : Nat → Action ε σ Unit} {g : Nat → Action ε τ Unit} (h : ∀ i, Sim R (f i) (g i))
    (index count : Nat) : Sim R (codeRange f index count) (codeRange g index count) := by
  rw [codeRange_eq_codeFrom, codeRange_eq_codeFrom]
  exact codeFrom h index _

def Filled (R : σ → τ → Prop) (p : Filling σ β n) (q : Filling τ β n) : Prop :=
  R p.source q.source ∧ p.slots = q.slots

theorem fillSlot (h : Sim R a b) (i : Fin n) : Sim (Filled R) (fillSlot a i) (fillSlot b i) := by
  rintro ⟨s, slots⟩ ⟨t, slots'⟩ ⟨hst, heq⟩
  cases heq
  obtain ⟨r, s', t', l, ha, hb, hs⟩ := (h s t hst).exists_eq
  simp only [Marshal.fillSlot, ha, hb]
  cases r <;> exact ⟨rfl, rfl, hs, rfl⟩

theorem fillSlots (h : Sim R a b) : Sim (Filled (n := n) R) (fillSlots a) (fillSlots b) :=
  codeEach h.fillSlot _

theorem decodeArray (h : Sim R a b) (blank : α) (n : Nat) :
    Sim R (decodeArray a blank n) (decodeArray b blank n) := by
  intro s t hst
  obtain ⟨r, ⟨s', v⟩, ⟨t', v'⟩, l, ha, hb, hs, hv⟩ := (h.fillSlots ⟨s, Vector.replicate n blank⟩
    ⟨t, Vector.replicate n blank⟩ ⟨hst, rfl⟩).exists_eq
  cases hv
  rw [Marshal.decodeArray, Marshal.decodeArray, ha, hb]
  cases r <;> exact ⟨rfl, rfl, hs⟩

theorem elements (region : List UInt8) (count size : Nat) :
    Sim R (Region.elements region count size) (Region.elements region count size) := by
  unfold Region.elements
  split
  · exact (note _).bind fun _ => fail _
  · exact pure _

end Sim

/-! ## Refinement -/

/-- The actions return the same and end in related states. They may log what they like. -/
def Refines (R : σ → τ → Prop) (a : Action ε σ α) (b : Action ε τ α) : Prop :=
  ∀ s t, R s t → (a s).result = (b t).result ∧ R (a s).state (b t).state

namespace Refines

variable {R : σ → τ → Prop} {a : Action ε σ α} {b : Action ε τ α}

theorem pure (x : α) : Refines R (pure x : Action ε σ α) (pure x) := fun _ _ h => ⟨rfl, h⟩

theorem bind {f : α → Action ε σ β} {g : α → Action ε τ β} (h : Refines R a b) (hf : ∀ x, Refines R (f x) (g x)) :
    Refines R (a >>= f) (b >>= g) := by
  intro s t hst
  obtain ⟨hr, hs⟩ := h s t hst
  cases ha : (a s).result with
  | error e =>
    have hb := hr.symm.trans ha
    rw [(bind_of_error ha).1, (bind_of_error ha).2, (bind_of_error hb).1, (bind_of_error hb).2]
    exact ⟨rfl, hs⟩
  | ok x =>
    have hb := hr.symm.trans ha
    rw [(bind_of_ok ha).1, (bind_of_ok ha).2, (bind_of_ok hb).1, (bind_of_ok hb).2]
    exact hf x _ _ hs

theorem forM {f : α → Action ε σ PUnit} {g : α → Action ε τ PUnit} (h : ∀ x, Refines R (f x) (g x)) (xs : List α) :
    Refines R (forM xs f) (forM xs g) := by
  induction xs with
  | nil => exact pure _
  | cons x xs ih =>
    rw [List.forM_cons, List.forM_cons]
    exact (h x).bind fun _ => ih

theorem of_agree {a' : Action ε σ α} (ha : Agree a a') (h : Refines R a' b) : Refines R a b := by
  intro s t hst
  rw [(ha s).1, (ha s).2]
  exact h s t hst

end Refines

theorem Sim.refines {R : σ → τ → Prop} {a : Action ε σ α} {b : Action ε τ α} (h : Sim R a b) : Refines R a b :=
  fun s t hst => ⟨(h s t hst).result_eq, (h s t hst).state⟩

/-! ## Lists of states -/

def Rows (R : σ → τ → Prop) (ss : List σ) (ts : List τ) : Prop := ∀ i : Nat, Option.Rel R ss[i]? ts[i]?

theorem Rows.getD {R : σ → τ → Prop} {ss : List σ} {ts : List τ} (h : Rows R ss ts) {s : σ} {t : τ} (hst : R s t)
    (i : Nat) : R (ss[i]?.getD s) (ts[i]?.getD t) := by
  have hi := h i
  cases hs : ss[i]? <;> cases ht : ts[i]? <;> rw [hs, ht] at hi <;> cases hi
  · exact hst
  · assumption

theorem Rows.set {R : σ → τ → Prop} {ss : List σ} {ts : List τ} (h : Rows R ss ts) {s : σ} {t : τ} (hst : R s t)
    (i : Nat) : Rows R (ss.set i s) (ts.set i t) := by
  intro j
  have hj := h j
  rw [List.getElem?_set', List.getElem?_set']
  split
  · cases hs : ss[j]? <;> cases ht : ts[j]? <;> rw [hs, ht] at hj <;> cases hj
    · exact .none
    · exact .some hst
  · exact hj

theorem rows_refl {R : σ → σ → Prop} {ss : List σ} (h : ∀ s ∈ ss, R s s) : Rows R ss ss := by
  intro i
  cases hs : ss[i]? with
  | none => exact .none
  | some s => exact .some (h s (List.mem_of_getElem? hs))

end Action

end Marshal
