import Marshal.Proofs.Simulation
import Marshal.Session.Answer

/-!
# Steps side by side

`Step.Sim R f g`: from states that `R` relates, the steps `f` and `g` show
their caller the same result, the same memory and the same log, and end in
states that `R` relates. `ask` makes a call out of a step, for programs that
go on whether it fails or not.
-/

namespace Marshal.Session

open Marshal.Action

variable {ε σ τ κ α : Type} {R : σ → τ → Prop}

def ask (f : σ → Step σ) : Action ε (κ × σ) (Except Fault Answer × Extra) := fun (k, s) =>
  let t := f s
  ⟨.ok (t.result, t.extra), (k, t.state), t.log⟩

/-- What is seen of a run: of every step the result, the memory and a view of the state after it. -/
def trace {β : Type} (step : κ → σ → Step σ) (view : σ → β) : List κ → σ → List (Except Fault Answer × Extra × β)
  | [], _ => []
  | c :: cs, s =>
    let t := step c s
    (t.result, t.extra, view t.state) :: trace step view cs t.state

theorem view_of_mem_trace {β : Type} {step : κ → σ → Step σ} (view : σ → β) {s : σ}
    (h : ∀ c, (step c s).state = s) {calls : List κ} {seen : Except Fault Answer × Extra × β}
    (hm : seen ∈ trace step view calls s) : seen.2.2 = view s := by
  induction calls with
  | nil => cases hm
  | cons c cs ih =>
    rw [trace, h c] at hm
    rcases List.mem_cons.mp hm with rfl | hm
    · rfl
    · exact ih hm

namespace Step

structure Alike (R : σ → τ → Prop) (s : Step σ) (t : Step τ) : Prop where
  result_eq : s.result = t.result
  extra_eq : s.extra = t.extra
  log_eq : s.log = t.log
  state : R s.state t.state

def Sim (R : σ → τ → Prop) (f : σ → Step σ) (g : τ → Step τ) : Prop := ∀ s t, R s t → (f s).Alike R (g t)

def Keeps (P : σ → Prop) (f : σ → Step σ) : Prop := ∀ s, P s → P (f s).state

theorem keeps_iff_sim {P : σ → Prop} {f : σ → Step σ} : Keeps P f ↔ Sim (Both P) f f := by
  constructor
  · rintro h s t ⟨rfl, hs⟩
    exact ⟨rfl, rfl, rfl, rfl, h s hs⟩
  · intro h s hs
    exact (h s s ⟨rfl, hs⟩).state.2

namespace Sim

theorem ofOutcome {a : Action ε σ α} {b : Action ε τ α} (fault : ε → Fault) (answer : α → Answer)
    (h : Action.Sim R a b) :
    Sim R (fun s => .ofOutcome fault answer (a s)) (fun t => .ofOutcome fault answer (b t)) := by
  intro s t hst
  obtain ⟨hr, hl, hs⟩ := h s t hst
  exact ⟨congrArg (fun r : Except ε α => (r.mapError fault).map answer) hr, rfl, hl, hs⟩

theorem ofCall {a : Action Error σ α} {b : Action Error τ α} (answer : α → Answer) (h : Action.Sim R a b) :
    Sim R (.ofCall answer a) (.ofCall answer b) := ofOutcome .error answer h

theorem ofCopy {a : Action Error σ (List UInt8)} {b : Action Error τ (List UInt8)} (out : List UInt8)
    (h : Action.Sim R a b) : Sim R (.ofCopy out a) (.ofCopy out b) := by
  intro s t hst
  obtain ⟨hr, hl, hs⟩ := h s t hst
  refine ⟨?_, ?_, hl, hs⟩
  · exact congrArg (fun r : Except Error (List UInt8) => (r.mapError Fault.error).map fun _ => Answer.done) hr
  · exact congrArg (fun r : Except Error (List UInt8) => Extra.out (r.toOption.getD out)) hr

theorem ofView {f : σ → Answer} {g : τ → Answer} (h : ∀ s t, R s t → f s = g t) :
    Sim R (.ofView f) (.ofView g) := fun s t hst =>
  ⟨congrArg Except.ok (h s t hst), rfl, rfl, hst⟩

theorem ofUpdate {f : σ → σ} {g : τ → τ} (h : ∀ s t, R s t → R (f s) (g t)) :
    Sim R (.ofUpdate f) (.ofUpdate g) := fun s t hst => ⟨rfl, rfl, rfl, h s t hst⟩

theorem ofSlots (f : Format) (count : Nat) {a : Action Error σ f.Value} {b : Action Error τ f.Value}
    (h : Action.Sim R a b) : Sim R (.ofSlots f count a) (.ofSlots f count b) := by
  intro s t hst
  obtain ⟨r, ⟨s', v⟩, ⟨t', w⟩, l, ha, hb, hs, hv⟩ := ((h.map some).fillSlots
    ⟨s, Vector.replicate count none⟩ ⟨t, Vector.replicate count none⟩ ⟨hst, rfl⟩).exists_eq
  cases hv
  rw [Step.ofSlots, Step.ofSlots, ha, hb]
  exact ⟨rfl, rfl, rfl, hs⟩

theorem ask {f : σ → Step σ} {g : τ → Step τ} (h : Sim R f g) :
    Action.Sim (Beside κ R) (ask f : Action ε (κ × σ) _) (ask g) := by
  rintro ⟨k, s⟩ ⟨l, t⟩ ⟨rfl, hst⟩
  obtain ⟨hr, hx, hl, hs⟩ := h s t hst
  refine ⟨?_, hl, rfl, hs⟩
  show Except.ok ((f s).result, (f s).extra) = Except.ok ((g t).result, (g t).extra)
  rw [hr, hx]

end Sim

/-- As `Sim`, but for the log. -/
def Refines (R : σ → τ → Prop) (f : σ → Step σ) (g : τ → Step τ) : Prop := ∀ s t, R s t →
  (f s).result = (g t).result ∧ (f s).extra = (g t).extra ∧ R (f s).state (g t).state

theorem Sim.refines {f : σ → Step σ} {g : τ → Step τ} (h : Sim R f g) : Refines R f g := fun s t hst =>
  ⟨(h s t hst).result_eq, (h s t hst).extra_eq, (h s t hst).state⟩

namespace Refines

theorem ofCall {a : Action Error σ α} {b : Action Error τ α} (answer : α → Answer) (h : Action.Refines R a b) :
    Refines R (.ofCall answer a) (.ofCall answer b) := by
  intro s t hst
  obtain ⟨hr, hs⟩ := h s t hst
  exact ⟨congrArg (fun r : Except Error α => (r.mapError Fault.error).map answer) hr, rfl, hs⟩

theorem ofCopy {a : Action Error σ (List UInt8)} {b : Action Error τ (List UInt8)} (out : List UInt8)
    (h : Action.Refines R a b) : Refines R (.ofCopy out a) (.ofCopy out b) := by
  intro s t hst
  obtain ⟨hr, hs⟩ := h s t hst
  refine ⟨?_, ?_, hs⟩
  · exact congrArg (fun r : Except Error (List UInt8) => (r.mapError Fault.error).map fun _ => Answer.done) hr
  · exact congrArg (fun r : Except Error (List UInt8) => Extra.out (r.toOption.getD out)) hr

end Refines

end Step

theorem trace_eq {β : Type} {step : κ → σ → Step σ} {step' : κ → τ → Step τ} {view : σ → β} {view' : τ → β}
    {calls : List κ} (hstep : ∀ c ∈ calls, Step.Refines R (step c) (step' c)) (hview : ∀ s t, R s t → view s = view' t)
    {s : σ} {t : τ} (h : R s t) : trace step view calls s = trace step' view' calls t := by
  induction calls generalizing s t with
  | nil => rfl
  | cons c cs ih =>
    obtain ⟨hfirst, hrest⟩ := List.forall_mem_cons.mp hstep
    obtain ⟨hr, hx, hs⟩ := hfirst s t h
    rw [trace, trace, hr, hx, hview _ _ hs, ih hrest hs]

end Marshal.Session
