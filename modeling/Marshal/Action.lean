import Marshal.Log

/-!
# Actions

An action is a step on a state that may fail and that leaves a log. A failed
step keeps the state it reached: what a call leaves behind when it stops
halfway is part of its meaning.
-/

namespace Marshal

structure Outcome (ε σ α : Type) where
  result : Except ε α
  state : σ
  log : List Record

def Action (ε σ α : Type) : Type := σ → Outcome ε σ α

namespace Action

variable {ε δ σ τ α β : Type}

protected def pure (x : α) : Action ε σ α := fun s => ⟨.ok x, s, []⟩

protected def bind (a : Action ε σ α) (f : α → Action ε σ β) : Action ε σ β := fun s =>
  match a s with
  | ⟨.ok x, s, log⟩ =>
    let o := f x s
    ⟨o.result, o.state, log ++ o.log⟩
  | ⟨.error e, s, log⟩ => ⟨.error e, s, log⟩

instance : Monad (Action ε σ) where
  pure := Action.pure
  bind := Action.bind

def view (f : σ → α) : Action ε σ α := fun s => ⟨.ok (f s), s, []⟩

def update (f : σ → σ) : Action ε σ Unit := fun s => ⟨.ok (), f s, []⟩

def note (r : Record) : Action ε σ Unit := fun s => ⟨.ok (), s, [r]⟩

def fail (e : ε) : Action ε σ α := fun s => ⟨.error e, s, []⟩

def mapError (f : ε → δ) (a : Action ε σ α) : Action δ σ α := fun s =>
  match a s with
  | ⟨.ok x, s, log⟩ => ⟨.ok x, s, log⟩
  | ⟨.error e, s, log⟩ => ⟨.error (f e), s, log⟩

def onFst (a : Action ε σ α) : Action ε (σ × τ) α := fun (s, t) =>
  let o := a s
  ⟨o.result, (o.state, t), o.log⟩

def onSnd (a : Action ε τ α) : Action ε (σ × τ) α := fun (s, t) =>
  let o := a t
  ⟨o.result, (s, o.state), o.log⟩

theorem pure_apply (x : α) (s : σ) : (pure x : Action ε σ α) s = ⟨.ok x, s, []⟩ := rfl

theorem bind_apply (a : Action ε σ α) (f : α → Action ε σ β) (s : σ) :
    (a >>= f) s = match a s with
      | ⟨.ok x, s', log⟩ => ⟨(f x s').result, (f x s').state, log ++ (f x s').log⟩
      | ⟨.error e, s', log⟩ => ⟨.error e, s', log⟩ := rfl

theorem bind_pure_id (a : Action ε σ α) : (a >>= fun x => pure (id x)) = a := by
  funext s
  rw [bind_apply]
  rcases a s with ⟨_ | x, s', log⟩ <;> simp [pure_apply]

theorem bind_bind {γ : Type} (a : Action ε σ α) (f : α → Action ε σ β) (g : β → Action ε σ γ) :
    (a >>= f >>= g) = a >>= fun x => f x >>= g := by
  funext s
  simp only [bind_apply]
  rcases a s with ⟨_ | x, s', log⟩
  · rfl
  · simp only []
    rcases f x s' with ⟨_ | y, s'', log'⟩ <;> simp [List.append_assoc]

instance : LawfulMonad (Action ε σ) :=
  LawfulMonad.mk' (Action ε σ) bind_pure_id (fun _ _ => rfl) bind_bind

end Action

end Marshal
