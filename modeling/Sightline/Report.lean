import Sightline.Fault
import Sightline.Message

/-! Steps that report while they work. The messages of a step that fails are not lost. -/

namespace Sightline

theorem bind_eq_ok {ε α β : Type} {x : Except ε α} {next : α → Except ε β} {b : β} :
    (x >>= next) = .ok b ↔ ∃ a, x = .ok a ∧ next a = .ok b := by
  cases x <;> simp [Bind.bind, Except.bind]

structure Report (α : Type) where
  result : Except Failure α
  messages : List Message := []

namespace Report

variable {α β : Type}

protected def pure (a : α) : Report α := ⟨.ok a, []⟩

protected def bind (r : Report α) (next : α → Report β) : Report β :=
  match r.result with
  | .ok a => ⟨(next a).result, r.messages ++ (next a).messages⟩
  | .error e => ⟨.error e, r.messages⟩

/-- Like `bind`, for a continuation that needs to know where its argument comes from. -/
def bindWith (r : Report α) (next : (a : α) → r.result = .ok a → Report β) : Report β :=
  match h : r.result with
  | .ok a => ⟨(next a h).result, r.messages ++ (next a h).messages⟩
  | .error e => ⟨.error e, r.messages⟩

instance : Monad Report where
  pure := Report.pure
  bind := Report.bind

def tell (m : Message) : Report Unit := ⟨.ok (), [m]⟩

def tellIf (c : Bool) (m : Message) : Report Unit := ⟨.ok (), if c then [m] else []⟩

def fail (f : Failure) : Report α := ⟨.error f, []⟩

def lift (r : Except Failure α) : Report α := ⟨r, []⟩

def ofOption (a : Option α) : Report α :=
  match a with
  | some a => pure a
  | none => .fail .outOfBounds

@[simp] theorem result_pure (a : α) : (Pure.pure a : Report α).result = .ok a := rfl

@[simp] theorem result_bind (r : Report α) (next : α → Report β) :
    (r >>= next).result = r.result >>= fun a => (next a).result := by
  cases h : r.result <;> simp [Bind.bind, Report.bind, Except.bind, h]

theorem result_bind_eq_ok {r : Report α} {next : α → Report β} {b : β} :
    (r >>= next).result = .ok b ↔ ∃ a, r.result = .ok a ∧ (next a).result = .ok b := by
  rw [result_bind, bind_eq_ok]

theorem result_bindWith_eq_ok {r : Report α} {next : (a : α) → r.result = .ok a → Report β} {b : β} :
    (r.bindWith next).result = .ok b ↔ ∃ a, ∃ h : r.result = .ok a, (next a h).result = .ok b := by
  obtain ⟨_ | a, _⟩ := r <;> simp [bindWith]

@[simp] theorem result_tell (m : Message) : (tell m).result = .ok () := rfl

@[simp] theorem result_tellIf (c : Bool) (m : Message) : (tellIf c m).result = .ok () := rfl

@[simp] theorem result_fail (f : Failure) : (fail f : Report α).result = .error f := rfl

theorem result_ofOption_eq_ok {a : Option α} {b : α} : (ofOption a).result = .ok b ↔ a = some b := by
  cases a <;> simp [ofOption]

@[simp] theorem result_lift (r : Except Failure α) : (lift r).result = r := rfl

instance : LawfulMonad Report := by
  refine LawfulMonad.mk' Report ?_ ?_ ?_
  · rintro α ⟨_ | _, _⟩ <;> simp [Functor.map, Report.bind, Report.pure]
  · intros
    simp [Bind.bind, Report.bind, Pure.pure, Report.pure]
  · rintro α β γ ⟨_ | a, _⟩ f g
    · rfl
    · rcases h : f a with ⟨_ | _, _⟩ <;> simp [Bind.bind, Report.bind, h]

end Report

end Sightline
