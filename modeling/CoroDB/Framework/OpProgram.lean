import Mathlib.Data.Option.Basic

/-!
# Programs over operations that may be undefined

A program ends with a result or an error, or executes an operation and goes on with what it gives.
-/

namespace CoroDB.Framework

/-- Programs that execute operations `ω` with results `ι`. -/
inductive OpProgram (ω ι ε : Type) (α : Type) where
  | done (r : Except ε α)
  | exec (o : ω) (next : ι → OpProgram ω ι ε α)

namespace OpProgram

variable {ω ι ε α β : Type}

def bind (p : OpProgram ω ι ε α) (f : α → OpProgram ω ι ε β) : OpProgram ω ι ε β :=
  match p with
  | done (.ok a) => f a
  | done (.error e) => done (.error e)
  | exec o next => exec o fun i => (next i).bind f

variable (result : ω → ι)

def run : OpProgram ω ι ε α → Except ε α
  | done r => r
  | exec o next => (next (result o)).run

def executed : OpProgram ω ι ε α → List ω
  | done _ => []
  | exec o next => o :: (next (result o)).executed

theorem run_bind (p : OpProgram ω ι ε α) (f : α → OpProgram ω ι ε β) :
    (p.bind f).run result = (p.run result).bind fun a => (f a).run result := by
  induction p with
  | done r => cases r <;> rfl
  | exec o next ih => exact ih (result o)

def Executes (P : ω → Prop) (p : OpProgram ω ι ε α) : Prop := ∀ o ∈ p.executed result, P o

variable {result} {P : ω → Prop}

@[simp]
theorem executes_done (r : Except ε α) : (done r : OpProgram ω ι ε α).Executes result P := by
  simp [Executes, executed]

@[simp]
theorem executes_exec (o : ω) (next : ι → OpProgram ω ι ε α) :
    (exec o next).Executes result P ↔ P o ∧ (next (result o)).Executes result P := by
  simp [Executes, executed]

theorem executes_bind (p : OpProgram ω ι ε α) (f : α → OpProgram ω ι ε β) :
    (p.bind f).Executes result P ↔
      p.Executes result P ∧ ∀ a, p.run result = .ok a → (f a).Executes result P := by
  induction p with
  | done r => cases r <;> simp [bind, run]
  | exec o next ih =>
    rw [bind, executes_exec, executes_exec, ih, and_assoc]
    rfl

end OpProgram

end CoroDB.Framework
