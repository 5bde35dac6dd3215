import Microx.Godefroid.PolicyMap
import Microx.Process

/-!
# Microx.Godefroid.Process

`class GodefroidProcess` of `godefroid/godefroid.py`: a process over policy
maps, which shows every address it computes to the input policy.

The policy of the process is the one its maps share.
-/

namespace Microx

/-- What the methods of a Godefroid process work on. -/
abbrev GodefroidProc (τ : Type) := ProcOver GodefroidMap (Option InputMemoryPolicy) τ

namespace GodefroidProc

variable {τ α : Type}

/-- Call a method of `self._policy`, which must be an input policy. -/
def callPolicy (m : InputMemoryPolicy.PolicyM α) : EStateM PyExc (GodefroidProc τ) α := fun p =>
  match p.memory.shared with
  | none => .error .assertionError p
  | some policy => match m policy with
      | .ok a policy => .ok a { p with memory := { p.memory with shared := some policy } }
      | .error e policy => .error e { p with memory := { p.memory with shared := some policy } }

variable (thread : Thread τ)

/-- `compute_address`; the address is a sum of unsigned integers. -/
def computeAddress (segName : RegName) (baseAddr index scale disp size : Nat)
    (hint : MemRequestHint) : EStateM PyExc (GodefroidProc τ) Int := do
  let result ← Proc.computeAddress thread segName baseAddr index scale disp size hint
  let addr ← callPolicy
    (InputMemoryPolicy.handleCompute result.toNat baseAddr index scale disp size)
  pure addr

/-- The methods the binding calls. -/
def methods : PyMethods (GodefroidProc τ) :=
  { Proc.methods thread with
    computeAddress := fun seg base index scale disp size hint => do
      let i ← computeAddress thread seg base index scale disp size hint
      pure (.int i) }

end GodefroidProc

namespace Process

variable {τ : Type}

/-- The state of a Godefroid process. -/
abbrev GodefroidState (τ : Type) := World (Binding (GodefroidProc τ))

/-- The executor of a Godefroid process. -/
def godefroidExecutor (process : Process) (thread : Thread τ) :
    Executor (Binding (GodefroidProc τ)) :=
  Binding.executor (GodefroidProc.methods thread) process.xed process.cpu process.isInitialized
    process.addrSize

/-- `execute`, as `GodefroidProcess` inherits it. -/
def godefroidExecute (process : Process) (thread : Thread τ) (maxNumInstructions : Nat) :
    EStateM ExecuteError (GodefroidState τ) Unit := do
  if 0 < maxNumInstructions then
    Binding.execute (process.godefroidExecutor thread) maxNumInstructions
    callSelf (addToTSC thread maxNumInstructions)
  else throw (.raised .assertionError)

/-- The state after some calls of `execute`, each of which may have raised. -/
def godefroidRun (process : Process) : List (Thread τ × Nat) → GodefroidState τ → GodefroidState τ
  | [], w => w
  | (thread, n) :: calls, w =>
      match process.godefroidExecute thread n w with
      | .ok _ w => godefroidRun process calls w
      | .error _ w => godefroidRun process calls w

end Process

end Microx
