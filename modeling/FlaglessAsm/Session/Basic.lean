import FlaglessAsm.Config.Basic
import FlaglessAsm.Instruction.Basic
import FlaglessAsm.SymbolTable

/-!
# Assembly sessions

A session is fed source lines and keeps the words written so far.  A branch to a label that is not
bound yet is written with a displacement of zero and deferred; resolving the session patches it.

Steps of a session can fail, and a failing step leaves behind what it had done before the failure,
so they live in a monad whose errors keep the state.

## What is here

* `InstructionCell`, `DataCell`, `DeferredBranch`, `Session`: the state of a session.
* `Step`: steps of a session, and the ways to lift other computations to them.
* `Session.start`: a session in which nothing has been written.
-/

set_option autoImplicit false

namespace FlaglessAsm

/-! ## State -/

/-- An instruction word and where it is written. -/
structure InstructionCell where
  address : Address
  word : Word
  deriving DecidableEq

/-- A data word, in halves, and where it is written. -/
structure DataCell where
  address : Address
  high : Word
  low : Word
  deriving DecidableEq

/-- A branch written before its label was bound. -/
structure DeferredBranch where
  line : SourceLine
  /-- The position of its word among the instruction words. -/
  position : Nat
  /-- The address of its word. -/
  pc : Address
  condition : Condition
  label : String
  deriving DecidableEq

/-- The state of an assembly session. -/
structure Session where
  config : Config
  /-- The address of the next instruction word. -/
  pc : Address
  /-- The address of the next data word. -/
  dataAddress : Address
  data : Array DataCell := #[]
  text : Array InstructionCell := #[]
  symbols : SymbolTable := .empty
  deferred : Array DeferredBranch := #[]
  /-- Whether nothing but conditional branches stands behind the last compare. -/
  afterCompare : Bool := false
  /-- The label of the first data word that refers to a label. -/
  dataBoundary : Option String := none

/-- A step of a session, which keeps its state when it fails. -/
abbrev Step (α : Type) := EStateM AsmError Session α

namespace Session

/-- A session in which nothing has been written. -/
def start (config : Config) : Except AsmError Session :=
  match config.validate with
  | .ok () => .ok { config, pc := config.textStart, dataAddress := config.dataStart }
  | .error e => .error e

/-! ## Lifting -/

/-- The result of a computation, with its error blamed on a line. -/
def onLine {α : Type} (line : SourceLine) : Except Cause α → Step α
  | .ok a => pure a
  | .error cause => throw (.onLine line cause)

/-- The result of a computation that leaves the session alone. -/
def lift {α : Type} : Except AsmError α → Step α
  | .ok a => pure a
  | .error e => throw e

end Session
end FlaglessAsm
