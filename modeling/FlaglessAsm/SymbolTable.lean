import Std.Data.TreeMap
import FlaglessAsm.Source.Statement

/-!
# Labels and what they name

A label names what the next statement that is not a label stands for.  In front of a number it names
the address of that data word; in front of a data word that refers to another label it names that
label; in front of an instruction, or at the end, it names an instruction address.

The first two are known before any instruction is encoded.  A code label has no place before the
statement it precedes is reached.

## What is here

* `Binding`, `SymbolTable`: what labels are bound to, and which of them have no place yet.
* `SymbolTable.code?`, `data?`, `pointer?`, `isDeclared`: questions to a table.
* `SymbolTable.bindCode`: binding the code labels in front of a statement.
* `SymbolTable.ofStatements`: the table of a list of statements before any is encoded.
-/

set_option autoImplicit false

namespace FlaglessAsm

/-! ## Tables -/

/-- What a label names. -/
inductive Binding where
  | data (address : Address)
  /-- An instruction address, and the number of instruction words in front of it. -/
  | code (pc : Address) (position : Nat)
  /-- Another label, whose address is meant. -/
  | pointer (target : String)
  deriving DecidableEq

/-- The labels of a source text. -/
structure SymbolTable where
  /-- The labels with a binding. -/
  bound : Std.TreeMap String Binding := ∅
  /-- The code labels without a place, by the index of the statement they precede. -/
  unplaced : Std.TreeMap Nat (List String) := ∅
  /-- The line on which each label is declared. -/
  declared : Std.TreeMap String Nat := ∅

namespace SymbolTable

/-- The table without labels. -/
def empty : SymbolTable := {}

/-- What a label is bound to. -/
def get? (t : SymbolTable) (name : String) : Option Binding :=
  t.bound[name]?

/-- The instruction address of a code label. -/
def code? (t : SymbolTable) (name : String) : Option Address :=
  match t.get? name with
  | some (.code pc _) => some pc
  | _ => none

/-- The address of a data label. -/
def data? (t : SymbolTable) (name : String) : Option Address :=
  match t.get? name with
  | some (.data address) => some address
  | _ => none

/-- The label that a pointer label refers to. -/
def pointer? (t : SymbolTable) (name : String) : Option String :=
  match t.get? name with
  | some (.pointer target) => some target
  | _ => none

theorem code?_eq_some_iff {t : SymbolTable} {name : String} {pc : Address} :
    t.code? name = some pc ↔ ∃ position, t.get? name = some (.code pc position) := by
  rw [code?]
  rcases t.get? name with _ | (_ | _ | _) <;> simp

theorem data?_eq_some_iff {t : SymbolTable} {name : String} {address : Address} :
    t.data? name = some address ↔ t.get? name = some (.data address) := by
  rw [data?]
  rcases t.get? name with _ | (_ | _ | _) <;> simp

theorem pointer?_eq_some_iff {t : SymbolTable} {name target : String} :
    t.pointer? name = some target ↔ t.get? name = some (.pointer target) := by
  rw [pointer?]
  rcases t.get? name with _ | (_ | _ | _) <;> simp

/-- Whether a label is declared, bound or not. -/
def isDeclared (t : SymbolTable) (name : String) : Bool :=
  t.declared.contains name

/-- The bound labels in the order of their names. -/
def toList (t : SymbolTable) : List (String × Binding) :=
  t.bound.toList

/-- The code labels at each address, in the order of their names. -/
def codeLabels (t : SymbolTable) : Std.TreeMap Address (List String) :=
  t.toList.foldr (fun (name, binding) labels =>
    match binding with
    | .code pc _ => labels.insert pc (name :: labels.getD pc [])
    | _ => labels) ∅

/-! ## Changes -/

/-- Binds a label. -/
def bind (t : SymbolTable) (name : String) (binding : Binding) : SymbolTable :=
  { t with bound := t.bound.insert name binding }

/-- Records the line on which a label is declared. -/
def declare (t : SymbolTable) (name : String) (line : Nat) : SymbolTable :=
  { t with declared := t.declared.insert name line }

/-- Records a code label in front of a statement. -/
def addUnplaced (t : SymbolTable) (name : String) (statement : Nat) : SymbolTable :=
  { t with unplaced := t.unplaced.insert statement (name :: t.unplaced.getD statement []) }

/-- Binds the code labels in front of a statement. -/
def bindCode (t : SymbolTable) (statement : Nat) (pc : Address) (position : Nat) :
    SymbolTable :=
  (t.unplaced.getD statement []).foldl (fun t name => t.bind name (.code pc position))
    { t with unplaced := t.unplaced.erase statement }

/-! ## The labels of a source text -/

/-- Takes note of a label in front of `rest`, which starts at statement `index`, when the next data
address is `address`. -/
def attach (t : SymbolTable) (name : String) (index : Nat) (address : Address)
    (rest : List SourceStatement) : SymbolTable :=
  let labels := rest.takeWhile fun s => s.statement.isLabel
  match rest.dropWhile fun s => s.statement.isLabel with
  | ⟨_, .word (.symbol target)⟩ :: _ => t.bind name (.pointer target)
  | ⟨_, .word (.value _)⟩ :: _ => t.bind name (.data address)
  | _ => t.addUnplaced name (index + labels.length)

/-- The table of statements from statement `index` on, with the labels of `t` in front of them and
the next data word at `address`. -/
def ofStatementsFrom (t : SymbolTable) (index : Nat) (address : Address) :
    List SourceStatement → Except AsmError SymbolTable
  | [] => .ok t
  | ⟨line, .label name⟩ :: rest =>
    match t.declared[name]? with
    | some first => .error (.onLine line (.duplicateLabel name first))
    | none =>
      ofStatementsFrom ((t.declare name line.index).attach name (index + 1) address rest) (index + 1)
        address rest
  | ⟨line, .word (.value _)⟩ :: rest =>
    match address.next? with
    | some next => ofStatementsFrom t (index + 1) next rest
    | none => .error (.onLine line (.addressSpace .data))
  | ⟨_, .word (.symbol _)⟩ :: rest | ⟨_, .instruction ..⟩ :: rest =>
    ofStatementsFrom t (index + 1) address rest

/-- The labels of a list of statements whose data starts at an address. -/
def ofStatements (statements : List SourceStatement) (dataStart : Address) :
    Except AsmError SymbolTable :=
  ofStatementsFrom empty 0 dataStart statements

end SymbolTable
end FlaglessAsm
