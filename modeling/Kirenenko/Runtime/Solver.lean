import Mathlib.Data.Finset.Card
import Mathlib.Data.Finset.Lattice.Fold
import Mathlib.Data.Finset.Union
import Mathlib.Order.Lattice.Nat
import Kirenenko.Lib.Simulation
import Kirenenko.Runtime.Serialize

namespace Kirenenko
set_option autoImplicit true

structure BranchDep where
  exprDeps : Finset Term := ∅
  inputDeps : Finset Nat := ∅

/-- The tainted input as `InitializeTaintFile` reads it. -/
structure TaintedInput where
  isStdin : Bool
  buf : List UInt8

/-- What `WriteToFile` does with the copy of the input: it reports an error of the write, which
then has written nothing, but not that a write was cut short. -/
inductive CopyResult where
  | full
  | short (n : Nat)
  | failed

/-- Outcomes of the file operations for the generated input of each index. -/
structure Host where
  opens : Nat → Bool
  copies : Nat → CopyResult

/-- The file after the input was copied into it, unless that failed. -/
def Host.copied (host : Host) (index : Nat) (buf : List UInt8) : Option (List UInt8) :=
  match host.copies index with
  | .full => some buf
  | .short n => some (buf.take n)
  | .failed => none

/-- The state of the solving part of the runtime. The vector of dependencies is given by its
size and its entries, which are null past the size; `branches` counts the visits of a context. -/
structure SolverState where
  table : LabelTable
  depSize : Nat
  dep : Nat → Option BranchDep := fun _ => none
  branches : Nat × Nat → Nat := fun _ => 0
  queries : Nat := 0
  currentIndex : Nat := 0
  files : Nat → Option (List UInt8) := fun _ => none

def SolverState.start (input : TaintedInput) (t : LabelTable) : SolverState where
  table := t
  depSize := input.buf.length

abbrev SolveM := EStateM Exn SolverState

def labelInfo (label : Nat) : SolveM LabelInfo := do
  let s ← get
  match s.table.getLabelInfo label with
  | .ok info => return info
  | .error f => throw (.fault f)

def setFlipped (label : Nat) : SolveM Unit :=
  modify fun s => { s with table := s.table.flip label }

/-- `serialize` with an empty set; the stack never needs more frames than there are labels. -/
def serializeLabel (z : Z3) (mem : Memory) (label : Nat) : SolveM (Term × Finset Nat) := fun s =>
  match serialize z mem (label + 1) label ∅ s.table with
  | .ok r t => .ok r { s with table := t }
  | .error e t => .error e { s with table := t }

/-- In stdin mode the vector grows to hold an index before it is used. -/
def SolverState.reserve (input : TaintedInput) (n : Nat) (s : SolverState) : SolverState :=
  if input.isStdin ∧ n ≥ s.depSize then { s with depSize := n + 1 } else s

def getBranchDep (input : TaintedInput) (n : Nat) : SolveM (Option BranchDep) := do
  modify (SolverState.reserve input n)
  let s ← get
  if n < s.depSize then return s.dep n else throw (.fault .outOfRange)

def setBranchDep (input : TaintedInput) (n : Nat) (d : BranchDep) : SolveM Unit := do
  modify (SolverState.reserve input n)
  let s ← get
  if n < s.depSize then set { s with dep := Function.update s.dep n (some d) }
  else throw (.fault .outOfRange)

/-- The elements of an unordered set, in some order. -/
def elements (s : Finset Nat) : List Nat := (List.range (s.sup id + 1)).filter (· ∈ s)

/-- Records a constraint under every offset of a set, together with the set. -/
def recordConstraint (input : TaintedInput) (e : Term) (inputs : Finset Nat) :
    List Nat → SolveM Unit
  | [] => pure ()
  | off :: rest => do
    let c := (← getBranchDep input off).getD {}
    setBranchDep input off
      { exprDeps := insert e c.exprDeps, inputDeps := c.inputDeps ∪ inputs }
    recordConstraint input e inputs rest

/-- Only the exceptions of the solver are caught. -/
def catchZ3 (x : SolveM Unit) : SolveM (Option Z3Exception) := fun s =>
  match x s with
  | .ok _ s => .ok none s
  | .error (.z3 e) s => .ok (some e) s
  | .error (.fault f) s => .error (.fault f) s

def addConstraints (z : Z3) (mem : Memory) (input : TaintedInput) (label : Nat) :
    SolveM (Option Z3Exception) := do
  if (← labelInfo label).flipped then return none
  else
    let r ← catchZ3 do
      let (cond, inputs) ← serializeLabel z mem label
      recordConstraint input cond inputs (elements inputs)
    setFlipped label
    return r

/-- The worklist that closes a set of offsets under the recorded dependencies. -/
def closeInputs (input : TaintedInput) : Nat → List Nat → Finset Nat → SolveM (Finset Nat)
  | _, [], inputs => pure inputs
  | 0, _ :: _, _ => throw (.fault .diverge)
  | fuel + 1, off :: worklist, inputs => do
    match ← getBranchDep input off with
    | none => closeInputs input fuel worklist inputs
    | some deps =>
      closeInputs input fuel (elements (deps.inputDeps \ inputs) ++ worklist)
        (inputs ∪ deps.inputDeps)

def collectExprs (input : TaintedInput) : List Nat → Finset Term → SolveM (Finset Term)
  | [], added => pure added
  | off :: rest, added => do
    match ← getBranchDep input off with
    | none => collectExprs input rest added
    | some deps => collectExprs input rest (added ∪ deps.exprDeps)

/-- A formula that is not Boolean cannot be asserted. -/
def assertAll (fs : Finset Term) : Except Z3Exception (Finset Term) :=
  if ∀ f ∈ fs, f.sort = some .bool then .ok fs else .error .api

def solverCheck (z : Z3) (fs : Finset Term) : SolveM CheckResult := do
  let s ← get
  set { s with queries := s.queries + 1 }
  return z.check s.queries fs

/-- A bound on the iterations of the worklist: each offset is pushed once. -/
def SolverState.closeFuel (s : SolverState) (inputs : Finset Nat) : Nat :=
  (inputs ∪ (Finset.range s.depSize).biUnion fun n => ((s.dep n).getD {}).inputDeps).card

/-- What `__solve_cond` has asked the solver about a branch. -/
structure BranchQuery where
  cond : Term
  inputs : Finset Nat
  first : CheckResult
  second : Option CheckResult

/-- The queries of `__solve_cond`: the negated branch alone, then with the constraints that
depend on the same input. -/
def queryWith (z : Z3) (input : TaintedInput) (result cond : Term) (inputs : Finset Nat) :
    SolveM BranchQuery := do
  let s ← get
  let inputs ← closeInputs input (s.closeFuel inputs) (elements inputs) inputs
  let negated ← liftZ3 (checked (.distinct cond result))
  match ← solverCheck z {negated} with
  | .sat m =>
    let added ← collectExprs input (elements inputs) ∅
    let fs ← liftZ3 (assertAll (insert negated added))
    let second ← solverCheck z fs
    return ⟨cond, inputs, .sat m, some second⟩
  | first => return ⟨cond, inputs, first, none⟩

def queryBranch (z : Z3) (mem : Memory) (input : TaintedInput) (label : Nat) (result : Term) :
    SolveM BranchQuery := do
  let (cond, inputs) ← serializeLabel z mem label
  queryWith z input result cond inputs

/-- A write at an offset past the end leaves a gap of zeros. -/
def writeAt (f : List UInt8) (off : Nat) (v : UInt8) : List UInt8 :=
  (f ++ List.replicate (off + 1 - f.length) 0).set off v

/-- The loop over the constants of a model; a value for `fsize` ends it. -/
def writeModel (size : Nat) :
    List ((Symbol × Nat) × Nat) → List UInt8 → List UInt8 × Option Z3Exception
  | [], f => (f, none)
  | ((.int offset, _), v) :: m, f => writeModel size m (writeAt f offset (UInt8.ofNat v))
  | ((.str name, _), v) :: m, f =>
    if name ≠ "fsize" then writeModel size m f
    else if v ≥ 2 ^ 63 then (f, some .api)
    else if v > size then (writeAt f v 0, some (.msg "skip fsize constraints"))
    else (f.take v, some (.msg "skip fsize constraints"))

/-- The number of the next file, `__current_index++`. -/
def nextIndex : SolveM Nat := do
  let s ← get
  set { s with currentIndex := (s.currentIndex + 1) % 2 ^ 32 }
  return s.currentIndex

def writeFile (index : Nat) (f : List UInt8) : SolveM Unit :=
  modify fun s => { s with files := Function.update s.files index (some f) }

def generateInput (host : Host) (input : TaintedInput) (m : List ((Symbol × Nat) × Nat)) :
    SolveM Unit := do
  let index ← nextIndex
  if !host.opens index then throw (.z3 (.msg "failed to open new input file for write"))
  else if input.isStdin then
    writeFile index []
    throw (.z3 (.msg "original input is stdin"))
  else
    match host.copied index input.buf with
    | none =>
      writeFile index []
      throw (.z3 (.msg "failed to copy original input\n"))
    | some f =>
      let (f, e) := writeModel input.buf.length m f
      writeFile index f
      match e with
      | some e => throw (.z3 e)
      | none => return ()

def generateFrom (host : Host) (input : TaintedInput) (q : BranchQuery) : SolveM Unit :=
  match q.first, q.second with
  | .sat _, some (.sat m) => generateInput host input m
  | .sat m, _ => generateInput host input m
  | _, _ => pure ()

/-- The body of `__solve_cond` past the flag. -/
def solveBranch (z : Z3) (mem : Memory) (host : Host) (input : TaintedInput) (label : Nat)
    (result : Term) (addNested : Bool) : SolveM Unit := do
  let q ← queryBranch z mem input label result
  generateFrom host input q
  if addNested then
    let e ← liftZ3 (checked (.eq q.cond result))
    recordConstraint input e q.inputs (elements q.inputs)
  setFlipped label

/-- `__solve_cond`, with the exception it reports. -/
def solveCond (z : Z3) (mem : Memory) (host : Host) (input : TaintedInput) (label : Nat)
    (result : Term) (addNested : Bool) : SolveM (Option Z3Exception) := do
  if (← labelInfo label).flipped then return none
  else catchZ3 (solveBranch z mem host input label result addNested)

def maxBranchCount : Nat := 16

/-- The filter on calling context and address. -/
def visit (context : Nat × Nat) : SolveM Bool := do
  let s ← get
  let n := s.branches context
  if n < maxBranchCount then
    set { s with branches := Function.update s.branches context (n + 1) }
    return true
  else return false

/-- Exceptions of the solver end the program outside of a handler. -/
def uncaught (x : Except Z3Exception α) : SolveM α :=
  match x with
  | .ok a => pure a
  | .error _ => throw (.fault .uncaught)

def unionLabel (k : LabelKey) : SolveM Nat := fun s =>
  match dfsanUnion s.table k with
  | .ok (label, t) => .ok label { s with table := t }
  | .error f => .error (.fault f) s

def cmpResult (z : Z3) (size predicate c1 c2 : Nat) : Except Z3Exception Term := do
  let bvC1 ← checked (.bvVal c1 size)
  let bvC2 ← checked (.bvVal c2 size)
  z.simplify <$> getCmd bvC1 bvC2 predicate

/-- `__taint_trace_cmp`, which is emitted for the cases of a switch. -/
def taintTraceCmp (z : Z3) (mem : Memory) (host : Host) (input : TaintedInput)
    (context : Nat × Nat) (op1 op2 size predicate c1 c2 : Nat) :
    SolveM (Option Z3Exception) := do
  if op1 = 0 ∧ op2 = 0 then return none
  else if !(← visit context) then return none
  else
    let temp ← unionLabel
      { l1 := op1, l2 := op2, op := ((predicate <<< 8) ||| Operators.ICmp.code) % 2 ^ 16
        size := size, op1 := c1, op2 := c2 }
    let result ← uncaught (cmpResult z size predicate c1 c2)
    solveCond z mem host input temp result (c1 = c2)

/-- `__taint_trace_cond`, which is emitted for conditional branches. -/
def taintTraceCond (z : Z3) (mem : Memory) (host : Host) (input : TaintedInput)
    (context : Nat × Nat) (label r : Nat) : SolveM (Option Z3Exception) := do
  if label = 0 then return none
  else if !(← visit context) then return none
  else solveCond z mem host input label (.boolVal (r ≠ 0)) true

end Kirenenko
