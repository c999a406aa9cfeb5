import Kirenenko.Pass.Ir
import Kirenenko.Runtime.TraceEvents

namespace Kirenenko
set_option autoImplicit true

/-- A place in the program: a function, a block, and an instruction or else the terminator. -/
structure TraceSite where
  func : String
  block : Nat
  inst : Option Nat
deriving DecidableEq

/-- A call of `__taint_trace_cond`, or of `__taint_trace_cmp` for the case `k` of a switch, with the
place it is made from and those of the active calls. -/
inductive TraceCall where
  | cond (stack : List TraceSite) (label r : Nat)
  | cmp (stack : List TraceSite) (k label size c1 c2 : Nat)
deriving DecidableEq

def TraceCall.label : TraceCall → Nat
  | .cond _ label _ => label
  | .cmp _ _ label _ _ _ => label

/-- What the runtime does when it is told of a branch: whatever it does to its own state and to the
table, it does nothing for a condition without label. -/
structure Reaction (σ : Type) where
  react : TraceCall → (Nat → UInt8) → σ → LabelTable → Except Fault (σ × LabelTable)
  unlabelled : ∀ c mem s t, c.label = 0 → react c mem s t = .ok (s, t)

/-- The state after a call, with the table apart from the rest. -/
def SolverState.after (s : SolverState) :
    EStateM.Result Exn SolverState (Option Z3Exception) →
      Except Fault (SolverState × LabelTable)
  | .ok _ s' => .ok ({ s' with table := s.table }, s'.table)
  | .error (.fault f) _ => .error f
  | .error (.z3 _) _ => .error .uncaught

/-- The runtime's own `__taint_trace_cond` and `__taint_trace_cmp`, where `context` is the hash of
the call stack and the return address of a call. -/
def solverReact (z : Z3) (host : Host) (input : TaintedInput)
    (context : List TraceSite → Option Nat → Nat × Nat) (c : TraceCall) (mem : Nat → UInt8)
    (s : SolverState) (t : LabelTable) : Except Fault (SolverState × LabelTable) :=
  match c with
  | .cond stack label r =>
    s.after (taintTraceCond z mem host input (context stack none) label r { s with table := t })
  | .cmp stack k label size c1 c2 =>
    s.after (taintTraceCmp z mem host input (context stack (some k)) label 0 size
      Predicate.bveq.code c1 c2 { s with table := t })

theorem solverReact_unlabelled {c : TraceCall} (h : c.label = 0) :
    solverReact z host input context c mem s t = .ok (s, t) := by
  unfold solverReact
  cases c with
  | cond stack label r =>
    have h0 : label = 0 := h
    simp only [taintTraceCond_eq, h0, true_or, if_true]
    rfl
  | cmp stack k label size c1 c2 =>
    have h0 : label = 0 := h
    simp only [taintTraceCmp_eq, h0, and_self, true_or, if_true]
    rfl

def solverReaction (z : Z3) (host : Host) (input : TaintedInput)
    (context : List TraceSite → Option Nat → Nat × Nat) : Reaction SolverState where
  react := solverReact z host input context
  unlabelled _ _ _ _ h := solverReact_unlabelled h

/-- The labels of the memory, the table and the state of the solver. -/
structure LabelStore (σ : Type) where
  shadow : Nat → Nat
  table : LabelTable
  solver : σ

/-- The labels of an activation: of its arguments, its results and its variables. -/
structure LabelFrame where
  args : Nat → Nat
  regs : Nat → Nat
  vars : Nat → Nat

def LabelFrame.label (g : LabelFrame) : IrValue → Nat
  | .const _ => 0
  | .arg i => g.args i
  | .inst id => g.regs id

def LabelFrame.set (g : LabelFrame) (id label : Nat) : LabelFrame :=
  { g with regs := Function.update g.regs id label }

def LabelFrame.setVar (g : LabelFrame) (a label : Nat) : LabelFrame :=
  { g with vars := Function.update g.vars a label }

/-- An operand as the checks for constants see it. -/
def IrValue.operand : IrValue → Operand
  | .const v => .const v
  | .arg i => .reg i
  | .inst id => .reg id

def IrFrame.site (f : IrFrame) : TraceSite := ⟨f.func.name, f.block, f.rest.head?.map Prod.fst⟩

section
variable {σ : Type}

def LabelStore.trace (R : Reaction σ) (mem : Nat → UInt8) (S : LabelStore σ) (c : TraceCall) :
    Except Stop (LabelStore σ) := do
  let (solver, table) ← runtime (R.react c mem S.solver S.table)
  return { S with solver := solver, table := table }

/-- The label of a result that is computed from labelled operands. -/
def combinedLabel (t : LabelTable) (l1 l2 op : Nat) (pos : Position) :
    Except Fault (Nat × LabelTable) :=
  if pos.resultWidth > 64 then .ok (0, t) else taintUnion t (pos.key (some l1) (some l2) op)

def LabelStore.combine (S : LabelStore σ) (g : LabelFrame) (id l1 l2 op : Nat) (pos : Position) :
    Except Stop (LabelFrame × LabelStore σ) := do
  let (label, t) ← runtime (combinedLabel S.table l1 l2 op pos)
  return (g.set id label, { S with table := t })

/-- What an instruction means for the labels, given the state of the program before it. -/
def labelInst (R : Reaction σ) (host : IrHost) (slots : List Nat) (id : Nat)
    (stack : List TraceSite) (l : Locals) (mem : Nat → UInt8) (g : LabelFrame)
    (S : LabelStore σ) : IrInst → Except Stop (LabelFrame × LabelStore σ)
  | .binary op w a b => do
    let x ← defined (l.read w a)
    let y ← defined (l.read w b)
    S.combine g id (g.label a) (g.label b) (binaryShadowOp op w a.operand b.operand)
      ⟨w, w, none, x, some y⟩
  | .cast op w w' a => do
    let x ← defined (l.read w a)
    S.combine g id (g.label a) 0 op.opcode.code ⟨w', w, none, x, none⟩
  | .icmp p w a b => do
    let x ← defined (l.read w a)
    let y ← defined (l.read w b)
    S.combine g id (g.label a) (g.label b) Operators.ICmp.code ⟨1, w, some p, x, some y⟩
  | .select _ c a b => do
    let k ← defined (l.read 1 c)
    let S ← S.trace R mem (.cond stack (g.label c) k)
    return (g.set id (if k = 1 then g.label a else g.label b), S)
  | .gep _ _ _ => .ok (g.set id 0, S)
  | .alloca _ => .ok (g.set id 0, S)
  | .load w ptr =>
    match variableOf slots ptr with
    | some a => .ok (g.set id (g.vars a), S)
    | none => do
      let p ← defined (l.read 64 ptr)
      defined (appRange p (storeSize w))
      let (label, t) ← runtime (taintUnionLoad S.table (fun i => mem (p + i))
        (fun i => S.shadow (p + i)) (storeSize w))
      return (g.set id label, { S with table := t })
  | .store w v ptr =>
    match variableOf slots ptr with
    | some a => .ok (g.setVar a (g.label v), S)
    | none => do
      let p ← defined (l.read 64 ptr)
      defined (appRange p (storeSize w))
      let (ls, t) ← runtime (taintUnionStore S.table (g.label v) (fun i => S.shadow (p + i))
        (storeSize w))
      return (g, { S with shadow := written p ls (storeSize w) S.shadow, table := t })
  | .memset dest v len => do
    let p ← defined (l.read 64 dest)
    let n ← defined (l.read 64 len)
    defined (appRange p n)
    return (g, { S with shadow := written p (fun _ => g.label v) n S.shadow })
  | .memTransfer dest src len => do
    let p ← defined (l.read 64 dest)
    let q ← defined (l.read 64 src)
    let n ← defined (l.read 64 len)
    defined (appRange p n)
    defined (appRange q n)
    return (g, { S with shadow := written p (fun i => S.shadow (q + i)) n S.shadow })
  | .pread buf count offset => do
    let p ← defined (l.read 64 buf)
    let n ← defined (l.read 64 count)
    let o ← defined (l.read 64 offset)
    let ret := preadResult host.content n o
    defined (appRange p ret)
    return (g.set id 0,
      { S with shadow := written p (fun i => (o + i + constOffset) % 2 ^ 32) ret S.shadow })
  | .call _ _ _ => .error .undefined

/-- A program together with the labels of all its values. -/
structure TaggedState (σ : Type) where
  values : IrState
  frames : List LabelFrame
  store : LabelStore σ
  resultLabel : Nat := 0

/-- The labels of the phi nodes of a block that is entered from block `p`. -/
def phiLabels (g : LabelFrame) (p : Nat) (phis : List IrPhi) : List (Nat × Nat) :=
  phis.filterMap fun φ => (φ.incoming.lookup p).map fun v => (φ.id, g.label v)

def LabelFrame.enter (g : LabelFrame) (p : Nat) (phis : List IrPhi) : LabelFrame :=
  { g with regs := fun id => ((phiLabels g p phis).lookup id).getD (g.regs id) }

def LabelFrame.jump (g : LabelFrame) (f : IrFrame) (target : Nat) : LabelFrame :=
  g.enter f.block ((f.func.blocks[target]?).elim [] IrBlock.phis)

/-- A callee starts with the labels of its arguments. -/
def LabelFrame.start (g : LabelFrame) (args : List (Nat × IrValue)) : LabelFrame :=
  ⟨fun i => (args[i]?).elim 0 fun a => g.label a.2, fun _ => 0, fun _ => 0⟩

/-- The label of a result goes to the call it is the result of. -/
def labelReturn (label : Option Nat) : List IrFrame → List LabelFrame → List LabelFrame
  | f :: _, g :: gs =>
    match label, f.rest with
    | some label, (id, _) :: _ => g.set id label :: gs
    | _, _ => g :: gs
  | _, gs => gs

/-- The calls that tell the runtime of a branch. -/
def IrTerm.traceCalls (stack : List TraceSite) (l : Locals) (g : LabelFrame) :
    IrTerm → Except Stop (List TraceCall)
  | .condBr c _ _ => do
    let x ← defined (l.read 1 c)
    return [.cond stack (g.label c) x]
  | .switch w c cases _ => do
    let x ← defined (l.read w c)
    return cases.zipIdx.map fun y =>
      .cmp stack y.2 (g.label c) w (x % 2 ^ 64) (y.1.1 % 2 ^ w % 2 ^ 64)
  | _ => .ok []

/-- One step of the program and of its labels. -/
def TaggedState.step (R : Reaction σ) (host : IrHost) (m : List IrFunction) (s : TaggedState σ) :
    Except Stop (TaggedState σ) :=
  match s.values.frames, s.frames with
  | f :: fs, g :: gs =>
    let stack := s.values.frames.map IrFrame.site
    match f.rest with
    | (_, .call _ args _) :: _ => do
      let values ← s.values.step host m
      return { s with values := values, frames := g.start args :: g :: gs }
    | (id, i) :: _ => do
      let (g, store) ← labelInst R host f.func.promoted id stack f.locals s.values.memory.mem g
        s.store i
      let values ← s.values.step host m
      return { s with values := values, frames := g :: gs, store := store }
    | [] =>
      match f.term with
      | .ret v => do
        let values ← s.values.step host m
        let label := v.map fun v => g.label v.2
        return { s with values := values, frames := labelReturn label fs gs,
                        resultLabel := if fs.isEmpty then label.getD 0 else s.resultLabel }
      | term => do
        let calls ← term.traceCalls stack f.locals g
        let store ← calls.foldlM (LabelStore.trace R s.values.memory.mem) s.store
        let target ← term.target f.locals
        let values ← s.values.step host m
        return { s with values := values, frames := g.jump f target :: gs, store := store }
  | _, _ => .ok s

/-- The arguments of the first function have no labels. -/
def TaggedState.start (main : IrFunction) (args : List Nat) (m : IrMemory) (S : LabelStore σ) :
    Except Stop (TaggedState σ) := do
  let values ← IrState.start main args m
  return { values := values, frames := [⟨fun _ => 0, fun _ => 0, fun _ => 0⟩], store := S }

/-- What a program and its labels have come to: the result with its label, the memory, and the
labels of the memory with the table. -/
structure Outcome (σ : Type) where
  result : Option (Nat × Nat)
  memory : IrMemory
  labels : LabelStore σ

def TaggedState.outcome (s : TaggedState σ) : Option (Outcome σ) :=
  if s.values.frames.isEmpty then
    some ⟨s.values.result.map fun x => (x, s.resultLabel), s.values.memory, s.store⟩
  else none

/-- `n` steps of the program and of its labels. -/
def TaggedState.run (R : Reaction σ) (host : IrHost) (m : List IrFunction) :
    Nat → TaggedState σ → Except Stop (TaggedState σ) :=
  stepsOf (TaggedState.step R host m)

end

end Kirenenko
