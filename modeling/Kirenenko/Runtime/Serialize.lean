import Mathlib.Data.Finset.Image
import Kirenenko.Runtime.LabelTable

namespace Kirenenko
set_option autoImplicit true

/-- Application memory, read when a comparison with a concrete buffer is serialized. -/
abbrev Memory := Nat → UInt8

inductive Exn where
  | z3 (e : Z3Exception)
  | fault (f : Fault)
deriving DecidableEq

def liftZ3 (x : Except Z3Exception α) : EStateM Exn σ α :=
  match x with
  | .ok a => pure a
  | .error e => throw (.z3 e)

/-- The constant of an input byte; the offset is converted to an `int` symbol. -/
def byteTerm (offset : Nat) : Except Z3Exception Term := do
  let symbol ← intSymbol (offset % 2 ^ 32)
  checked (.const symbol 8)

/-- The bytes of a `Load` in little-endian order: the first one and `k` more. -/
def loadTerm (offset : Nat) : Nat → Except Z3Exception Term
  | 0 => byteTerm offset
  | k + 1 => do
    let out ← loadTerm offset k
    let byte ← byteTerm (offset + (k + 1))
    checked (.concat byte out)

def loadDeps (offset k : Nat) : Finset Nat :=
  (Finset.range (k + 1)).image fun i => (offset + i) % 2 ^ 32

def concreteTerm (mem : Memory) (addr : Nat) : Nat → Except Z3Exception Term
  | 0 => checked (.bvVal (mem addr).toNat 8)
  | k + 1 => do
    let val ← concreteTerm mem addr k
    let byte ← checked (.bvVal (mem (addr + (k + 1))).toNat 8)
    checked (.concat byte val)

/-- `read_concrete`, whose size parameter is a `u8`. -/
def readConcrete (mem : Memory) (addr size : Nat) : Except Z3Exception Term :=
  if addr = 0 then .error (.msg "invalid concrete address")
  else concreteTerm mem addr (size % 2 ^ 8 - 1)

def getCmd (lhs rhs : Term) (predicate : Nat) : Except Z3Exception Term :=
  match Predicate.ofCode predicate with
  | some .bveq => checked (.eq lhs rhs)
  | some .bvneq => checked (.distinct lhs rhs)
  | some .bvugt => checked (.rel .ugt lhs rhs)
  | some .bvuge => checked (.rel .uge lhs rhs)
  | some .bvult => checked (.rel .ult lhs rhs)
  | some .bvule => checked (.rel .ule lhs rhs)
  | some .bvsgt => checked (.rel .sgt lhs rhs)
  | some .bvsge => checked (.rel .sge lhs rhs)
  | some .bvslt => checked (.rel .slt lhs rhs)
  | some .bvsle => checked (.rel .sle lhs rhs)
  | none => .error (.msg "unsupported predicate")

/-- The Boolean of a comparison as a bit, since LLVM lacks Booleans. -/
def boolToBv (base : Term) : Except Z3Exception Term :=
  if base.sort = some .bool then checked (.ite base (.bvVal 1 1) (.bvVal 0 1)) else .ok base

def bvSize (base : Term) : Except Z3Exception Nat :=
  match base.sort with
  | some (.bv w) => .ok w
  | _ => .error .api

/-- The number of added bits is unsigned, so extending to a smaller size is rejected. -/
def extendTerm (f : Nat → Term → Term) (size w : Nat) (base : Term) : Except Z3Exception Term :=
  if w ≤ size then checked (f (size - w) base) else .error .api

/-- Bits `lo` to `lo + size - 1`, passed as two `unsigned`; for size 0 the upper bound wraps
around and is rejected. -/
def extractTerm (lo size : Nat) (base : Term) : Except Z3Exception Term :=
  if size = 0 then .error .api
  else checked (.extract ((lo + size - 1) % 2 ^ 32) (lo % 2 ^ 32) base)

def lnotTerm (e : Term) : Except Z3Exception Term :=
  if e.sort = some .bool then checked (.not e)
  else .error (.msg "Only LNot should be recorded")

def memcmpTerm (op1 op2 : Term) : Except Z3Exception Term :=
  checked (.ite (.eq op1 op2) (.bvVal 0 32) (.bvVal 1 32))

def fsizeTerm (op1 size : Nat) : Except Z3Exception Term := do
  let base ← checked (.const (.str "fsize") size)
  if op1 ≠ 0 then checked (.bin .sub base (.bvVal op1 size)) else .ok base

/-- The final switch over `op & 0xff`. -/
def commonTerm (op size : Nat) (op1 op2 : Term) : Except Z3Exception Term :=
  match Operators.ofCode (op % 2 ^ 8) with
  | some .And => checked (if size ≠ 1 then .bin .and op1 op2 else .logic .and op1 op2)
  | some .Or => checked (if size ≠ 1 then .bin .or op1 op2 else .logic .or op1 op2)
  | some .Xor =>
    checked (if op1.sort = some .bool then .logic .xor op1 op2 else .bin .xor op1 op2)
  | some .Shl => checked (.bin .shl op1 op2)
  | some .LShr => checked (.bin .lshr op1 op2)
  | some .AShr => checked (.bin .ashr op1 op2)
  | some .Add => checked (.bin .add op1 op2)
  | some .Sub => checked (.bin .sub op1 op2)
  | some .Mul => checked (.bin .mul op1 op2)
  | some .UDiv => checked (.bin .udiv op1 op2)
  | some .SDiv => checked (.bin .sdiv op1 op2)
  | some .URem => checked (.bin .urem op1 op2)
  | some .SRem => checked (.bin .srem op1 op2)
  | some .ICmp => getCmd op1 op2 (op >>> 8)
  | some .Concat => checked (.concat op2 op1)
  | _ => .error (.msg "unsupported operator")

/-- A width computed by a subtraction of two `u16` and stored in the `u8` local. -/
def sizeDiff (size other : Nat) : Nat := (size + 2 ^ 16 - other) % 2 ^ 8

/-- The width of the constant built for the first operand. -/
def leftWidth (k : LabelKey) (size2 : Nat) : Nat :=
  if k.op = Operators.Concat.code ∧ k.l1 = 0 then sizeDiff k.size size2 else k.size % 2 ^ 8

def rightWidth (k : LabelKey) (size1 size2 : Nat) : Nat :=
  if k.op = Operators.Concat.code ∧ k.l2 = 0 then sizeDiff k.size size1 else leftWidth k size2

/-- A concrete operand: for 1-bit operations it is replaced by a Boolean. -/
def concreteOperand (k : LabelKey) (val : Term) (op : Nat) : Term :=
  if k.size = 1 then .boolVal (op == 1) else val

abbrev SerializeM := EStateM Exn LabelTable

def getInfo (label : Nat) : SerializeM LabelInfo := do
  let t ← get
  match t.getLabelInfo label with
  | .ok info => return info
  | .error f => throw (.fault f)

def setTreeSize (label size : Nat) : SerializeM Unit :=
  modify fun t => t.modifyInfo label fun info => { info with treeSize := size % 2 ^ 32 }

def cacheExpr (label : Nat) (e : Term) (deps : Finset Nat) : SerializeM (Term × Finset Nat) := do
  modify fun t => t.modifyInfo label fun info => { info with expr := some e, deps := some deps }
  return (e, deps)

def memcmpOperand (mem : Memory) (operand : Nat → Finset Nat → SerializeM (Term × Finset Nat))
    (k : LabelKey) (deps : Finset Nat) : SerializeM (Term × Finset Nat) :=
  if k.l1 ≥ constOffset then operand k.l1 deps
  else (·, deps) <$> liftZ3 (readConcrete mem k.op1 k.size)

/-- The first operand of a common operator adds to the set of the caller. -/
def firstOperand (z : Z3) (operand : Nat → Finset Nat → SerializeM (Term × Finset Nat))
    (k : LabelKey) (val : Term) (deps : Finset Nat) : SerializeM (Term × Finset Nat) :=
  if k.l1 ≥ constOffset then
    (fun (e, deps) => (z.simplify e, deps)) <$> operand k.l1 deps
  else pure (concreteOperand k val k.op1, deps)

/-- The second operand starts from a set of its own, merged afterwards. -/
def secondOperand (z : Z3) (operand : Nat → Finset Nat → SerializeM (Term × Finset Nat))
    (k : LabelKey) (val : Term) (deps : Finset Nat) : SerializeM (Term × Finset Nat) :=
  if k.l2 ≥ constOffset then
    (fun (e, deps2) => (z.simplify e, deps ∪ deps2)) <$> operand k.l2 ∅
  else pure (concreteOperand k val k.op2, deps)

/-- The part of `serialize` past the cache, with the recursive calls as an argument. -/
def serializeNode (z : Z3) (mem : Memory)
    (operand : Nat → Finset Nat → SerializeM (Term × Finset Nat))
    (label : Nat) (info : LabelInfo) (deps : Finset Nat) : SerializeM (Term × Finset Nat) :=
  if info.op = 0 then do
    let e ← liftZ3 (byteTerm info.op1)
    setTreeSize label 1
    return (e, insert (info.op1 % 2 ^ 32) deps)
  else if info.op = Operators.Load.code then do
    let base ← getInfo info.l1
    let out ← liftZ3 (loadTerm base.op1 (info.l2 - 1))
    setTreeSize label 1
    cacheExpr label out (deps ∪ loadDeps base.op1 (info.l2 - 1))
  else if info.op = Operators.ZExt.code then do
    let (base, deps) ← operand info.l1 deps
    let base ← liftZ3 (boolToBv base)
    let w ← liftZ3 (bvSize base)
    setTreeSize label (← getInfo info.l1).treeSize
    let e ← liftZ3 (extendTerm .zext info.size w base)
    cacheExpr label e deps
  else if info.op = Operators.SExt.code then do
    let (base, deps) ← operand info.l1 deps
    let w ← liftZ3 (bvSize base)
    setTreeSize label (← getInfo info.l1).treeSize
    let e ← liftZ3 (extendTerm .sext info.size w base)
    cacheExpr label e deps
  else if info.op = Operators.Trunc.code then do
    let (base, deps) ← operand info.l1 deps
    setTreeSize label (← getInfo info.l1).treeSize
    let e ← liftZ3 (extractTerm 0 info.size base)
    cacheExpr label e deps
  else if info.op = Operators.Extract.code then do
    let (base, deps) ← operand info.l1 deps
    setTreeSize label (← getInfo info.l1).treeSize
    let e ← liftZ3 (extractTerm info.op2 info.size base)
    cacheExpr label e deps
  else if info.op = Operators.Not.code then
    if info.l2 = 0 ∨ info.size ≠ 1 then
      throw (.z3 (.msg "invalid Not operation"))
    else do
      let (e, deps) ← operand info.l2 deps
      setTreeSize label (← getInfo info.l2).treeSize
      let e ← liftZ3 (lnotTerm e)
      cacheExpr label e deps
  else if info.op = Operators.Neg.code then
    if info.l2 = 0 then
      throw (.z3 (.msg "invalid Neg predicate"))
    else do
      let (e, deps) ← operand info.l2 deps
      setTreeSize label (← getInfo info.l2).treeSize
      let e ← liftZ3 (checked (.neg e))
      cacheExpr label e deps
  else if info.op = Operators.fmemcmp.code then do
    let (op1, deps) ← memcmpOperand mem operand info.toLabelKey deps
    if info.l2 < constOffset then
      throw (.z3 (.msg "invalid memcmp operand2"))
    else do
      let (op2, deps) ← operand info.l2 deps
      setTreeSize label 1
      return (← liftZ3 (memcmpTerm op1 op2), deps)
  else if info.op = Operators.fsize.code then do
    let e ← liftZ3 (fsizeTerm info.op1 info.size)
    setTreeSize label 1
    return (e, deps)
  else do
    let info1 ← getInfo info.l1
    let info2 ← getInfo info.l2
    let k := info.toLabelKey
    let val1 ← liftZ3 (checked (.bvVal k.op1 (leftWidth k info2.size)))
    let (op1, deps) ← firstOperand z operand k val1 deps
    let val2 ← liftZ3 (checked (.bvVal k.op2 (rightWidth k info1.size info2.size)))
    let (op2, deps) ← secondOperand z operand k val2 deps
    setTreeSize label ((← getInfo k.l1).treeSize + (← getInfo k.l2).treeSize)
    let e ← liftZ3 (commonTerm k.op k.size op1 op2)
    cacheExpr label e deps

/-- The recursion of the source is bounded by `fuel`, which stands for its stack. -/
def serialize (z : Z3) (mem : Memory) : Nat → Nat → Finset Nat → SerializeM (Term × Finset Nat)
  | 0, _, _ => throw (.fault .stackOverflow)
  | fuel + 1, label, deps =>
    if label < constOffset ∨ label = kInitializingLabel then
      throw (.z3 (.msg "invalid label"))
    else do
      let info ← getInfo label
      match info.expr with
      | some e => return (e, deps ∪ info.deps.getD ∅)
      | none => serializeNode z mem (serialize z mem fuel) label info deps

end Kirenenko
