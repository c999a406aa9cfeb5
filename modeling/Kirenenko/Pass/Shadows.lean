import Kirenenko.Lib.Simulation
import Kirenenko.Llvm.Integer
import Kirenenko.Runtime.LabelTable

namespace Kirenenko
set_option autoImplicit true

/-- An operand of an instruction: a literal, or the result of an earlier instruction. -/
inductive Operand where
  | const (v : Nat)
  | reg (r : Nat)
deriving DecidableEq

/-- Integer instructions in the order of their results; `input` is a byte read from the input. -/
inductive Instr where
  | input (offset : Int)
  | binary (op : BinaryOps) (w : Nat) (a b : Operand)
  | cast (op : CastOps) (w w' : Nat) (a : Operand)
  | icmp (p : IntPredicate) (w : Nat) (a b : Operand)
  | select (w : Nat) (c a b : Operand)
deriving DecidableEq

/-- A value and its shadow, where `none` is the constant `ZeroShadow`. -/
structure Slot where
  width : Nat
  value : Nat
  shadow : Option Nat
deriving DecidableEq

def Slot.label (s : Slot) : Nat := s.shadow.getD 0

def readOperand (regs : List Slot) (w : Nat) : Operand → Option Slot
  | .const v => some ⟨w, v % 2 ^ w, none⟩
  | .reg r => regs[r]?.filter fun s => s.width = w

def BinaryOps.opcode : BinaryOps → Operators
  | .Add => .Add | .Sub => .Sub | .Mul => .Mul | .UDiv => .UDiv | .SDiv => .SDiv
  | .URem => .URem | .SRem => .SRem | .Shl => .Shl | .LShr => .LShr | .AShr => .AShr
  | .And => .And | .Or => .Or | .Xor => .Xor

def CastOps.opcode : CastOps → Operators
  | .Trunc => .Trunc | .ZExt => .ZExt | .SExt => .SExt | .PtrToInt => .PtrToInt
  | .IntToPtr => .IntToPtr | .BitCast => .BitCast | .AddrSpaceCast => .AddrSpaceCast

/-- `CmpInst::getPredicate`, which shares its numbers with the predicates of the runtime. -/
def IntPredicate.predicate : IntPredicate → Predicate
  | .eq => .bveq | .ne => .bvneq | .ugt => .bvugt | .uge => .bvuge | .ult => .bvult
  | .ule => .bvule | .sgt => .bvsgt | .sge => .bvsge | .slt => .bvslt | .sle => .bvsle

def isConstantOne (w : Nat) : Operand → Bool
  | .const v => v % 2 ^ w == 1
  | .reg _ => false

/-- What `combineShadows` reads of the instruction it instruments. -/
structure Position where
  resultWidth : Nat
  operandWidth : Nat
  predicate : Option IntPredicate
  op1 : Nat
  op2 : Option Nat

def Position.size (pos : Position) : Nat :=
  match pos.predicate with
  | some _ => pos.operandWidth
  | none => pos.resultWidth

def Position.op (pos : Position) (op : Nat) : Nat :=
  match pos.predicate with
  | some p => op ||| (p.predicate.code <<< 8)
  | none => op

/-- The arguments of the emitted call: operands are zero-extended to 64 bits, and an instruction
without second operand passes 0. -/
def Position.key (pos : Position) (v1 v2 : Option Nat) (op : Nat) : LabelKey :=
  { l1 := v1.getD 0, l2 := v2.getD 0, op := pos.op op, size := pos.size % 2 ^ 8
    op1 := pos.op1 % 2 ^ 64, op2 := pos.op2.getD 0 % 2 ^ 64 }

def combineShadows (t : LabelTable) (v1 v2 : Option Nat) (op : Nat) (pos : Position) :
    Except Fault (Option Nat × LabelTable) :=
  if v1 = none ∧ v2 = none then .ok (v1, t)
  else if pos.resultWidth > 64 then .ok (none, t)
  else do
    let (label, t) ← taintUnion t (pos.key v1 v2 op)
    return (some label, t)

/-- The opcode of a binary operator, or the logical negation for a 1-bit xor with true. -/
def binaryShadowOp (op : BinaryOps) (w : Nat) (a b : Operand) : Nat :=
  if w = 1 ∧ op = .Xor ∧ (isConstantOne w b ∨ isConstantOne w a) then Operators.Not.code
  else op.opcode.code

def combineBinaryOperatorShadows (t : LabelTable) (op : BinaryOps) (w : Nat) (a b : Operand)
    (x y : Slot) : Except Fault (Option Nat × LabelTable) :=
  combineShadows t x.shadow y.shadow (binaryShadowOp op w a b)
    ⟨w, w, none, x.value, some y.value⟩

def combineCastInstShadows (t : LabelTable) (op : CastOps) (w w' : Nat) (x : Slot) :
    Except Fault (Option Nat × LabelTable) :=
  combineShadows t x.shadow none op.opcode.code ⟨w', w, none, x.value, none⟩

def combineCmpInstShadows (t : LabelTable) (p : IntPredicate) (w : Nat) (x y : Slot) :
    Except Fault (Option Nat × LabelTable) :=
  combineShadows t x.shadow y.shadow Operators.ICmp.code ⟨1, w, some p, x.value, some y.value⟩

/-- The shadow of a select: one of the two shadows, chosen by the condition. -/
def selectShadow (c x y : Slot) : Option Nat :=
  if x.shadow = y.shadow then x.shadow
  else some (if c.value = 1 then x.label else y.label)

structure ShadowState where
  regs : List Slot
  table : LabelTable

def ShadowState.initial : ShadowState := ⟨[], .initial⟩

def ShadowState.push (s : ShadowState) (w v : Nat) (r : Option Nat × LabelTable) : ShadowState :=
  ⟨s.regs ++ [⟨w, v, r.1⟩], r.2⟩

/-- Why an instrumented program does not go on. -/
inductive Stop where
  | undefined
  | fault (f : Fault)
deriving DecidableEq

def defined (x : Option α) : Except Stop α :=
  match x with
  | some a => .ok a
  | none => .error .undefined

def runtime (x : Except Fault α) : Except Stop α :=
  match x with
  | .ok a => .ok a
  | .error f => .error (.fault f)

def integerWidth (w : Nat) : Option Unit := if 1 ≤ w ∧ w ≤ 64 then some () else none

/-- An instruction together with the code that computes its shadow. -/
def execInstr (input : Int → UInt8) (s : ShadowState) : Instr → Except Stop ShadowState
  | .input offset => do
    let (label, t) ← runtime (dfsanCreateLabel s.table offset)
    return s.push 8 (input offset).toNat (some label, t)
  | .binary op w a b => do
    defined (integerWidth w)
    let x ← defined (readOperand s.regs w a)
    let y ← defined (readOperand s.regs w b)
    let v ← defined (op.exec w x.value y.value)
    let r ← runtime (combineBinaryOperatorShadows s.table op w a b x y)
    return s.push w v r
  | .cast op w w' a => do
    defined (integerWidth w)
    defined (integerWidth w')
    defined (if op.Valid w w' then some () else none)
    let x ← defined (readOperand s.regs w a)
    let r ← runtime (combineCastInstShadows s.table op w w' x)
    return s.push w' (op.exec w w' x.value) r
  | .icmp p w a b => do
    defined (integerWidth w)
    let x ← defined (readOperand s.regs w a)
    let y ← defined (readOperand s.regs w b)
    let r ← runtime (combineCmpInstShadows s.table p w x y)
    return s.push 1 (p.exec w x.value y.value).toNat r
  | .select w c a b => do
    defined (integerWidth w)
    let c ← defined (readOperand s.regs 1 c)
    let x ← defined (readOperand s.regs w a)
    let y ← defined (readOperand s.regs w b)
    return s.push w (if c.value = 1 then x.value else y.value) (selectShadow c x y, s.table)

theorem integerWidth_ok (h : defined (integerWidth w) = .ok u) : 1 ≤ w ∧ w ≤ 64 := by
  unfold integerWidth at h
  by_cases hw : 1 ≤ w ∧ w ≤ 64
  · exact hw
  · rw [if_neg hw] at h
    cases h

theorem defined_ok {x : Option α} : defined x = .ok a ↔ x = some a := by
  cases x <;> simp [defined]

theorem runtime_ok {x : Except Fault α} : runtime x = .ok a ↔ x = .ok a := by
  cases x <;> simp [runtime]

/-- What an instruction does when it does not stop the program. -/
inductive Executed (input : Int → UInt8) (s : ShadowState) : Instr → ShadowState → Prop where
  | input : dfsanCreateLabel s.table offset = .ok (l, t) →
      Executed input s (.input offset) (s.push 8 (input offset).toNat (some l, t))
  | binary : (1 ≤ w ∧ w ≤ 64) → readOperand s.regs w a = some x →
      readOperand s.regs w b = some y → op.exec w x.value y.value = some v →
      combineBinaryOperatorShadows s.table op w a b x y = .ok (sh, t) →
      Executed input s (.binary op w a b) (s.push w v (sh, t))
  | cast : (1 ≤ w ∧ w ≤ 64) → (1 ≤ w' ∧ w' ≤ 64) → op.Valid w w' →
      readOperand s.regs w a = some x →
      combineCastInstShadows s.table op w w' x = .ok (sh, t) →
      Executed input s (.cast op w w' a) (s.push w' (op.exec w w' x.value) (sh, t))
  | icmp : (1 ≤ w ∧ w ≤ 64) → readOperand s.regs w a = some x →
      readOperand s.regs w b = some y → combineCmpInstShadows s.table p w x y = .ok (sh, t) →
      Executed input s (.icmp p w a b) (s.push 1 (p.exec w x.value y.value).toNat (sh, t))
  | select : (1 ≤ w ∧ w ≤ 64) → readOperand s.regs w a = some x →
      readOperand s.regs w b = some y →
      Executed input s (.select w c a b)
        (s.push w (if k.value = 1 then x.value else y.value) (selectShadow k x y, s.table))

theorem execInstr_ok (h : execInstr input s i = .ok s') : Executed input s i s' := by
  cases i with
  | input offset =>
    obtain ⟨⟨l, t⟩, hc, h⟩ := except_bind_ok.1 h
    cases h
    exact .input (runtime_ok.1 hc)
  | binary op w a b =>
    obtain ⟨_, hw, h⟩ := except_bind_ok.1 h
    obtain ⟨x, hx, h⟩ := except_bind_ok.1 h
    obtain ⟨y, hy, h⟩ := except_bind_ok.1 h
    obtain ⟨v, hv, h⟩ := except_bind_ok.1 h
    obtain ⟨⟨sh, t⟩, hc, h⟩ := except_bind_ok.1 h
    cases h
    exact .binary (integerWidth_ok hw) (defined_ok.1 hx) (defined_ok.1 hy) (defined_ok.1 hv)
      (runtime_ok.1 hc)
  | cast op w w' a =>
    obtain ⟨_, hw, h⟩ := except_bind_ok.1 h
    obtain ⟨_, hw', h⟩ := except_bind_ok.1 h
    obtain ⟨_, hvalid, h⟩ := except_bind_ok.1 h
    obtain ⟨x, hx, h⟩ := except_bind_ok.1 h
    obtain ⟨⟨sh, t⟩, hc, h⟩ := except_bind_ok.1 h
    cases h
    have hvalid : op.Valid w w' := by
      by_contra hn
      rw [if_neg hn] at hvalid
      cases hvalid
    exact .cast (integerWidth_ok hw) (integerWidth_ok hw') hvalid (defined_ok.1 hx)
      (runtime_ok.1 hc)
  | icmp p w a b =>
    obtain ⟨_, hw, h⟩ := except_bind_ok.1 h
    obtain ⟨x, hx, h⟩ := except_bind_ok.1 h
    obtain ⟨y, hy, h⟩ := except_bind_ok.1 h
    obtain ⟨⟨sh, t⟩, hc, h⟩ := except_bind_ok.1 h
    cases h
    exact .icmp (integerWidth_ok hw) (defined_ok.1 hx) (defined_ok.1 hy) (runtime_ok.1 hc)
  | select w c a b =>
    obtain ⟨_, hw, h⟩ := except_bind_ok.1 h
    obtain ⟨k, _, h⟩ := except_bind_ok.1 h
    obtain ⟨x, hx, h⟩ := except_bind_ok.1 h
    obtain ⟨y, hy, h⟩ := except_bind_ok.1 h
    cases h
    exact .select (integerWidth_ok hw) (defined_ok.1 hx) (defined_ok.1 hy)

end Kirenenko
