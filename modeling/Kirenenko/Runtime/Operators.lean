import Mathlib.Algebra.Group.Nat.Defs

namespace Kirenenko
set_option autoImplicit true

/-- The operators of `dfsan.h`: two logical ones, the binary, cast and other instructions of
`llvm/IR/Instruction.def` (LLVM 6) under their opcodes, and the self-defined ones. -/
inductive Operators where
  | Not | Neg
  | Add | FAdd | Sub | FSub | Mul | FMul | UDiv | SDiv | FDiv | URem | SRem | FRem
  | Shl | LShr | AShr | And | Or | Xor
  | Trunc | ZExt | SExt | FPToUI | FPToSI | UIToFP | SIToFP | FPTrunc | FPExt
  | PtrToInt | IntToPtr | BitCast | AddrSpaceCast
  | ICmp | FCmp | PHI | Call | Select | UserOp1 | UserOp2 | VAArg | ExtractElement
  | InsertElement | ShuffleVector | ExtractValue | InsertValue | LandingPad
  | Load | Extract | Concat
  | fmemcmp | fsize | fcrc32
deriving DecidableEq

namespace Operators

def code : Operators → Nat
  | Not => 1 | Neg => 2
  | Add => 11 | FAdd => 12 | Sub => 13 | FSub => 14 | Mul => 15 | FMul => 16
  | UDiv => 17 | SDiv => 18 | FDiv => 19 | URem => 20 | SRem => 21 | FRem => 22
  | Shl => 23 | LShr => 24 | AShr => 25 | And => 26 | Or => 27 | Xor => 28
  | Trunc => 36 | ZExt => 37 | SExt => 38 | FPToUI => 39 | FPToSI => 40 | UIToFP => 41
  | SIToFP => 42 | FPTrunc => 43 | FPExt => 44 | PtrToInt => 45 | IntToPtr => 46
  | BitCast => 47 | AddrSpaceCast => 48
  | ICmp => 51 | FCmp => 52 | PHI => 53 | Call => 54 | Select => 55 | UserOp1 => 56
  | UserOp2 => 57 | VAArg => 58 | ExtractElement => 59 | InsertElement => 60
  | ShuffleVector => 61 | ExtractValue => 62 | InsertValue => 63 | LandingPad => 64
  | Load => 67 | Extract => 68 | Concat => 69
  | fmemcmp => 70 | fsize => 71 | fcrc32 => 72

def ofCode : Nat → Option Operators
  | 1 => some Not | 2 => some Neg
  | 11 => some Add | 12 => some FAdd | 13 => some Sub | 14 => some FSub | 15 => some Mul
  | 16 => some FMul | 17 => some UDiv | 18 => some SDiv | 19 => some FDiv | 20 => some URem
  | 21 => some SRem | 22 => some FRem | 23 => some Shl | 24 => some LShr | 25 => some AShr
  | 26 => some And | 27 => some Or | 28 => some Xor
  | 36 => some Trunc | 37 => some ZExt | 38 => some SExt | 39 => some FPToUI
  | 40 => some FPToSI | 41 => some UIToFP | 42 => some SIToFP | 43 => some FPTrunc
  | 44 => some FPExt | 45 => some PtrToInt | 46 => some IntToPtr | 47 => some BitCast
  | 48 => some AddrSpaceCast
  | 51 => some ICmp | 52 => some FCmp | 53 => some PHI | 54 => some Call | 55 => some Select
  | 56 => some UserOp1 | 57 => some UserOp2 | 58 => some VAArg | 59 => some ExtractElement
  | 60 => some InsertElement | 61 => some ShuffleVector | 62 => some ExtractValue
  | 63 => some InsertValue | 64 => some LandingPad
  | 67 => some Load | 68 => some Extract | 69 => some Concat
  | 70 => some fmemcmp | 71 => some fsize | 72 => some fcrc32
  | _ => none

end Operators

/-- The predicates of `dfsan.h`, numbered as LLVM numbers the integer comparisons. -/
inductive Predicate where
  | bveq | bvneq | bvugt | bvuge | bvult | bvule | bvsgt | bvsge | bvslt | bvsle
deriving DecidableEq

def Predicate.code : Predicate → Nat
  | .bveq => 32 | .bvneq => 33 | .bvugt => 34 | .bvuge => 35 | .bvult => 36
  | .bvule => 37 | .bvsgt => 38 | .bvsge => 39 | .bvslt => 40 | .bvsle => 41

def Predicate.ofCode : Nat → Option Predicate
  | 32 => some .bveq | 33 => some .bvneq | 34 => some .bvugt | 35 => some .bvuge
  | 36 => some .bvult | 37 => some .bvule | 38 => some .bvsgt | 39 => some .bvsge
  | 40 => some .bvslt | 41 => some .bvsle
  | _ => none

theorem Predicate.ofCode_code (p : Predicate) : Predicate.ofCode p.code = some p := by
  cases p <;> rfl

/-- The operator of a comparison for equality, with the predicate in its upper byte. -/
def equalOp : Nat := (Predicate.bveq.code <<< 8) ||| Operators.ICmp.code

/-- The argument is an `unsigned char`, so only the low byte of an operator is looked at. -/
def isCommutative (op : Nat) : Bool :=
  [Operators.Not, .And, .Or, .Xor, .Add, .Mul, .fmemcmp].any fun o => op % 2 ^ 8 == o.code

end Kirenenko
