import Mathlib.Data.Int.Basic
import Kirenenko.Smt.Term

namespace Kirenenko
set_option autoImplicit true

/-- The integer of a `w`-bit pattern in two's complement. -/
def signed (w x : Nat) : Int := if 2 * x < 2 ^ w then x else (x : Int) - (2 ^ w : Nat)

def unsigned (w : Nat) (i : Int) : Nat := (i % (2 ^ w : Nat)).toNat

/-- The binary operators of LLVM on integers. -/
inductive BinaryOps where
  | Add | Sub | Mul | UDiv | SDiv | URem | SRem | Shl | LShr | AShr | And | Or | Xor
deriving DecidableEq

/-- A signed division that is undefined: by zero, or the least integer by -1. -/
def SignedDivUndefined (w x y : Nat) : Prop :=
  y = 0 ∨ signed w x = -(2 ^ (w - 1) : Nat) ∧ signed w y = -1

instance : Decidable (SignedDivUndefined w x y) := by
  unfold SignedDivUndefined
  infer_instance

/-- The result of an operator on `w`-bit integers, `none` where LLVM leaves it undefined. -/
def BinaryOps.exec (op : BinaryOps) (w x y : Nat) : Option Nat :=
  match op with
  | .Add => some ((x + y) % 2 ^ w)
  | .Sub => some ((x + (2 ^ w - y)) % 2 ^ w)
  | .Mul => some (x * y % 2 ^ w)
  | .UDiv => if y = 0 then none else some (x / y)
  | .SDiv =>
    if SignedDivUndefined w x y then none
    else some (unsigned w ((signed w x).tdiv (signed w y)))
  | .URem => if y = 0 then none else some (x % y)
  | .SRem =>
    if SignedDivUndefined w x y then none
    else some (unsigned w ((signed w x).tmod (signed w y)))
  | .Shl => if y < w then some (x * 2 ^ y % 2 ^ w) else none
  | .LShr => if y < w then some (x / 2 ^ y) else none
  | .AShr => if y < w then some (unsigned w (signed w x / (2 ^ y : Nat))) else none
  | .And => some (x &&& y)
  | .Or => some (x ||| y)
  | .Xor => some (x ^^^ y)

/-- The casts between integers and pointers. -/
inductive CastOps where
  | Trunc | ZExt | SExt | PtrToInt | IntToPtr | BitCast | AddrSpaceCast
deriving DecidableEq

def CastOps.exec (op : CastOps) (w w' x : Nat) : Nat :=
  match op with
  | .Trunc | .PtrToInt => x % 2 ^ w'
  | .ZExt | .IntToPtr | .BitCast | .AddrSpaceCast => x
  | .SExt => unsigned w' (signed w x)

/-- The widths between which a cast is allowed; a pointer has 64 bits. -/
def CastOps.Valid (op : CastOps) (w w' : Nat) : Prop :=
  match op with
  | .Trunc => w' < w
  | .ZExt | .SExt => w < w'
  | .PtrToInt => w = 64
  | .IntToPtr => w' = 64
  | .BitCast => w = w'
  | .AddrSpaceCast => w = 64 ∧ w' = 64

instance (op : CastOps) : Decidable (op.Valid w w') := by
  cases op <;> (unfold CastOps.Valid; infer_instance)

inductive IntPredicate where
  | eq | ne | ugt | uge | ult | ule | sgt | sge | slt | sle
deriving DecidableEq

def IntPredicate.exec (p : IntPredicate) (w x y : Nat) : Bool :=
  match p with
  | .eq => x = y
  | .ne => x ≠ y
  | .ugt => y < x
  | .uge => y ≤ x
  | .ult => x < y
  | .ule => x ≤ y
  | .sgt => signed w y < signed w x
  | .sge => signed w y ≤ signed w x
  | .slt => signed w x < signed w y
  | .sle => signed w x ≤ signed w y

theorem toNat_ofNat_of_lt (h : x < 2 ^ w) : (BitVec.ofNat w x).toNat = x := by
  rw [BitVec.toNat_ofNat, Nat.mod_eq_of_lt h]

theorem signed_eq_toInt (h : x < 2 ^ w) : signed w x = (BitVec.ofNat w x).toInt := by
  rw [BitVec.toInt_eq_toNat_cond, toNat_ofNat_of_lt h]
  rfl

theorem unsigned_toInt (a : BitVec w) : unsigned w a.toInt = a.toNat := by
  rw [unsigned, ← BitVec.toNat_ofInt, BitVec.ofInt_toInt]

theorem unsigned_bmod (w : Nat) (i : Int) : unsigned w (i.bmod (2 ^ w)) = unsigned w i := by
  rw [unsigned, Int.bmod_emod]
  rfl

theorem unsigned_lt (w : Nat) (i : Int) : unsigned w i < 2 ^ w := by
  unfold unsigned
  have hpos : (0 : Int) < (2 ^ w : Nat) := by exact_mod_cast Nat.two_pow_pos w
  have hlt := Int.emod_lt_of_pos i hpos
  have hge := Int.emod_nonneg i (Int.ne_of_gt hpos)
  omega

theorem ofNat_ne_zero (hy : y < 2 ^ w) (h : y ≠ 0) : BitVec.ofNat w y ≠ 0#w := by
  intro he
  have := congrArg BitVec.toNat he
  rw [toNat_ofNat_of_lt hy, BitVec.toNat_ofNat, Nat.zero_mod] at this
  exact h this

/-- Away from zero the signed division of SMT-LIB is the one of `BitVec`. -/
theorem smtSDiv_eq_sdiv (a : BitVec w) (h : b ≠ 0#w) : a.smtSDiv b = a.sdiv b := by
  have hn : -b ≠ 0#w := by
    intro he
    exact h (BitVec.neg_eq_zero_iff.1 he)
  rw [BitVec.smtSDiv_eq, BitVec.sdiv_eq]
  cases a.msb <;> cases b.msb <;>
    simp only [BitVec.smtUDiv_eq, if_neg h, if_neg hn, BitVec.udiv_eq]

def BinaryOps.bvOp : BinaryOps → BvOp
  | .Add => .add | .Sub => .sub | .Mul => .mul | .UDiv => .udiv | .SDiv => .sdiv
  | .URem => .urem | .SRem => .srem | .Shl => .shl | .LShr => .lshr | .AShr => .ashr
  | .And => .and | .Or => .or | .Xor => .xor

/-- Where LLVM defines the result of an operator, SMT-LIB gives it the same one. -/
theorem BinaryOps.eval_bvOp {op : BinaryOps} (hx : x < 2 ^ w) (hy : y < 2 ^ w)
    (h : op.exec w x y = some v) : op.bvOp.eval w x y = v := by
  have ha := toNat_ofNat_of_lt hx
  have hb := toNat_ofNat_of_lt hy
  cases op with
  | Add =>
    cases h
    exact (BitVec.toNat_add _ _).trans (by rw [ha, hb])
  | Sub =>
    cases h
    refine (BitVec.toNat_sub _ _).trans ?_
    rw [ha, hb, Nat.add_comm]
  | Mul =>
    cases h
    exact (BitVec.toNat_mul _ _).trans (by rw [ha, hb])
  | UDiv =>
    by_cases h0 : y = 0
    · rw [BinaryOps.exec, if_pos h0] at h
      cases h
    · rw [BinaryOps.exec, if_neg h0] at h
      cases h
      change (BitVec.smtUDiv _ _).toNat = _
      rw [BitVec.smtUDiv_eq, if_neg (ofNat_ne_zero hy h0), BitVec.toNat_udiv, ha, hb]
  | SDiv =>
    by_cases h0 : SignedDivUndefined w x y
    · rw [BinaryOps.exec, if_pos h0] at h
      cases h
    · rw [BinaryOps.exec, if_neg h0] at h
      cases h
      change (BitVec.smtSDiv _ _).toNat = _
      rw [smtSDiv_eq_sdiv _ (ofNat_ne_zero hy fun he => h0 (.inl he)), ← unsigned_toInt,
        BitVec.toInt_sdiv, unsigned_bmod, signed_eq_toInt hx, signed_eq_toInt hy]
  | URem =>
    by_cases h0 : y = 0
    · rw [BinaryOps.exec, if_pos h0] at h
      cases h
    · rw [BinaryOps.exec, if_neg h0] at h
      cases h
      exact BitVec.toNat_umod.trans (by rw [ha, hb])
  | SRem =>
    by_cases h0 : SignedDivUndefined w x y
    · rw [BinaryOps.exec, if_pos h0] at h
      cases h
    · rw [BinaryOps.exec, if_neg h0] at h
      cases h
      change (BitVec.srem _ _).toNat = _
      rw [← unsigned_toInt, BitVec.toInt_srem, signed_eq_toInt hx, signed_eq_toInt hy]
  | Shl =>
    by_cases h0 : y < w
    · rw [BinaryOps.exec, if_pos h0] at h
      cases h
      refine BitVec.toNat_shiftLeft.trans ?_
      rw [ha, hb, Nat.shiftLeft_eq]
    · rw [BinaryOps.exec, if_neg h0] at h
      cases h
  | LShr =>
    by_cases h0 : y < w
    · rw [BinaryOps.exec, if_pos h0] at h
      cases h
      refine (BitVec.toNat_ushiftRight _ _).trans ?_
      rw [ha, hb, Nat.shiftRight_eq_div_pow]
    · rw [BinaryOps.exec, if_neg h0] at h
      cases h
  | AShr =>
    by_cases h0 : y < w
    · rw [BinaryOps.exec, if_pos h0] at h
      cases h
      change (BitVec.sshiftRight' _ _).toNat = _
      rw [← unsigned_toInt, BitVec.toInt_sshiftRight', hb, Int.shiftRight_eq_div_pow,
        signed_eq_toInt hx]
    · rw [BinaryOps.exec, if_neg h0] at h
      cases h
  | And =>
    cases h
    exact (BitVec.toNat_and _ _).trans (by rw [ha, hb])
  | Or =>
    cases h
    exact (BitVec.toNat_or _ _).trans (by rw [ha, hb])
  | Xor =>
    cases h
    exact (BitVec.toNat_xor _ _).trans (by rw [ha, hb])

theorem BinaryOps.exec_comm {op : BinaryOps}
    (h : op = .Add ∨ op = .Mul ∨ op = .And ∨ op = .Or ∨ op = .Xor) (w x y : Nat) :
    op.exec w x y = op.exec w y x := by
  rcases h with rfl | rfl | rfl | rfl | rfl
  · exact congrArg (fun n => some (n % 2 ^ w)) (Nat.add_comm x y)
  · exact congrArg (fun n => some (n % 2 ^ w)) (Nat.mul_comm x y)
  · exact congrArg some (Nat.and_comm x y)
  · exact congrArg some (Nat.or_comm x y)
  · exact congrArg some (Nat.xor_comm x y)

def BvRel.predicate : BvRel → IntPredicate
  | .ugt => .ugt | .uge => .uge | .ult => .ult | .ule => .ule
  | .sgt => .sgt | .sge => .sge | .slt => .slt | .sle => .sle

theorem BvRel.eval_predicate (r : BvRel) (hx : x < 2 ^ w) (hy : y < 2 ^ w) :
    r.eval w x y = r.predicate.exec w x y := by
  have ha := toNat_ofNat_of_lt hx
  have hb := toNat_ofNat_of_lt hy
  cases r <;>
    simp only [BvRel.eval, BvRel.predicate, IntPredicate.exec, BitVec.ult, BitVec.ule, BitVec.slt,
      BitVec.sle, signed_eq_toInt hx, signed_eq_toInt hy, ha, hb]

theorem CastOps.eval_sext (hx : x < 2 ^ w) : bvSext w k x = CastOps.SExt.exec w (w + k) x := by
  unfold bvSext CastOps.exec
  rw [signed_eq_toInt hx]
  exact BitVec.toNat_ofInt _

end Kirenenko
