import Mathlib.Data.Finset.Union
import Mathlib.Data.Finset.Image

namespace Kirenenko
set_option autoImplicit true

/-- Names of uninterpreted constants: integer symbols and string symbols. -/
inductive Symbol where
  | int (n : Nat)
  | str (s : String)
deriving DecidableEq

inductive SmtSort where
  | bool
  | bv (width : Nat)
deriving DecidableEq

inductive BvOp where
  | and | or | xor | shl | lshr | ashr | add | sub | mul | udiv | sdiv | urem | srem
deriving DecidableEq

inductive BvRel where
  | ugt | uge | ult | ule | sgt | sge | slt | sle
deriving DecidableEq

inductive BoolOp where
  | and | or | xor
deriving DecidableEq

/-- Quantifier-free terms over Booleans and bit-vectors. -/
inductive Term where
  | const (s : Symbol) (width : Nat)
  | bvVal (v : Nat) (width : Nat)
  | boolVal (b : Bool)
  | not (a : Term)
  | neg (a : Term)
  | bin (op : BvOp) (a b : Term)
  | logic (op : BoolOp) (a b : Term)
  | eq (a b : Term)
  | distinct (a b : Term)
  | rel (r : BvRel) (a b : Term)
  | concat (a b : Term)
  | extract (hi lo : Nat) (a : Term)
  | zext (k : Nat) (a : Term)
  | sext (k : Nat) (a : Term)
  | ite (c a b : Term)
deriving DecidableEq

/-- The sort of a term, `none` when an argument has the wrong sort or a width is zero. -/
def Term.sort : Term → Option SmtSort
  | .const _ w => if w = 0 then none else some (.bv w)
  | .bvVal _ w => if w = 0 then none else some (.bv w)
  | .boolVal _ => some .bool
  | .not a =>
    match a.sort with
    | some .bool => some .bool
    | _ => none
  | .neg a =>
    match a.sort with
    | some (.bv w) => some (.bv w)
    | _ => none
  | .bin _ a b =>
    match a.sort, b.sort with
    | some (.bv v), some (.bv w) => if v = w then some (.bv v) else none
    | _, _ => none
  | .logic _ a b =>
    match a.sort, b.sort with
    | some .bool, some .bool => some .bool
    | _, _ => none
  | .eq a b | .distinct a b =>
    match a.sort, b.sort with
    | some s, some s' => if s = s' then some .bool else none
    | _, _ => none
  | .rel _ a b =>
    match a.sort, b.sort with
    | some (.bv v), some (.bv w) => if v = w then some .bool else none
    | _, _ => none
  | .concat a b =>
    match a.sort, b.sort with
    | some (.bv v), some (.bv w) => some (.bv (v + w))
    | _, _ => none
  | .extract hi lo a =>
    match a.sort with
    | some (.bv w) => if lo ≤ hi ∧ hi < w then some (.bv (hi - lo + 1)) else none
    | _ => none
  | .zext k a | .sext k a =>
    match a.sort with
    | some (.bv w) => some (.bv (w + k))
    | _ => none
  | .ite c a b =>
    match c.sort, a.sort, b.sort with
    | some .bool, some s, some s' => if s = s' then some s else none
    | _, _, _ => none

def Term.width (t : Term) : Nat :=
  match t.sort with
  | some (.bv w) => w
  | _ => 0

theorem Term.width_eq {t : Term} (h : t.sort = some (.bv w)) : t.width = w := by
  simp only [Term.width, h]

/-- An interpretation of the constants, which are identified by name and width. -/
abbrev Env := Symbol → Nat → Nat

/-- Bit-vector operations in the sense of SMT-LIB, division by zero included. -/
def BvOp.eval (op : BvOp) (w x y : Nat) : Nat :=
  let a := BitVec.ofNat w x
  let b := BitVec.ofNat w y
  match op with
  | .and => (a &&& b).toNat
  | .or => (a ||| b).toNat
  | .xor => (a ^^^ b).toNat
  | .shl => (a <<< b).toNat
  | .lshr => (a >>> b).toNat
  | .ashr => (a.sshiftRight' b).toNat
  | .add => (a + b).toNat
  | .sub => (a - b).toNat
  | .mul => (a * b).toNat
  | .udiv => (a.smtUDiv b).toNat
  | .sdiv => (a.smtSDiv b).toNat
  | .urem => (a % b).toNat
  | .srem => (a.srem b).toNat

def BvRel.eval (r : BvRel) (w x y : Nat) : Bool :=
  let a := BitVec.ofNat w x
  let b := BitVec.ofNat w y
  match r with
  | .ugt => b.ult a
  | .uge => b.ule a
  | .ult => a.ult b
  | .ule => a.ule b
  | .sgt => b.slt a
  | .sge => b.sle a
  | .slt => a.slt b
  | .sle => a.sle b

def BoolOp.eval (op : BoolOp) (x y : Nat) : Bool :=
  match op with
  | .and => decide (x = 1) && decide (y = 1)
  | .or => decide (x = 1) || decide (y = 1)
  | .xor => decide (x = 1) ^^ decide (y = 1)

def bvNeg (w x : Nat) : Nat := (-BitVec.ofNat w x).toNat

def bvSext (w k x : Nat) : Nat := ((BitVec.ofNat w x).signExtend (w + k)).toNat

/-- The value of a term; a Boolean is 0 or 1 and a bit-vector its unsigned value. -/
def Term.eval (env : Env) : Term → Nat
  | .const s w => env s w % 2 ^ w
  | .bvVal v w => v % 2 ^ w
  | .boolVal b => b.toNat
  | .not a => 1 - a.eval env
  | .neg a => bvNeg a.width (a.eval env)
  | .bin op a b => op.eval a.width (a.eval env) (b.eval env)
  | .logic op a b => (op.eval (a.eval env) (b.eval env)).toNat
  | .eq a b => (decide (a.eval env = b.eval env)).toNat
  | .distinct a b => (decide (a.eval env ≠ b.eval env)).toNat
  | .rel r a b => (r.eval a.width (a.eval env) (b.eval env)).toNat
  | .concat a b => a.eval env * 2 ^ b.width + b.eval env
  | .extract hi lo a => a.eval env / 2 ^ lo % 2 ^ (hi - lo + 1)
  | .zext _ a => a.eval env
  | .sext k a => bvSext a.width k (a.eval env)
  | .ite c a b => if c.eval env = 1 then a.eval env else b.eval env

/-- The constants occurring in a term. -/
def Term.consts : Term → Finset (Symbol × Nat)
  | .const s w => {(s, w)}
  | .bvVal _ _ => ∅
  | .boolVal _ => ∅
  | .not a | .neg a | .extract _ _ a | .zext _ a | .sext _ a => a.consts
  | .bin _ a b | .logic _ a b | .eq a b | .distinct a b | .rel _ a b | .concat a b =>
    a.consts ∪ b.consts
  | .ite c a b => c.consts ∪ a.consts ∪ b.consts

theorem BvOp.eval_lt (op : BvOp) (w x y : Nat) : op.eval w x y < 2 ^ w := by
  cases op <;> exact BitVec.isLt _

theorem bool_toNat_lt (b : Bool) : b.toNat < 2 := by
  cases b <;> decide

theorem Term.eval_congr {t : Term}
    (h : ∀ c ∈ t.consts, env c.1 c.2 % 2 ^ c.2 = env' c.1 c.2 % 2 ^ c.2) :
    t.eval env = t.eval env' := by
  induction t with
  | const s w =>
    have he := h (s, w) (by simp only [Term.consts, Finset.mem_singleton])
    simp only [Term.eval, he]
  | bvVal | boolVal => rfl
  | not a ih | neg a ih | zext k a ih | sext k a ih => simp only [Term.eval, ih h]
  | extract hi lo a ih => simp only [Term.eval, ih h]
  | bin op a b iha ihb | logic op a b iha ihb | rel op a b iha ihb =>
    have ha := iha fun c hc => h c (Finset.mem_union_left _ hc)
    have hb := ihb fun c hc => h c (Finset.mem_union_right _ hc)
    simp only [Term.eval, ha, hb]
  | eq a b iha ihb | distinct a b iha ihb | concat a b iha ihb =>
    have ha := iha fun c hc => h c (Finset.mem_union_left _ hc)
    have hb := ihb fun c hc => h c (Finset.mem_union_right _ hc)
    simp only [Term.eval, ha, hb]
  | ite c a b ihc iha ihb =>
    have hc := ihc fun c hc => h c (Finset.mem_union_left _ (Finset.mem_union_left _ hc))
    have ha := iha fun c hc => h c (Finset.mem_union_left _ (Finset.mem_union_right _ hc))
    have hb := ihb fun c hc => h c (Finset.mem_union_right _ hc)
    simp only [Term.eval, hc, ha, hb]

end Kirenenko
