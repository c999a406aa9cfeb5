import Mathlib.Algebra.Group.Nat.Defs
import Mathlib.Logic.Function.Basic
import Kirenenko.Pass.CustomAbi

namespace Kirenenko
set_option autoImplicit true

/-- An argument of a call as it is passed: labels and `int` are both 32 bits wide. -/
inductive AbiValue where
  | ptr (address : UInt64)
  | i32 (value : UInt32)
deriving Repr, DecidableEq

/-- The addresses a rewritten call passes besides its operands. -/
structure CallSlots where
  trampoline : String → UInt64
  labelVA : UInt64
  labelReturn : UInt64

def CallArg.eval (slots : CallSlots) : CallArg AbiValue → AbiValue
  | .operand o => o.value
  | .trampoline name _ => .ptr (slots.trampoline name)
  | .bitCast o => o.value
  | .shadow label => .i32 label
  | .labelVA _ => .ptr slots.labelVA
  | .labelReturn => .ptr slots.labelReturn

inductive StrtoFn where
  | strtol | strtoll | strtoul | strtoull
deriving Repr, DecidableEq

def StrtoFn.name : StrtoFn → String
  | .strtol => "strtol"
  | .strtoll => "strtoll"
  | .strtoul => "strtoul"
  | .strtoull => "strtoull"

/-- The strings, the pointers (`none` if never written) and the labels in memory. -/
structure CMemory where
  string : UInt64 → List UInt8
  pointers : UInt64 → Option UInt64
  labels : UInt64 → UInt32

/-- The number parsers of libc, on a string and a base: the result and, if an end pointer is
stored, how far into the string it points. -/
def StrtoLibc : Type := StrtoFn → List UInt8 → Int32 → UInt64 × Option UInt64

/-- A call of libc from the program itself. -/
def StrtoLibc.call (libc : StrtoLibc) (fn : StrtoFn) (nptr endptr : UInt64) (base : Int32)
    (m : CMemory) : UInt64 × CMemory :=
  let (ret, stored) := libc fn (m.string nptr) base
  match stored with
  | none => (ret, m)
  | some n =>
    if endptr = 0 then (ret, m)
    else (ret, { m with pointers := Function.update m.pointers endptr (some (nptr + n)) })

/-- The formal parameters of a wrapper. -/
structure StrtoFormals where
  nptr : UInt64
  endptr : UInt64
  base : Int32
  nptrLabel : UInt32
  endptrLabel : UInt32
  baseLabel : UInt32
  retLabel : UInt64
deriving DecidableEq

/-- The body of the wrappers. `tmp_endptr` is not initialised. -/
def strtoBody (libc : StrtoLibc) (fn : StrtoFn) (f : StrtoFormals) (m : CMemory) :
    UInt64 × CMemory :=
  let (ret, stored) := libc fn (m.string f.nptr) f.base
  let tmpEndptr := stored.map (f.nptr + ·)
  let m := if f.endptr ≠ 0 then
      { m with pointers := Function.update m.pointers f.endptr tmpEndptr }
    else m
  (ret, { m with labels := Function.update m.labels f.retLabel 0 })

/-- `const char *nptr, char **endptr, int base, dfsan_label nptr_label, dfsan_label endptr_label,
dfsan_label base_label, dfsan_label *ret_label`. -/
def strtoFormals : List AbiValue → Option StrtoFormals
  | [.ptr nptr, .ptr endptr, .i32 base, .i32 nptrLabel, .i32 endptrLabel, .i32 baseLabel,
      .ptr retLabel] =>
    some { nptr, endptr, base := base.toInt32, nptrLabel, endptrLabel, baseLabel, retLabel }
  | _ => none

/-- `const char *nptr, char **endptr, dfsan_label nptr_label, int base, dfsan_label endptr_label,
dfsan_label base_label, dfsan_label *ret_label`. -/
def strtoullFormals : List AbiValue → Option StrtoFormals
  | [.ptr nptr, .ptr endptr, .i32 nptrLabel, .i32 base, .i32 endptrLabel, .i32 baseLabel,
      .ptr retLabel] =>
    some { nptr, endptr, base := base.toInt32, nptrLabel, endptrLabel, baseLabel, retLabel }
  | _ => none

section
variable (libc : StrtoLibc) (args : List AbiValue) (m : CMemory)

def dfswStrtol : Option (UInt64 × CMemory) :=
  (strtoFormals args).map fun f => strtoBody libc .strtol f m

def dfswStrtoll : Option (UInt64 × CMemory) :=
  (strtoFormals args).map fun f => strtoBody libc .strtoll f m

def dfswStrtoul : Option (UInt64 × CMemory) :=
  (strtoFormals args).map fun f => strtoBody libc .strtoul f m

def dfswStrtoull : Option (UInt64 × CMemory) :=
  (strtoullFormals args).map fun f => strtoBody libc .strtoull f m

end

def StrtoFn.formals : StrtoFn → List AbiValue → Option StrtoFormals
  | .strtol | .strtoll | .strtoul => strtoFormals
  | .strtoull => strtoullFormals

/-- The function `"__dfsw_" + name`. -/
def StrtoFn.wrapper : StrtoFn → StrtoLibc → List AbiValue → CMemory → Option (UInt64 × CMemory)
  | .strtol => dfswStrtol
  | .strtoll => dfswStrtoll
  | .strtoul => dfswStrtoul
  | .strtoull => dfswStrtoull

/-- The four functions have one type: the results and `long` are 64 bits wide. -/
def strtoType : FunctionType where
  ret := .int 64
  params := [int8PtrTy, .pointer int8PtrTy, .int 32]
  isVarArg := false

def strtoOperands (c : StrtoFormals) : List (CallOperand AbiValue) :=
  [⟨int8PtrTy, .ptr c.nptr, c.nptrLabel⟩, ⟨.pointer int8PtrTy, .ptr c.endptr, c.endptrLabel⟩,
    ⟨.int 32, .i32 c.base.toUInt32, c.baseLabel⟩]

/-- The arguments of the rewritten call, for a call with the operands and labels of `c`. -/
def rewrittenArgs (slots : CallSlots) (fn : StrtoFn) (c : StrtoFormals) : List AbiValue :=
  (customArgs fn.name strtoType (strtoOperands c)).map (CallArg.eval slots)

theorem rewrittenArgs_eq (slots : CallSlots) (fn : StrtoFn) (c : StrtoFormals) :
    rewrittenArgs slots fn c =
      [.ptr c.nptr, .ptr c.endptr, .i32 c.base.toUInt32, .i32 c.nptrLabel, .i32 c.endptrLabel,
        .i32 c.baseLabel, .ptr slots.labelReturn] := rfl

/-- The rewritten call matches the declaration that the pass inserts. It passes the operands where
`ArgumentIndexMapping` has them, their labels in order and a pointer for the label of the result. -/
structure PassedInOrder (slots : CallSlots) (fn : StrtoFn) (c : StrtoFormals) : Prop where
  types : (customArgs fn.name strtoType (strtoOperands c)).map CallArg.type =
    (getCustomFunctionType strtoType).transformedType.params
  operands : ∀ (i j : Nat) (o : CallOperand AbiValue),
    (getCustomFunctionType strtoType).argumentIndexMapping[i]? = some j →
    (strtoOperands c)[i]? = some o → (rewrittenArgs slots fn c)[j]? = some o.value
  labels : ∀ (i : Nat) (o : CallOperand AbiValue), (strtoOperands c)[i]? = some o →
    (rewrittenArgs slots fn c)[strtoType.params.length + i]? = some (.i32 o.shadow)
  result : (rewrittenArgs slots fn c).getLast? = some (.ptr slots.labelReturn)

theorem strtoOperands_types (c : StrtoFormals) :
    ((strtoOperands c).take strtoType.params.length).map CallOperand.type = strtoType.params := rfl

theorem customArg_strto (fname : String) (h : o ∈ strtoOperands c) (k : Nat) :
    customArg fname o k = [.operand o] := by
  simp only [strtoOperands, List.mem_cons, List.not_mem_nil, or_false] at h
  rcases h with rfl | rfl | rfl <;> rfl

theorem passed_in_order (slots : CallSlots) (fn : StrtoFn) (c : StrtoFormals) :
    PassedInOrder slots fn c where
  types := (customArgs_types fn.name (strtoOperands_types c)).trans (List.append_nil _)
  operands i j o hj ho := by
    rw [rewrittenArgs, List.getElem?_map, customArgs_mapping fn.name (strtoOperands_types c) hj ho,
      customArg_strto fn.name (List.mem_of_getElem? ho)]
    rfl
  labels i o ho := by
    have hi : i < strtoType.params.length := (List.getElem?_eq_some_iff.1 ho).1
    have hshadow := customArgs_shadow fn.name hi ho
    rw [rewrittenArgs, List.getElem?_map]
    exact congrArg (Option.map _) hshadow
  result := rfl

theorem wrapper_eq (fn : StrtoFn) (libc : StrtoLibc) (args : List AbiValue) (m : CMemory) :
    fn.wrapper libc args m = (fn.formals args).map fun f => strtoBody libc fn f m := by
  cases fn <;> rfl

theorem formals_rewritten (slots : CallSlots) (fn : StrtoFn) (c : StrtoFormals) :
    fn.formals (rewrittenArgs slots fn c) = some (if fn = .strtoull then
        { c with base := c.nptrLabel.toInt32, nptrLabel := c.base.toUInt32,
                 retLabel := slots.labelReturn }
      else { c with retLabel := slots.labelReturn }) := by
  rw [rewrittenArgs_eq]
  cases fn <;> simp [StrtoFn.formals, strtoFormals, strtoullFormals]

/-- The wrapper binds every parameter as the program passed it. -/
def Binds (slots : CallSlots) (fn : StrtoFn) (c : StrtoFormals) : Prop :=
  fn.formals (rewrittenArgs slots fn c) = some { c with retLabel := slots.labelReturn }

theorem binds_iff (slots : CallSlots) :
    Binds slots fn c ↔ (fn = .strtoull → c.nptrLabel = c.base.toUInt32) := by
  unfold Binds
  rw [formals_rewritten]
  split
  · next h =>
    simp only [Option.some.injEq, StrtoFormals.mk.injEq, h, true_and, and_true, forall_const]
    constructor
    · exact fun heq => heq.2.symm
    · intro heq
      rw [heq]
      exact ⟨Int32.toInt32_toUInt32 _, rfl⟩
  · next h => simp [h]

theorem StrtoLibc.call_fst (libc : StrtoLibc) (fn : StrtoFn) (nptr endptr : UInt64) (base : Int32)
    (m : CMemory) : (libc.call fn nptr endptr base m).1 = (libc fn (m.string nptr) base).1 := by
  unfold StrtoLibc.call
  rcases libc fn (m.string nptr) base with ⟨ret, stored⟩
  cases stored with
  | none => rfl
  | some n => by_cases h : endptr = 0 <;> simp [h]

theorem StrtoLibc.call_pointers (libc : StrtoLibc) (fn : StrtoFn) (nptr endptr : UInt64)
    (base : Int32) (m : CMemory) : (libc.call fn nptr endptr base m).2.pointers =
      match (libc fn (m.string nptr) base).2 with
      | none => m.pointers
      | some n =>
        if endptr = 0 then m.pointers
        else Function.update m.pointers endptr (some (nptr + n)) := by
  unfold StrtoLibc.call
  rcases libc fn (m.string nptr) base with ⟨ret, stored⟩
  cases stored with
  | none => rfl
  | some n => by_cases h : endptr = 0 <;> simp [h]

theorem strtoBody_pointers (libc : StrtoLibc) (fn : StrtoFn) (f : StrtoFormals) (m : CMemory) :
    (strtoBody libc fn f m).2.pointers =
      if f.endptr = 0 then m.pointers
      else Function.update m.pointers f.endptr
        ((libc fn (m.string f.nptr) f.base).2.map (f.nptr + ·)) := by
  by_cases h : f.endptr = 0
  · simp [strtoBody, h]
  · simp [strtoBody, h]

/-- The wrapper returns and stores what a call of libc would. -/
def SameEffect (libc : StrtoLibc) (slots : CallSlots) (fn : StrtoFn) (c : StrtoFormals)
    (m : CMemory) : Prop :=
  ∃ ret m', fn.wrapper libc (rewrittenArgs slots fn c) m = some (ret, m') ∧
    ret = (libc.call fn c.nptr c.endptr c.base m).1 ∧
    m'.pointers = (libc.call fn c.nptr c.endptr c.base m).2.pointers

/-- With its parameters bound, the wrapper differs from libc only by an end pointer that libc does
not store. -/
theorem sameEffect_iff (hbinds : Binds slots fn c) :
    SameEffect libc slots fn c m ↔
      (c.endptr ≠ 0 → (libc fn (m.string c.nptr) c.base).2 = none →
        m.pointers c.endptr = none) := by
  have hrun : fn.wrapper libc (rewrittenArgs slots fn c) m =
      some (strtoBody libc fn { c with retLabel := slots.labelReturn } m) := by
    rw [wrapper_eq, hbinds]
    rfl
  have hpointers : SameEffect libc slots fn c m ↔
      (strtoBody libc fn { c with retLabel := slots.labelReturn } m).2.pointers =
        (libc.call fn c.nptr c.endptr c.base m).2.pointers := by
    unfold SameEffect
    rw [hrun]
    constructor
    · rintro ⟨ret, m', heq, _, h⟩
      cases heq
      exact h
    · intro h
      exact ⟨_, _, rfl, (libc.call_fst ..).symm, h⟩
  rw [hpointers, strtoBody_pointers, StrtoLibc.call_pointers]
  by_cases hnull : c.endptr = 0
  · simp only [hnull, if_true, ne_eq, not_true_eq_false, false_implies, iff_true]
    split <;> rfl
  · simp only [hnull, if_false, ne_eq, not_false_eq_true, true_implies]
    cases (libc fn (m.string c.nptr) c.base).2 with
    | none => simp [eq_comm]
    | some n => simp

/-- A call of a number parser is passed as it is declared, and it keeps its meaning exactly when the
label of the string of a `strtoull` happens to be the base, and the end pointer is one that libc
stores. -/
theorem strto_custom_call (libc : StrtoLibc) (slots : CallSlots) (fn : StrtoFn) (c : StrtoFormals)
    (m : CMemory) :
    PassedInOrder slots fn c ∧
      (Binds slots fn c ∧ SameEffect libc slots fn c m ↔
        (fn = .strtoull → c.nptrLabel = c.base.toUInt32) ∧
        (c.endptr ≠ 0 → (libc fn (m.string c.nptr) c.base).2 = none →
          m.pointers c.endptr = none)) := by
  rw [← binds_iff slots]
  exact ⟨passed_in_order slots fn c, and_congr_right fun hbinds => sameEffect_iff hbinds⟩

def isSpace (b : UInt8) : Bool := b == 32 || (9 ≤ b && b ≤ 13)

def digitValue (b : UInt8) : Nat :=
  if 48 ≤ b ∧ b ≤ 57 then b.toNat - 48
  else if 97 ≤ b ∧ b ≤ 122 then b.toNat - 87
  else if 65 ≤ b ∧ b ≤ 90 then b.toNat - 55
  else 36

/-- The length of a sign, and whether it is a minus. -/
def readSign : List UInt8 → Nat × Bool
  | 45 :: _ => (1, true)
  | 43 :: _ => (1, false)
  | _ => (0, false)

/-- The length of a prefix `0x` before a digit, and the base: zero asks for the text's own. -/
def readPrefix (base : Nat) : List UInt8 → Nat × Nat
  | 48 :: x :: d :: _ =>
    if (x = 120 ∨ x = 88) ∧ digitValue d < 16 ∧ (base = 0 ∨ base = 16) then (2, 16)
    else (0, if base = 0 then 8 else base)
  | 48 :: _ => (0, if base = 0 then 8 else base)
  | _ => (0, if base = 0 then 10 else base)

/-- The value of some digits with their sign, in the range of the function's result. -/
def StrtoFn.clamp (negative : Bool) (value : Nat) : StrtoFn → UInt64
  | .strtol | .strtoll =>
    if negative then .ofInt (-(min value (2 ^ 63) : Nat)) else .ofNat (min value (2 ^ 63 - 1))
  | .strtoul | .strtoull =>
    if 2 ^ 64 ≤ value then .ofNat (2 ^ 64 - 1)
    else if negative then .ofInt (-value)
    else .ofNat value

/-- The number parsers of glibc, which stores no end pointer for a base it does not know. -/
def glibc : StrtoLibc := fun fn s base =>
  if base < 0 ∨ base = 1 ∨ 36 < base then (0, none)
  else
    let spaces := (s.takeWhile isSpace).length
    let (sign, negative) := readSign (s.drop spaces)
    let (skip, radix) := readPrefix base.toInt.toNat (s.drop (spaces + sign))
    let start := spaces + sign + skip
    let digits := (s.drop start).takeWhile fun b => digitValue b < radix
    if digits = [] then (0, some 0)
    else
      let value := digits.foldl (fun v d => v * radix + digitValue d) 0
      (fn.clamp negative value, some (.ofNat (start + digits.length)))

example : (glibc .strtol [32, 45, 49, 50, 120] 10) = (.ofInt (-12), some 4) := by decide

/-- `strtoull("010", NULL, 10)` on a string without a label is 8, the octal number. -/
theorem strtoull_base_lost :
    let m : CMemory := { string := fun _ => [48, 49, 48], pointers := fun _ => none,
                         labels := fun _ => 0 }
    let slots : CallSlots := { trampoline := fun _ => 0, labelVA := 0, labelReturn := 64 }
    let c : StrtoFormals := { nptr := 16, endptr := 0, base := 10, nptrLabel := 0, endptrLabel := 0,
                              baseLabel := 0, retLabel := 64 }
    (glibc.call .strtoull c.nptr c.endptr c.base m).1 = 10 ∧
      (StrtoFn.strtoull.wrapper glibc (rewrittenArgs slots .strtoull c) m).map Prod.fst = some 8 ∧
      ¬Binds slots .strtoull c ∧ ¬SameEffect glibc slots .strtoull c m := by
  intro m slots c
  have hcall : (glibc.call .strtoull c.nptr c.endptr c.base m).1 = 10 := by decide
  have hwrapper :
      (StrtoFn.strtoull.wrapper glibc (rewrittenArgs slots .strtoull c) m).map Prod.fst =
        some 8 := by
    decide
  refine ⟨hcall, hwrapper, by unfold Binds; decide, ?_⟩
  rintro ⟨ret, m', hrun, hret, _⟩
  rw [hrun, hret, hcall] at hwrapper
  have heq : (10 : UInt64) = 8 := Option.some.inj hwrapper
  exact absurd heq (by decide)

end Kirenenko
