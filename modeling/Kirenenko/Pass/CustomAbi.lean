import Mathlib.Data.List.Basic

namespace Kirenenko
set_option autoImplicit true

inductive LlvmType where
  | void
  | int (bits : Nat)
  | float (bits : Nat)
  | pointer (elem : LlvmType)
  | struct (fields : List LlvmType)
  | array (size : Nat) (elem : LlvmType)
  | function (ret : LlvmType) (params : List LlvmType) (isVarArg : Bool)

structure FunctionType where
  ret : LlvmType
  params : List LlvmType
  isVarArg : Bool

def FunctionType.getPointerTo (t : FunctionType) : LlvmType :=
  .pointer (.function t.ret t.params t.isVarArg)

def LlvmType.isVoidTy : LlvmType → Bool
  | .void => true
  | _ => false

/-- A label. -/
def shadowTy : LlvmType := .int 32

def shadowPtrTy : LlvmType := .pointer shadowTy

def int8PtrTy : LlvmType := .pointer (.int 8)

def getTrampolineFunctionType (t : FunctionType) : FunctionType where
  ret := t.ret
  params := [t.getPointerTo] ++ t.params ++ List.replicate t.params.length shadowTy ++
    if t.ret.isVoidTy then [] else [shadowPtrTy]
  isVarArg := false

structure TransformedFunction where
  originalType : FunctionType
  transformedType : FunctionType
  argumentIndexMapping : List Nat

/-- The types that one parameter becomes: a function pointer is passed as a trampoline and an
untyped pointer. -/
def customParam : LlvmType → List LlvmType
  | .pointer (.function ret params isVarArg) =>
    [(getTrampolineFunctionType ⟨ret, params, isVarArg⟩).getPointerTo, int8PtrTy]
  | t => [t]

/-- The loop over the parameters, with `ArgTypes` and `ArgumentIndexMapping` so far. -/
def customParams : List LlvmType → List LlvmType → List Nat → List LlvmType × List Nat
  | [], argTypes, mapping => (argTypes, mapping)
  | t :: ts, argTypes, mapping =>
    customParams ts (argTypes ++ customParam t) (mapping ++ [argTypes.length])

def getCustomFunctionType (t : FunctionType) : TransformedFunction where
  originalType := t
  transformedType :=
    { ret := t.ret
      params := (customParams t.params [] []).1 ++ List.replicate t.params.length shadowTy ++
        (if t.isVarArg then [shadowPtrTy] else []) ++
        if t.ret.isVoidTy then [] else [shadowPtrTy]
      isVarArg := t.isVarArg }
  argumentIndexMapping := (customParams t.params [] []).2

/-- An operand of a call, with its shadow. -/
structure CallOperand (V : Type) where
  type : LlvmType
  value : V
  shadow : UInt32

/-- A value of the vector `Args` of a rewritten call. -/
inductive CallArg (V : Type) where
  | operand (o : CallOperand V)
  | trampoline (name : String) (t : FunctionType)
  | bitCast (o : CallOperand V)
  | shadow (label : UInt32)
  | labelVA (labels : List UInt32)
  | labelReturn

def CallArg.type : CallArg V → LlvmType
  | .operand o => o.type
  | .trampoline _ t => (getTrampolineFunctionType t).getPointerTo
  | .bitCast _ => int8PtrTy
  | .shadow _ => shadowTy
  | .labelVA _ => shadowPtrTy
  | .labelReturn => shadowPtrTy

/-- What is passed for the `k`-th operand of a call of `fname`. -/
def customArg (fname : String) (o : CallOperand V) (k : Nat) : List (CallArg V) :=
  match o.type with
  | .pointer (.function ret params isVarArg) =>
    [.trampoline ("dfst" ++ toString k ++ "$" ++ fname) ⟨ret, params, isVarArg⟩, .bitCast o]
  | _ => [.operand o]

/-- The arguments for the parameters, from the `k`-th on. -/
def paramArgs (fname : String) : List (CallOperand V) → Nat → List (CallArg V)
  | [], _ => []
  | o :: os, k => customArg fname o k ++ paramArgs fname os (k + 1)

/-- `Args`, for a call of `fname` with a custom wrapper. -/
def customArgs (fname : String) (ft : FunctionType) (operands : List (CallOperand V)) :
    List (CallArg V) :=
  let fixed := operands.take ft.params.length
  let varargs := operands.drop ft.params.length
  paramArgs fname fixed 0 ++ fixed.map (fun o => .shadow o.shadow) ++
    (if ft.isVarArg then [.labelVA (varargs.map CallOperand.shadow)] else []) ++
    (if ft.ret.isVoidTy then [] else [.labelReturn]) ++ varargs.map .operand

theorem customParams_eq (ts argTypes : List LlvmType) (mapping : List Nat) :
    (customParams ts argTypes mapping).1 = argTypes ++ ts.flatMap customParam := by
  induction ts generalizing argTypes mapping with
  | nil => simp [customParams]
  | cons t ts ih =>
    rw [customParams, ih, List.flatMap_cons, List.append_assoc]

theorem customParams_mapping (ts argTypes : List LlvmType) (mapping : List Nat) :
    (customParams ts argTypes mapping).2 = mapping ++ (List.range ts.length).map fun i =>
      argTypes.length + ((ts.take i).flatMap customParam).length := by
  induction ts generalizing argTypes mapping with
  | nil => simp [customParams]
  | cons t ts ih =>
    rw [customParams, ih, List.length_cons, List.range_succ_eq_map, List.append_assoc]
    simp [Function.comp_def, Nat.add_assoc]

theorem customArg_types (fname : String) (o : CallOperand V) (k : Nat) :
    (customArg fname o k).map CallArg.type = customParam o.type := by
  unfold customArg customParam
  split <;> rfl

theorem paramArgs_types (fname : String) (os : List (CallOperand V)) (k : Nat) :
    (paramArgs fname os k).map CallArg.type = (os.map CallOperand.type).flatMap customParam := by
  induction os generalizing k with
  | nil => rfl
  | cons o os ih =>
    rw [paramArgs, List.map_append, customArg_types, ih, List.map_cons, List.flatMap_cons]

theorem shadow_types (os : List (CallOperand V)) :
    (os.map fun o => (CallArg.shadow o.shadow : CallArg V)).map CallArg.type =
      List.replicate os.length shadowTy := by
  rw [List.map_map]
  exact List.map_const' ..

/-- A call that matches the type of the function becomes one that matches the transformed type,
with the variable arguments at the end. -/
theorem customArgs_types (fname : String) {ft : FunctionType} {operands : List (CallOperand V)}
    (htypes : (operands.take ft.params.length).map CallOperand.type = ft.params) :
    (customArgs fname ft operands).map CallArg.type =
      (getCustomFunctionType ft).transformedType.params ++
        (operands.drop ft.params.length).map CallOperand.type := by
  have hlen : (operands.take ft.params.length).length = ft.params.length := by
    have := congrArg List.length htypes
    simpa using this
  have hfixed := paramArgs_types fname (operands.take ft.params.length) 0
  rw [htypes] at hfixed
  have hshadows := shadow_types (operands.take ft.params.length)
  rw [hlen] at hshadows
  simp only [customArgs, getCustomFunctionType, List.map_append, hfixed, hshadows, customParams_eq,
    List.nil_append, List.map_map]
  congr 2
  · cases ft.isVarArg <;> rfl
  · cases ft.ret.isVoidTy <;> rfl

theorem paramArgs_append (fname : String) (os os' : List (CallOperand V)) (k : Nat) :
    paramArgs fname (os ++ os') k =
      paramArgs fname os k ++ paramArgs fname os' (k + os.length) := by
  induction os generalizing k with
  | nil => rfl
  | cons o os ih =>
    rw [List.cons_append, paramArgs, paramArgs, ih, List.append_assoc, List.length_cons,
      Nat.add_right_comm, Nat.add_assoc]

theorem customArg_length_pos (fname : String) (o : CallOperand V) (k : Nat) :
    0 < (customArg fname o k).length := by
  unfold customArg
  split <;> exact Nat.zero_lt_succ _

theorem paramArgs_length (fname : String) (os : List (CallOperand V)) (k : Nat) :
    (paramArgs fname os k).length = ((os.map CallOperand.type).flatMap customParam).length := by
  rw [← paramArgs_types fname os k, List.length_map]

theorem take_split {os : List α} (hi : i < n) (ho : os[i]? = some o) :
    ∃ rest, os.take n = os.take i ++ o :: rest := by
  refine ⟨(os.take n).drop (i + 1), ?_⟩
  have hget : (os.take n)[i]? = some o := by rw [List.getElem?_take_of_lt hi, ho]
  obtain ⟨hlt, hget⟩ := List.getElem?_eq_some_iff.1 hget
  have htake : (os.take n).take i = os.take i := by
    rw [List.take_take, Nat.min_eq_left (Nat.le_of_lt hi)]
  rw [← hget, ← List.drop_eq_getElem_cons hlt, ← htake, List.take_append_drop]

/-- `ArgumentIndexMapping` says where the argument for a parameter starts. -/
theorem customArgs_mapping (fname : String) {ft : FunctionType} {operands : List (CallOperand V)}
    (htypes : (operands.take ft.params.length).map CallOperand.type = ft.params)
    (hi : (getCustomFunctionType ft).argumentIndexMapping[i]? = some j)
    (ho : operands[i]? = some o) :
    (customArgs fname ft operands)[j]? = (customArg fname o i)[0]? := by
  simp only [getCustomFunctionType, customParams_mapping, List.nil_append, List.length_nil,
    Nat.zero_add, List.getElem?_map, Option.map_eq_some_iff, List.getElem?_eq_some_iff,
    List.length_range, List.getElem_range] at hi
  obtain ⟨_, ⟨hlt, rfl⟩, rfl⟩ := hi
  have hbefore : ft.params.take i = (operands.take i).map CallOperand.type := by
    rw [← htypes, ← List.map_take, List.take_take, Nat.min_eq_left (by omega)]
  have hlen : (operands.take i).length = i := by
    obtain ⟨hi, _⟩ := List.getElem?_eq_some_iff.1 ho
    rw [List.length_take, Nat.min_eq_left (by omega)]
  have hpos := customArg_length_pos fname o i
  obtain ⟨rest, hrest⟩ := take_split hlt ho
  rw [hbefore, ← paramArgs_length fname _ 0]
  simp only [customArgs, hrest, paramArgs_append, paramArgs, hlen, List.append_assoc, Nat.zero_add]
  rw [List.getElem?_append_right (Nat.le_refl _), Nat.sub_self, List.getElem?_append_left hpos]

theorem customArgs_shadow (fname : String) {ft : FunctionType} {operands : List (CallOperand V)}
    (hi : i < ft.params.length) (ho : operands[i]? = some o) :
    (customArgs fname ft operands)[(paramArgs fname (operands.take ft.params.length) 0).length + i]?
      = some (.shadow o.shadow) := by
  have hget : (operands.take ft.params.length)[i]? = some o := by
    rw [List.getElem?_take_of_lt hi, ho]
  obtain ⟨hlt, _⟩ := List.getElem?_eq_some_iff.1 hget
  simp only [customArgs, List.append_assoc]
  rw [List.getElem?_append_right (Nat.le_add_right _ _), Nat.add_sub_cancel_left,
    List.getElem?_append_left (by simpa using hlt), List.getElem?_map, hget]
  rfl

end Kirenenko
