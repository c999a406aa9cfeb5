import Kirenenko.Pass.Ir

namespace Kirenenko
set_option autoImplicit true

/-- The widths of the values of a function: of its parameters, of the results of its instructions,
and of what its allocas hold. -/
structure IrTyping where
  params : List Nat
  regs : Nat → Nat
  vars : Nat → Nat

def IrTyping.Has (τ : IrTyping) (w : Nat) : IrValue → Prop
  | .const _ => True
  | .arg i => τ.params[i]? = some w
  | .inst id => τ.regs id = w

instance (τ : IrTyping) (w : Nat) (v : IrValue) : Decidable (τ.Has w v) :=
  match v with
  | .const _ => isTrue trivial
  | .arg i => inferInstanceAs (Decidable (τ.params[i]? = some w))
  | .inst id => inferInstanceAs (Decidable (τ.regs id = w))

/-- What a pointer may be used to access: a variable as a whole, or whole bytes of memory. -/
def IrTyping.Points (τ : IrTyping) (slots : List Nat) (w : Nat) (ptr : IrValue) : Prop :=
  (∀ a ∈ variableOf slots ptr, τ.vars a = w) ∧
    (variableOf slots ptr = none → τ.Has 64 ptr ∧ w % 8 = 0)

instance (τ : IrTyping) (slots : List Nat) (w : Nat) (ptr : IrValue) :
    Decidable (τ.Points slots w ptr) :=
  inferInstanceAs (Decidable (_ ∧ _))

/-- The operands of an instruction have the widths that it reads them with, and `id` has the width
of its result. -/
def IrInst.Typed (types : List IrTyping) (τ : IrTyping) (slots : List Nat) (id : Nat) :
    IrInst → Prop
  | .binary _ w a b => τ.Has w a ∧ τ.Has w b ∧ τ.regs id = w
  | .cast _ w w' a => τ.Has w a ∧ τ.regs id = w'
  | .icmp _ w a b => τ.Has w a ∧ τ.Has w b ∧ τ.regs id = 1
  | .select w c a b => τ.Has 1 c ∧ τ.Has w a ∧ τ.Has w b ∧ τ.regs id = w
  | .gep base index _ => τ.Has 64 base ∧ τ.Has 64 index ∧ τ.regs id = 64
  | .alloca w => τ.regs id = 64 ∧ τ.vars id = w
  | .load w ptr => τ.Points slots w ptr ∧ τ.regs id = w
  | .store w v ptr => τ.Has w v ∧ τ.Points slots w ptr
  | .memset dest v len => τ.Has 64 dest ∧ τ.Has 8 v ∧ τ.Has 64 len
  | .memTransfer dest src len => τ.Has 64 dest ∧ τ.Has 64 src ∧ τ.Has 64 len
  | .pread buf count offset => τ.Has 64 buf ∧ τ.Has 64 count ∧ τ.Has 64 offset ∧ τ.regs id = 64
  | .call callee args ret =>
    types[callee]?.map IrTyping.params = some (args.map Prod.fst) ∧ (∀ a ∈ args, τ.Has a.1 a.2) ∧
      ∀ w ∈ ret, τ.regs id = w

instance (types : List IrTyping) (τ : IrTyping) (slots : List Nat) (id : Nat) (i : IrInst) :
    Decidable (i.Typed types τ slots id) :=
  match i with
  | .binary _ _ _ _ | .icmp _ _ _ _ | .gep _ _ _ | .memset _ _ _ | .memTransfer _ _ _ =>
    inferInstanceAs (Decidable (_ ∧ _ ∧ _))
  | .cast _ _ _ _ | .alloca _ | .load _ _ | .store _ _ _ => inferInstanceAs (Decidable (_ ∧ _))
  | .select _ _ _ _ | .pread _ _ _ => inferInstanceAs (Decidable (_ ∧ _ ∧ _ ∧ _))
  | .call _ _ _ => inferInstanceAs (Decidable (_ ∧ _ ∧ _))

def IrTerm.Typed (τ : IrTyping) (ret : Option Nat) : IrTerm → Prop
  | .br _ => True
  | .condBr c _ _ => τ.Has 1 c
  | .switch w c cases _ => τ.Has w c ∧ 1 ≤ w ∧ w ≤ 64 ∧ ∀ y ∈ cases, y.1 < 2 ^ w
  | .ret v => ∀ x ∈ v, τ.Has x.1 x.2 ∧ ret = some x.1

instance (τ : IrTyping) (ret : Option Nat) (term : IrTerm) : Decidable (term.Typed τ ret) :=
  match term with
  | .br _ => isTrue trivial
  | .condBr c _ _ => inferInstanceAs (Decidable (τ.Has 1 c))
  | .switch _ _ _ _ => inferInstanceAs (Decidable (_ ∧ _ ∧ _ ∧ _))
  | .ret v => inferInstanceAs (Decidable (∀ x ∈ v, _))

def IrPhi.Typed (τ : IrTyping) (φ : IrPhi) : Prop :=
  τ.regs φ.id = φ.width ∧ ∀ x ∈ φ.incoming, τ.Has φ.width x.2

instance (τ : IrTyping) (φ : IrPhi) : Decidable (φ.Typed τ) := inferInstanceAs (Decidable (_ ∧ _))

/-- Every instruction of a function is well typed. -/
def IrFunction.Typed (types : List IrTyping) (τ : IrTyping) (f : IrFunction) : Prop :=
  ∀ b ∈ f.blocks, (∀ φ ∈ b.phis, φ.Typed τ) ∧
    (∀ x ∈ b.body, x.2.Typed types τ f.promoted x.1) ∧ b.term.Typed τ f.ret

instance (types : List IrTyping) (τ : IrTyping) (f : IrFunction) : Decidable (f.Typed types τ) :=
  inferInstanceAs (Decidable (∀ b ∈ f.blocks, _))

/-- A module with the types of its functions. -/
def ModuleTyped (types : List IrTyping) (m : List IrFunction) : Prop :=
  m.length = types.length ∧ ∀ x ∈ m.zip types, x.1.Typed types x.2

instance (types : List IrTyping) (m : List IrFunction) : Decidable (ModuleTyped types m) :=
  inferInstanceAs (Decidable (_ ∧ _))

theorem ModuleTyped.function {m : List IrFunction} {k : Nat} (h : ModuleTyped types m)
    (hf : m[k]? = some f) : ∃ τ, types[k]? = some τ ∧ IrFunction.Typed types τ f := by
  obtain ⟨hk, rfl⟩ := List.getElem?_eq_some_iff.1 hf
  obtain ⟨τ, hτ⟩ : ∃ τ, types[k]? = some τ := ⟨_, List.getElem?_eq_getElem (h.1 ▸ hk)⟩
  refine ⟨τ, hτ, h.2 (_, τ) ?_⟩
  apply List.mem_of_getElem? (i := k)
  rw [List.getElem?_zip_eq_some]
  exact ⟨hf, hτ⟩

end Kirenenko
