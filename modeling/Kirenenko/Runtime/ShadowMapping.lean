import Kirenenko.Runtime.InputWrappers

namespace Kirenenko
set_option autoImplicit true

def kShadowAddr : Nat := 0x10000

def kAppAddr : Nat := 0x700000040000

/-- The first address above the application. -/
def kAppEnd : Nat := 0x800000000000

def kAppBaseAddr : BitVec 64 := 0x700000000000

def kShadowMask : BitVec 64 := ~~~0x700000000000

def shadowFor (ptr : BitVec 64) : BitVec 64 := (ptr &&& kShadowMask) <<< 2

def appFor (l : BitVec 64) : BitVec 64 := (l >>> 2) ||| kAppBaseAddr

def shadowWidth : Nat := 32

def shadowPtrMul : BitVec 64 := BitVec.ofNat 64 (shadowWidth / 8)

def shadowPtrMask : BitVec 64 := ~~~0x700000000000

/-- The address computation that the pass emits before a load or a store. -/
def getShadowAddress (addr : BitVec 64) : BitVec 64 := (addr &&& shadowPtrMask) * shadowPtrMul

/-- The addresses of application memory. -/
def InApp (a : Int) : Prop := kAppAddr ≤ a ∧ a < kAppEnd

instance (a : Int) : Decidable (InApp a) := inferInstanceAs (Decidable (_ ∧ _))

/-- The address of the element `i` of an array of labels. -/
def elementAddr (ls : BitVec 64) (i : Int) : BitVec 64 := ls + BitVec.ofInt 64 (4 * i)

theorem and_base_eq_zero {q : BitVec 64} (hq : q.toNat < 2 ^ 44) : q &&& kAppBaseAddr = 0#64 := by
  have hb : kAppBaseAddr = 7#64 <<< 44 := by decide
  rw [hb]
  apply BitVec.eq_of_getLsbD_eq
  intro i hi
  rw [BitVec.getLsbD_and, BitVec.getLsbD_shiftLeft]
  by_cases hlt : i < 44
  · simp [hlt]
  · have hbit : q.getLsbD i = false := by
      apply Nat.testBit_lt_two_pow
      exact Nat.lt_of_lt_of_le hq (Nat.pow_le_pow_right (by decide) (by omega))
    simp [hbit]

theorem or_base {q : BitVec 64} (hq : q.toNat < 2 ^ 44) : q ||| kAppBaseAddr = q + kAppBaseAddr :=
  (BitVec.add_eq_or_of_and_eq_zero q kAppBaseAddr (and_base_eq_zero hq)).symm

theorem mask_base {q : BitVec 64} (hq : q.toNat < 2 ^ 44) :
    (q + kAppBaseAddr) &&& kShadowMask = q := by
  have hand := and_base_eq_zero hq
  have hmask : kShadowMask = ~~~kAppBaseAddr := rfl
  rw [← or_base hq, hmask]
  apply BitVec.eq_of_getLsbD_eq
  intro i hi
  have hbit := congrArg (fun x => x.getLsbD i) hand
  simp only [BitVec.getLsbD_and, BitVec.getLsbD_zero] at hbit
  simp only [BitVec.getLsbD_and, BitVec.getLsbD_or, BitVec.getLsbD_not, hi, decide_true,
    Bool.true_and]
  revert hbit
  cases q.getLsbD i <;> cases kAppBaseAddr.getLsbD i <;> decide

theorem InApp.offset {p : BitVec 64} (hp : InApp p.toNat) :
    ∃ q : BitVec 64, p = q + kAppBaseAddr ∧ p.toNat = q.toNat + 0x700000000000 ∧
      0x40000 ≤ q.toNat ∧ q.toNat < 2 ^ 44 := by
  obtain ⟨hlow, hhigh⟩ := hp
  simp only [kAppAddr, kAppEnd] at hlow hhigh
  have hbase : kAppBaseAddr.toNat = 0x700000000000 := rfl
  refine ⟨p - kAppBaseAddr, (BitVec.sub_add_cancel p _).symm, ?_⟩
  rw [BitVec.toNat_sub, hbase]
  omega

theorem InApp.toNat_shadowFor {p : BitVec 64} (hp : InApp p.toNat) :
    (shadowFor p).toNat + 4 * 0x700000000000 = 4 * p.toNat := by
  obtain ⟨q, rfl, hp, -, hq⟩ := hp.offset
  rw [hp, shadowFor, mask_base hq, BitVec.toNat_shiftLeft, Nat.shiftLeft_eq]
  omega

theorem toNat_appFor {l : BitVec 64} (hl : l.toNat < 2 ^ 46) :
    (appFor l).toNat = l.toNat / 4 + 0x700000000000 := by
  have hbase : kAppBaseAddr.toNat = 0x700000000000 := rfl
  have hq : (l >>> 2).toNat = l.toNat / 4 := by
    rw [BitVec.toNat_ushiftRight, Nat.shiftRight_eq_div_pow]
  rw [appFor, or_base (by omega), BitVec.toNat_add, hq, hbase]
  omega

/-- The mask and the multiplication of the pass are the mask and the shift of the runtime. -/
theorem getShadowAddress_eq (addr : BitVec 64) : getShadowAddress addr = shadowFor addr := by
  have hmul : shadowPtrMul = BitVec.twoPow 64 2 := by decide
  rw [getShadowAddress, hmul, BitVec.mul_twoPow_eq_shiftLeft]
  rfl

theorem InApp.toNat_element {p : BitVec 64} (hp : InApp p.toNat) {i : Int}
    (hi : InApp (p.toNat + i)) :
    ((elementAddr (shadowFor p) i).toNat : Int) + 4 * 0x700000000000 = 4 * (p.toNat + i) := by
  have hs := hp.toNat_shadowFor
  obtain ⟨hlow, hhigh⟩ := hi
  simp only [kAppAddr, kAppEnd] at hlow hhigh
  rw [elementAddr, BitVec.toNat_add, BitVec.toNat_ofInt]
  omega

theorem InApp.appFor_element {p : BitVec 64} (hp : InApp p.toNat) {i : Int}
    (hi : InApp (p.toNat + i)) :
    ((appFor (elementAddr (shadowFor p) i)).toNat : Int) = p.toNat + i := by
  have he := hp.toNat_element hi
  obtain ⟨-, hhigh⟩ := hi
  simp only [kAppEnd] at hhigh
  rw [toNat_appFor (by omega)]
  omega

/-- The runtime and the pass map an application address to one cell of the shadow, which can be
mapped back. -/
theorem shadow_mapping (p : BitVec 64) (hp : InApp p.toNat) :
    getShadowAddress p = shadowFor p ∧ (shadowFor p).toNat % 4 = 0 ∧
      kShadowAddr ≤ (shadowFor p).toNat ∧ (shadowFor p).toNat + 4 ≤ unionTableAddr ∧
      appFor (shadowFor p) = p ∧
      (∀ i : Int, InApp (p.toNat + i) →
        ((appFor (elementAddr (shadowFor p) i)).toNat : Int) = p.toNat + i) ∧
      ∀ q : BitVec 64, InApp q.toNat → q ≠ p →
        (shadowFor q).toNat + 4 ≤ (shadowFor p).toNat ∨
          (shadowFor p).toNat + 4 ≤ (shadowFor q).toNat := by
  have hs := hp.toNat_shadowFor
  have helem : ∀ i : Int, InApp (p.toNat + i) →
      ((appFor (elementAddr (shadowFor p) i)).toNat : Int) = p.toNat + i :=
    fun i hi => hp.appFor_element hi
  obtain ⟨hlow, hhigh⟩ := hp
  simp only [kAppAddr, kAppEnd] at hlow hhigh
  refine ⟨getShadowAddress_eq p, by omega, ?_, ?_, ?_, helem, ?_⟩
  · rw [kShadowAddr]
    omega
  · rw [unionTableAddr]
    omega
  · apply BitVec.eq_of_toNat_eq
    rw [toNat_appFor (by omega)]
    omega
  · intro q hq hne
    have hs' := hq.toNat_shadowFor
    have hne' : q.toNat ≠ p.toNat := fun h => hne (BitVec.eq_of_toNat_eq h)
    omega

theorem shadow_mapping_first :
    InApp (0x700000040000#64).toNat ∧ appFor (shadowFor 0x700000040000#64) = 0x700000040000#64 :=
  ⟨by decide, (shadow_mapping 0x700000040000#64 (by decide)).2.2.2.2.1⟩

/-- `*labelp`, the label in four bytes of memory. -/
def loadLabel (mem : Nat → UInt8) (labelp : BitVec 64) : Nat := loadBytes mem labelp.toNat 4

def storeLabel (mem : Nat → UInt8) (labelp : BitVec 64) (label : Nat) : Nat → UInt8 :=
  storeBytes mem labelp.toNat 4 label

/-- The loop of `__dfsan_set_label`, which does not write a label that is already there. -/
def setLabelLoop (label : Nat) : Nat → BitVec 64 → (Nat → UInt8) → Nat → UInt8
  | 0, _, mem => mem
  | size + 1, labelp, mem =>
    if label = loadLabel mem labelp then setLabelLoop label size (labelp + 4) mem
    else setLabelLoop label size (labelp + 4) (storeLabel mem labelp label)

def dfsanSetLabel (label : Nat) (addr : BitVec 64) (size : Nat) (mem : Nat → UInt8) :
    Nat → UInt8 :=
  setLabelLoop label size (shadowFor addr) mem

/-- The shadow of the application, read from the bytes of memory. -/
def shadowOf (mem : Nat → UInt8) (a : Int) : Nat := loadLabel mem (shadowFor (BitVec.ofInt 64 a))

/-- The pointer to the shadow of an application address. -/
def CellAt (labelp : BitVec 64) (a : Int) : Prop :=
  (labelp.toNat : Int) + 4 * 0x700000000000 = 4 * a

theorem InApp.cellAt (hb : InApp b) : CellAt (shadowFor (BitVec.ofInt 64 b)) b := by
  have hb' := hb
  obtain ⟨hlow, hhigh⟩ := hb
  simp only [kAppAddr, kAppEnd] at hlow hhigh
  have hnat : ((BitVec.ofInt 64 b).toNat : Int) = b := by
    rw [BitVec.toNat_ofInt]
    omega
  have hs := InApp.toNat_shadowFor (p := BitVec.ofInt 64 b) (by rwa [hnat])
  rw [CellAt]
  omega

theorem CellAt.shadowFor_eq (hl : CellAt labelp a) (ha : InApp a) :
    shadowFor (BitVec.ofInt 64 a) = labelp := by
  have hc := ha.cellAt
  rw [CellAt] at hl hc
  apply BitVec.eq_of_toNat_eq
  omega

theorem shadowOf_store (hl : CellAt labelp a) (hb : InApp b) (mem : Nat → UInt8) (label : Nat) :
    shadowOf (storeLabel mem labelp label) b =
      if b = a then label % 2 ^ 32 else shadowOf mem b := by
  unfold shadowOf
  by_cases hba : b = a
  · subst hba
    rw [if_pos rfl, hl.shadowFor_eq hb]
    exact loadBytes_storeBytes
  · rw [if_neg hba]
    have hc := hb.cellAt
    rw [CellAt] at hl hc
    exact loadBytes_storeBytes_apart (by omega)

theorem CellAt.succ (hl : CellAt labelp a) (ha : InApp a) : CellAt (labelp + 4) (a + 1) := by
  obtain ⟨-, hhigh⟩ := ha
  simp only [kAppEnd] at hhigh
  rw [CellAt] at hl ⊢
  rw [BitVec.toNat_add]
  have h4 : (4 : BitVec 64).toNat = 4 := rfl
  omega

theorem shadowOf_setLabelLoop (hlabel : label < 2 ^ 32) (hb : InApp b) (hlow : (kAppAddr : Int) ≤ a)
    (hhigh : a + (size : Nat) ≤ kAppEnd) (hl : CellAt labelp a) (mem : Nat → UInt8) :
    shadowOf (setLabelLoop label size labelp mem) b =
      if a ≤ b ∧ b < a + size then label else shadowOf mem b := by
  induction size generalizing a labelp mem with
  | zero => rw [setLabelLoop, if_neg (by omega)]
  | succ size ih =>
    have ha : InApp a := ⟨hlow, by omega⟩
    have hrest := fun mem => ih (a := a + 1) (by omega) (by omega) (hl.succ ha) mem
    rw [setLabelLoop]
    by_cases heq : label = loadLabel mem labelp
    · have hsame : b = a → shadowOf mem b = label := by
        rintro rfl
        rw [shadowOf, hl.shadowFor_eq ha, heq]
      rw [if_pos heq, hrest]
      grind
    · rw [if_neg heq, hrest, shadowOf_store hl hb, Nat.mod_eq_of_lt hlabel]
      grind

/-- The loop over the bytes of the shadow does what the shadow as a map of labels says. -/
theorem dfsanSetLabel_refines (s : InputState) (mem : Nat → UInt8)
    (hs : ∀ a, InApp a → shadowOf mem a = s.shadow a) (hlabel : label < 2 ^ 32)
    (hlow : (kAppAddr : Int) ≤ addr) (hhigh : addr + (size : Nat) ≤ kAppEnd) (ha : InApp a) :
    shadowOf (dfsanSetLabel label (BitVec.ofInt 64 addr) size mem) a =
      (s.setLabel label addr size).shadow a := by
  unfold InputState.setLabel
  by_cases hend : addr < kAppEnd
  · have hcell := InApp.cellAt (b := addr) ⟨hlow, hend⟩
    rw [dfsanSetLabel, shadowOf_setLabelLoop hlabel ha hlow hhigh hcell, hs a ha]
  · have hsize : size = 0 := by omega
    subst hsize
    rw [dfsanSetLabel, setLabelLoop, hs a ha]
    exact (if_neg (by omega)).symm

theorem dfsanSetLabel_refines_two :
    InApp (kAppAddr + 1) ∧
      shadowOf (dfsanSetLabel 1 (BitVec.ofInt 64 kAppAddr) 2 fun _ => 0) (kAppAddr + 1) =
        (InputState.setLabel ⟨.initial, fun _ => 0⟩ 1 kAppAddr 2).shadow (kAppAddr + 1) :=
  ⟨by decide, dfsanSetLabel_refines ⟨.initial, fun _ => 0⟩ (fun _ => 0) (fun _ _ => rfl) (by decide)
    (Int.le_refl _) (by decide) (by decide)⟩

end Kirenenko
