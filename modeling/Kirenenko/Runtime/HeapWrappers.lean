import Kirenenko.Lib.Run
import Kirenenko.Runtime.CopyWrappers

namespace Kirenenko
set_option autoImplicit true

/-- A block of the heap, as the C library returns it. -/
structure Block where
  addr : Nat
  usable : Nat

/-- The labels of the memory and the usable sizes of the blocks in use. -/
structure HeapState where
  shadow : Nat → Nat := fun _ => constLabel
  blocks : Nat → Option Nat := fun _ => none

/-- The wrappers of `malloc` and `calloc` return the label of the result and the shadow, in which
the block keeps the labels it had. -/
def dfswMalloc (shadow : Nat → Nat) : Nat × (Nat → Nat) := (0, shadow)

def dfswLibcMalloc (shadow : Nat → Nat) : Nat × (Nat → Nat) := (0, shadow)

def dfswCalloc (shadow : Nat → Nat) : Nat × (Nat → Nat) := (0, shadow)

def dfswLibcCalloc (shadow : Nat → Nat) : Nat × (Nat → Nat) := (0, shadow)

def dfswFree (shadow : Nat → Nat) : Nat → Nat := shadow

def dfswLibcFree (shadow : Nat → Nat) : Nat → Nat := shadow

/-- The labels that a wrapper of `realloc` copies. -/
def keptSize (usable newSize : Nat) : Nat := if usable > newSize then newSize else usable

/-- The body shared by the wrappers of `realloc`; a result of null is not the old block either. -/
def moveLabels (ptr newSize ptrLabel usable ret : Nat) (shadow : Nat → Nat) :
    Except MemoryFault (Nat × (Nat → Nat)) :=
  let size := keptSize usable newSize
  if ret ≠ ptr then
    if ret = 0 ∧ size ≠ 0 then .error .nullPage
    else .ok (0, internalMemcpy ret ptr size shadow)
  else .ok (ptrLabel, shadow)

def dfswRealloc (ptr newSize ptrLabel usable ret : Nat) (shadow : Nat → Nat) :
    Except MemoryFault (Nat × (Nat → Nat)) :=
  moveLabels ptr newSize ptrLabel usable ret shadow

def dfswLibcRealloc (ptr newSize ptrLabel usable ret : Nat) (shadow : Nat → Nat) :
    Except MemoryFault (Nat × (Nat → Nat)) :=
  moveLabels ptr newSize ptrLabel usable ret shadow

/-- The calls with what the C library returns, and the stores of the program. -/
inductive HeapCall where
  | malloc (size : Nat) (ret : Option Block)
  | libcMalloc (size : Nat) (ret : Option Block)
  | calloc (nmemb size : Nat) (ret : Option Block)
  | libcCalloc (nmemb size : Nat) (ret : Option Block)
  | realloc (ptr newSize ptrLabel : Nat) (ret : Option Block)
  | libcRealloc (ptr newSize ptrLabel : Nat) (ret : Option Block)
  | free (ptr : Nat)
  | libcFree (ptr : Nat)
  | store (addr n : Nat) (labels : Nat → Nat)

/-- `malloc_usable_size` -/
def HeapState.usableSize (s : HeapState) (ptr : Nat) : Nat :=
  if ptr = 0 then 0 else (s.blocks ptr).getD 0

def addBlock (blocks : Nat → Option Nat) : Option Block → Nat → Option Nat
  | some b => Function.update blocks b.addr (some b.usable)
  | none => blocks

def addressOf (ret : Option Block) : Nat := (ret.map Block.addr).getD 0

/-- The blocks after `realloc`, which leaves the old one if it fails. -/
def movedBlock (blocks : Nat → Option Nat) (ptr newSize : Nat) (ret : Option Block) :
    Nat → Option Nat :=
  if ret.isNone ∧ newSize ≠ 0 then blocks else addBlock (Function.update blocks ptr none) ret

def HeapState.exec (s : HeapState) : HeapCall → Except MemoryFault HeapState
  | .malloc _ ret => .ok ⟨(dfswMalloc s.shadow).2, addBlock s.blocks ret⟩
  | .libcMalloc _ ret => .ok ⟨(dfswLibcMalloc s.shadow).2, addBlock s.blocks ret⟩
  | .calloc _ _ ret => .ok ⟨(dfswCalloc s.shadow).2, addBlock s.blocks ret⟩
  | .libcCalloc _ _ ret => .ok ⟨(dfswLibcCalloc s.shadow).2, addBlock s.blocks ret⟩
  | .realloc ptr newSize ptrLabel ret => do
    let (_, shadow) ←
      dfswRealloc ptr newSize ptrLabel (s.usableSize ptr) (addressOf ret) s.shadow
    return ⟨shadow, movedBlock s.blocks ptr newSize ret⟩
  | .libcRealloc ptr newSize ptrLabel ret => do
    let (_, shadow) ←
      dfswLibcRealloc ptr newSize ptrLabel (s.usableSize ptr) (addressOf ret) s.shadow
    return ⟨shadow, movedBlock s.blocks ptr newSize ret⟩
  | .free ptr => .ok ⟨dfswFree s.shadow, Function.update s.blocks ptr none⟩
  | .libcFree ptr => .ok ⟨dfswLibcFree s.shadow, Function.update s.blocks ptr none⟩
  | .store addr n labels => .ok { s with shadow := written addr labels n s.shadow }

/-- A block that the C library may return: it is large enough and apart from those in use, but may
have been in use before. -/
structure Fresh (s : HeapState) (size : Nat) (b : Block) : Prop where
  nonnull : b.addr ≠ 0
  size : size ≤ b.usable
  apart : ∀ a u, s.blocks a = some u → Apart b.addr b.usable a u

/-- What the C library may do: a block in use is freed or resized, in its place or by a copy to a
fresh one. -/
def HeapCall.Possible (s : HeapState) : HeapCall → Prop
  | .malloc size ret | .libcMalloc size ret => ∀ b, ret = some b → Fresh s size b
  | .calloc nmemb size ret | .libcCalloc nmemb size ret =>
    ∀ b, ret = some b → Fresh s (nmemb * size) b
  | .realloc ptr newSize _ ret | .libcRealloc ptr newSize _ ret =>
    (ptr ≠ 0 → (s.blocks ptr).isSome) ∧
      ∀ b, ret = some b → b.addr ≠ 0 ∧ newSize ≤ b.usable ∧
        (b.addr ≠ ptr → ∀ a u, s.blocks a = some u → Apart b.addr b.usable a u)
  | .free ptr | .libcFree ptr => ptr ≠ 0 → (s.blocks ptr).isSome
  | .store _ _ _ => True

/-- The labels of a block that was allocated, resized, or could not be resized. -/
def HeapCall.Truthful (s : HeapState) (c : HeapCall) : Prop :=
  match c with
  | .calloc nmemb size (some b) | .libcCalloc nmemb size (some b) =>
    ∃ s', s.exec c = .ok s' ∧ ∀ i < nmemb * size, s'.shadow (b.addr + i) = constLabel
  | .realloc ptr newSize _ (some b) | .libcRealloc ptr newSize _ (some b) =>
    ptr ≠ 0 → ∃ s', s.exec c = .ok s' ∧ ∀ i < min (s.usableSize ptr) newSize,
      s'.shadow (b.addr + i) = s.shadow (ptr + i)
  | .realloc _ _ _ none | .libcRealloc _ _ _ none =>
    ∃ s', s.exec c = .ok s' ∧ s'.shadow = s.shadow
  | _ => True

/-- When a call is truthful: a block from `calloc` has no label left from an earlier use, and
`realloc` fails only if it has no label to keep. -/
def HeapCall.Clean (s : HeapState) : HeapCall → Prop
  | .calloc nmemb size (some b) | .libcCalloc nmemb size (some b) =>
    ∀ i < nmemb * size, s.shadow (b.addr + i) = constLabel
  | .realloc ptr newSize _ none | .libcRealloc ptr newSize _ none =>
    min (s.usableSize ptr) newSize = 0
  | _ => True

/-- The labels after a call that copies them. -/
def Leaves (x : Except MemoryFault (Nat × (Nat → Nat))) (P : (Nat → Nat) → Prop) : Prop :=
  ∃ r, x = .ok r ∧ P r.2

section
variable {s : HeapState}

theorem realloc_leaves (P : (Nat → Nat) → Prop) :
    (∃ s', s.exec (.realloc ptr newSize ptrLabel ret) = .ok s' ∧ P s'.shadow) ↔
      Leaves (moveLabels ptr newSize ptrLabel (s.usableSize ptr) (addressOf ret) s.shadow) P := by
  rw [HeapState.exec, dfswRealloc]
  cases moveLabels ptr newSize ptrLabel (s.usableSize ptr) (addressOf ret) s.shadow with
  | ok r =>
    constructor
    · rintro ⟨s', ⟨⟩, hP⟩
      exact ⟨r, rfl, hP⟩
    · rintro ⟨r, ⟨⟩, hP⟩
      exact ⟨_, rfl, hP⟩
  | error e =>
    constructor
    · rintro ⟨s', ⟨⟩, _⟩
    · rintro ⟨r, ⟨⟩, _⟩

theorem keptSize_eq (usable newSize : Nat) : keptSize usable newSize = min usable newSize := by
  unfold keptSize
  by_cases h : usable > newSize
  · rw [if_pos h]
    omega
  · rw [if_neg h]
    omega

theorem moveLabels_block (h0 : ret ≠ 0)
    (hap : ret ≠ ptr → Apart ret (min usable newSize) ptr (min usable newSize)) :
    Leaves (moveLabels ptr newSize ptrLabel usable ret shadow) fun shadow' =>
      ∀ i < min usable newSize, shadow' (ret + i) = shadow (ptr + i) := by
  unfold moveLabels
  by_cases hne : ret ≠ ptr
  · rw [if_pos hne, if_neg fun h => h0 h.1, keptSize_eq]
    refine ⟨_, rfl, ?_⟩
    intro i hi
    change internalMemcpy ret ptr (min usable newSize) shadow (ret + i) = _
    rw [internalMemcpy_eq (hap hne), written_inside _ _ hi]
  · rw [if_neg hne]
    refine ⟨_, rfl, ?_⟩
    intro i _
    rw [not_not.1 hne]

/-- A failure is taken for a block that moves to the null page. -/
theorem moveLabels_null (h0 : ptr = 0 → usable = 0) :
    Leaves (moveLabels ptr newSize ptrLabel usable 0 shadow) (fun shadow' => shadow' = shadow) ↔
      min usable newSize = 0 := by
  unfold moveLabels
  rw [keptSize_eq]
  by_cases hne : 0 ≠ ptr
  · rw [if_pos hne]
    by_cases hsize : min usable newSize = 0
    · rw [if_neg fun h => h.2 hsize, hsize]
      exact iff_of_true ⟨_, rfl, rfl⟩ rfl
    · rw [if_pos ⟨rfl, hsize⟩]
      refine iff_of_false ?_ hsize
      rintro ⟨r, ⟨⟩, _⟩
  · rw [if_neg hne, h0 (not_not.1 hne).symm, Nat.zero_min]
    exact iff_of_true ⟨_, rfl, rfl⟩ rfl

theorem usableSize_null : s.usableSize 0 = 0 := if_pos rfl

theorem usableSize_eq (h0 : ptr ≠ 0) (h : s.blocks ptr = some u) : s.usableSize ptr = u := by
  rw [HeapState.usableSize, if_neg h0, h]
  rfl

theorem realloc_truthful_iff (ptrLabel : Nat)
    (hp : (HeapCall.realloc ptr newSize ptrLabel ret).Possible s) :
    (HeapCall.realloc ptr newSize ptrLabel ret).Truthful s ↔
      (HeapCall.realloc ptr newSize ptrLabel ret).Clean s := by
  obtain ⟨hlive, hret⟩ := hp
  cases ret with
  | none =>
    apply (realloc_leaves fun shadow => shadow = s.shadow).trans
    apply moveLabels_null
    rintro rfl
    exact usableSize_null
  | some b =>
    obtain ⟨hb, hsize, hap⟩ := hret b rfl
    refine iff_of_true ?_ trivial
    intro h0
    apply (realloc_leaves fun shadow => ∀ i < min (s.usableSize ptr) newSize,
      shadow (b.addr + i) = s.shadow (ptr + i)).2
    apply moveLabels_block hb
    intro hne i hi j hj
    obtain ⟨u, hu⟩ := Option.isSome_iff_exists.1 (hlive h0)
    rw [usableSize_eq h0 hu] at hi hj
    exact hap hne ptr u hu i (by omega) j (by omega)

theorem calloc_truthful_iff (nmemb size : Nat) (ret : Option Block) :
    (HeapCall.calloc nmemb size ret).Truthful s ↔ (HeapCall.calloc nmemb size ret).Clean s := by
  cases ret with
  | none => exact Iff.rfl
  | some b =>
    constructor
    · rintro ⟨s', ⟨⟩, h⟩
      exact h
    · intro h
      exact ⟨_, rfl, h⟩

/-- In a run of the heap every call is truthful about labels exactly when every block that `calloc`
returns comes without labels and `realloc` does not fail on a block with bytes to keep. -/
theorem heap_labels_truthful_iff (hp : EachRun HeapState.exec (fun s c => c.Possible s) s as) :
    EachRun HeapState.exec (fun s c => c.Truthful s) s as ↔
      EachRun HeapState.exec (fun s c => c.Clean s) s as := by
  apply EachRun.congr _ _ hp
  intro s c hc
  cases c with
  | malloc size ret | libcMalloc size ret => exact Iff.rfl
  | calloc nmemb size ret => exact calloc_truthful_iff nmemb size ret
  | libcCalloc nmemb size ret =>
    have hcalloc := calloc_truthful_iff (s := s) nmemb size ret
    cases ret <;> exact hcalloc
  | realloc ptr newSize ptrLabel ret => exact realloc_truthful_iff ptrLabel hc
  | libcRealloc ptr newSize ptrLabel ret =>
    have hrealloc := realloc_truthful_iff ptrLabel hc
    cases ret <;> exact hrealloc
  | free ptr | libcFree ptr => exact Iff.rfl
  | store addr n labels => exact Iff.rfl

end

def smallBlock : Block := ⟨4096, 24⟩

theorem smallBlock_fresh (h : ∀ a, s.blocks a = none) (hn : n ≤ 24) : Fresh s n smallBlock :=
  ⟨by decide, hn, fun a u hu => absurd (hu.symm.trans (h a)) nofun⟩

theorem freed_none (a : Nat) :
    Function.update (addBlock (fun _ => none) (some smallBlock)) 4096 none a = none := by
  by_cases ha : a = 4096
  · rw [ha, Function.update_self]
  · rw [Function.update_of_ne ha, addBlock]
    exact Function.update_of_ne ha _ _

/-- A block that was labelled, freed and allocated again by `calloc` still has the labels; a
`realloc` that fails writes to the shadow of the null page. -/
theorem stale_heap_labels :
    (EachRun HeapState.exec (fun s c => c.Possible s) {}
        [.malloc 8 (some smallBlock), .store 4096 8 fun _ => 1, .free 4096,
          .calloc 1 8 (some smallBlock)] ∧
      ¬EachRun HeapState.exec (fun s c => c.Truthful s) {}
        [.malloc 8 (some smallBlock), .store 4096 8 fun _ => 1, .free 4096,
          .calloc 1 8 (some smallBlock)]) ∧
    EachRun HeapState.exec (fun s c => c.Possible s) {}
        [.malloc 8 (some smallBlock), .realloc 4096 16 0 none] ∧
      ¬EachRun HeapState.exec (fun s c => c.Truthful s) {}
        [.malloc 8 (some smallBlock), .realloc 4096 16 0 none] := by
  refine ⟨⟨⟨?_, ?_⟩, ?_⟩, ⟨?_, ?_⟩, ?_⟩
  · rintro b ⟨⟩
    exact smallBlock_fresh (fun _ => rfl) (by decide)
  · rintro s₁ ⟨⟩
    refine ⟨trivial, ?_⟩
    rintro s₂ ⟨⟩
    refine ⟨fun _ => rfl, ?_⟩
    rintro s₃ ⟨⟩
    refine ⟨?_, fun _ _ => trivial⟩
    rintro b ⟨⟩
    exact smallBlock_fresh freed_none (by decide)
  · rintro ⟨_, h⟩
    obtain ⟨⟨s', ⟨⟩, hlabel⟩, _⟩ := ((h _ rfl).2 _ rfl).2 _ rfl
    exact absurd (hlabel 0 (by decide)) (by decide)
  · rintro b ⟨⟩
    exact smallBlock_fresh (fun _ => rfl) (by decide)
  · rintro s₁ ⟨⟩
    refine ⟨⟨fun _ => rfl, nofun⟩, fun _ _ => trivial⟩
  · rintro ⟨_, h⟩
    obtain ⟨⟨s', hs', _⟩, _⟩ := h _ rfl
    cases hs'

/-- A block that is allocated again without having been labelled. -/
theorem heap_labels_truthful_reused :
    EachRun HeapState.exec (fun s c => c.Truthful s) {}
      [.malloc 8 (some smallBlock), .free 4096, .calloc 1 8 (some smallBlock)] := by
  have hp : EachRun HeapState.exec (fun s c => c.Possible s) {}
      [.malloc 8 (some smallBlock), .free 4096, .calloc 1 8 (some smallBlock)] := by
    refine ⟨?_, ?_⟩
    · rintro b ⟨⟩
      exact smallBlock_fresh (fun _ => rfl) (by decide)
    · rintro s₁ ⟨⟩
      refine ⟨fun _ => rfl, ?_⟩
      rintro s₂ ⟨⟩
      refine ⟨?_, fun _ _ => trivial⟩
      rintro b ⟨⟩
      exact smallBlock_fresh freed_none (by decide)
  apply (heap_labels_truthful_iff hp).2
  refine ⟨trivial, ?_⟩
  rintro s₁ ⟨⟩
  refine ⟨trivial, ?_⟩
  rintro s₂ ⟨⟩
  exact ⟨fun _ _ => rfl, fun _ _ => trivial⟩

end Kirenenko
