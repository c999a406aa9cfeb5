import Kirenenko.Runtime.Denotation

namespace Kirenenko
set_option autoImplicit true

/-- The last label whose record starts below the hash table. -/
def maxLabel : Nat := 920350134

theorem dfsanCheckLabel_eq (label : Nat) :
    dfsanCheckLabel label = if label ≤ maxLabel then .ok () else .error .die := by
  unfold dfsanCheckLabel kInitializingLabel unionTableAddr labelInfoSize hashTableAddr maxLabel
  split
  · rw [if_neg (by omega)]
  split
  · rw [if_neg (by omega)]
  · rw [if_pos (by omega)]

theorem allocate_eq (t : LabelTable) (info : LabelInfo) (hb : t.lastLabel ≤ maxLabel) :
    t.allocate info = if t.lastLabel < maxLabel then
      .ok (t.lastLabel + 1,
        { t with info := Function.update t.info (t.lastLabel + 1) info,
                 lastLabel := t.lastLabel + 1 })
      else .error .die := by
  unfold maxLabel at hb
  have hm : (t.lastLabel + 1) % 2 ^ 32 = t.lastLabel + 1 := by omega
  unfold LabelTable.allocate
  simp only [hm, dfsanCheckLabel_eq]
  by_cases h : t.lastLabel < maxLabel
  · rw [if_pos h, if_pos (by omega)]
    rfl
  · rw [if_neg h, if_neg (by omega)]
    rfl

/-- The record a union is stored under. -/
def canonical (k : LabelKey) : LabelKey := zeroConcrete (swapOperands k)

/-- A union of constants, for which no label is needed. -/
def ConstUnion (k : LabelKey) : Prop :=
  k.l1 = 0 ∧ k.l2 < constOffset ∧ k.op ≠ Operators.fsize.code

def InitUnion (k : LabelKey) : Prop :=
  k.l1 = kInitializingLabel ∨ k.l2 = kInitializingLabel

instance : DecidablePred ConstUnion := fun k => by unfold ConstUnion; infer_instance

instance : DecidablePred InitUnion := fun k => by unfold InitUnion; infer_instance

theorem taintUnion_eq (t : LabelTable) (k : LabelKey) :
    taintUnion t k = if ConstUnion (swapOperands k) then .ok (0, t)
      else if InitUnion (swapOperands k) then .ok (kInitializingLabel, t)
      else t.intern (canonical k) := rfl

@[simp] theorem swapOperands_op (k : LabelKey) : (swapOperands k).op = k.op := by
  unfold swapOperands
  split <;> rfl

@[simp] theorem canonical_op (k : LabelKey) : (canonical k).op = k.op := swapOperands_op k

@[simp] theorem canonical_size (k : LabelKey) : (canonical k).size = k.size := by
  unfold canonical zeroConcrete swapOperands
  split <;> rfl

theorem swapOperands_cases (k : LabelKey) :
    ((swapOperands k).l1 = k.l1 ∧ (swapOperands k).l2 = k.l2) ∨
      isCommutative k.op ∧ (swapOperands k).l1 = k.l2 ∧ (swapOperands k).l2 = k.l1 := by
  unfold swapOperands
  split
  · rename_i h
    exact .inr ⟨h.2, rfl, rfl⟩
  · exact .inl ⟨rfl, rfl⟩

/-- The two argument orders of a commutative union. -/
def LabelKey.swapped (k : LabelKey) : LabelKey :=
  { k with l1 := k.l2, l2 := k.l1, op1 := k.op2, op2 := k.op1 }

theorem isCommutative_ne (h : isCommutative op = true) :
    op ≠ Operators.Load.code ∧ op ≠ Operators.fsize.code := by
  constructor <;> rintro rfl <;> exact absurd h (by decide)

theorem taintUnion_swapped (t : LabelTable) (hc : isCommutative k.op) :
    taintUnion t k.swapped = taintUnion t k := by
  obtain ⟨l1, l2, op, size, op1, op2⟩ := k
  simp only at hc
  rcases Nat.lt_trichotomy l1 l2 with h | h | h
  · have h' : ¬l1 > l2 := by omega
    simp only [taintUnion, LabelKey.swapped, swapOperands, gt_iff_lt, h, hc, and_self, ↓reduceIte,
      h', false_and]
  · subst h
    have hf := (isCommutative_ne hc).2
    simp only [taintUnion, LabelKey.swapped, swapOperands, gt_iff_lt, Nat.lt_irrefl, false_and,
      ↓reduceIte]
    by_cases h0 : l1 < constOffset
    · have : l1 = 0 := by unfold constOffset at h0; omega
      subst this
      simp [constOffset, hf]
    · have hz : ∀ a b, zeroConcrete ⟨l1, l1, op, size, a, b⟩ = ⟨l1, l1, op, size, 0, 0⟩ := by
        intro a b
        simp only [zeroConcrete, ge_iff_le, Nat.le_of_not_lt h0, ↓reduceIte]
      rw [hz, hz]
  · have h' : ¬l2 > l1 := by omega
    simp only [taintUnion, LabelKey.swapped, swapOperands, gt_iff_lt, h, hc, and_self, ↓reduceIte,
      h', false_and]

/-- What holds of the label table between any two calls; `S` relates the keys stored by
`__taint_union` to their labels. -/
structure TableInv (t : LabelTable) (S : LabelKey → Nat → Prop) : Prop where
  chain : ChainInv unionHash t.key t.bucket S
  entries : ∀ i, ∀ e ∈ t.bucket i, e.key = e.entry
  stored : ∀ k l, S k l → t.key l = k ∧ constOffset ≤ l ∧ l ≤ t.lastLabel
  order : ∀ k l, S k l → k.l1 < l ∧ (k.op ≠ Operators.Load.code → k.l2 < l)
  zeroed : ∀ k l, S k l → (constOffset ≤ k.l1 → k.op1 = 0) ∧ (constOffset ≤ k.l2 → k.op2 = 0)
  raw : ∀ l, constOffset ≤ l → l ≤ t.lastLabel →
    (∃ k, S k l) ∨ ∃ o, t.key l = { size := 8, op1 := o }
  zero : t.key constLabel = { size := 8 }
  bound : t.lastLabel ≤ maxLabel

theorem TableInv.initial : TableInv .initial fun _ _ => False where
  chain := .empty
  entries _ _ he := by cases he
  stored _ _ h := h.elim
  order _ _ h := h.elim
  zeroed _ _ h := h.elim
  raw l hl hl' := by
    change 1 ≤ l at hl
    change l ≤ 0 at hl'
    omega
  zero := rfl
  bound := by decide

theorem TableInv.ordered (h : TableInv t S) : Ordered t where
  l1 l hl hlast := by
    rcases h.raw l hl hlast with ⟨k, hk⟩ | ⟨o, ho⟩
    · rw [(h.stored k l hk).1]
      exact (h.order k l hk).1
    · rw [ho]
      exact hl
  l2 l hl hlast hL := by
    rcases h.raw l hl hlast with ⟨k, hk⟩ | ⟨o, ho⟩
    · rw [(h.stored k l hk).1] at hL ⊢
      exact (h.order k l hk).2 hL
    · rw [ho]
      exact hl
  bound := by
    have := h.bound
    unfold maxLabel at this
    unfold kInitializingLabel
    omega

theorem TableInv.sameKeys (h : TableInv t S) (hs : SameKeys t t') : TableInv t' S where
  chain := by rw [hs.key, hs.bucket]; exact h.chain
  entries := by rw [hs.bucket]; exact h.entries
  stored := by rw [hs.key, hs.lastLabel]; exact h.stored
  order := h.order
  zeroed := h.zeroed
  raw := by rw [hs.key, hs.lastLabel]; exact h.raw
  zero := by rw [hs.key]; exact h.zero
  bound := by rw [hs.lastLabel]; exact h.bound

/-- The table with one more record, not yet known to the hash table. -/
def LabelTable.extended (t : LabelTable) (info : LabelInfo) : LabelTable :=
  { t with info := Function.update t.info (t.lastLabel + 1) info, lastLabel := t.lastLabel + 1 }

theorem extended_key_new (t : LabelTable) (info : LabelInfo) :
    (t.extended info).key (t.lastLabel + 1) = info.toLabelKey := by
  simp only [LabelTable.extended, LabelTable.key, Function.update_self]

theorem extended_key_old (t : LabelTable) (info : LabelInfo) (hl : l ≤ t.lastLabel) :
    (t.extended info).key l = t.key l := by
  have hne : l ≠ t.lastLabel + 1 := by omega
  simp only [LabelTable.extended, LabelTable.key, Function.update_of_ne hne]

theorem TableInv.chain_extended (h : TableInv t S) (info : LabelInfo) :
    ChainInv unionHash (t.extended info).key t.bucket S := by
  apply h.chain.congr
  intro i e he
  have hs := h.stored _ _ (h.chain.sound i e he)
  rw [← h.entries i e he] at hs
  exact extended_key_old t info hs.2.2

theorem TableInv.create (h : TableInv t S) (hroom : t.lastLabel < maxLabel)
    (hinfo : info.toLabelKey = { size := 8, op1 := o }) : TableInv (t.extended info) S where
  chain := h.chain_extended info
  entries := h.entries
  stored k l hs := by
    obtain ⟨hk, hl, hlast⟩ := h.stored k l hs
    exact ⟨(extended_key_old t info hlast).trans hk, hl, Nat.le_succ_of_le hlast⟩
  order := h.order
  zeroed := h.zeroed
  raw l hl hlast := by
    change l ≤ t.lastLabel + 1 at hlast
    rcases Nat.lt_or_ge t.lastLabel l with hlt | hle
    · have : l = t.lastLabel + 1 := by omega
      subst this
      exact .inr ⟨o, (extended_key_new t info).trans hinfo⟩
    · rw [extended_key_old t info hle]
      exact h.raw l hl hle
  zero := (extended_key_old t info (Nat.zero_le _)).trans h.zero
  bound := hroom

theorem TableInv.store (h : TableInv t S) (hroom : t.lastLabel < maxLabel)
    (hfresh : ∀ l, ¬S info.toLabelKey l) (h1 : info.l1 ≤ t.lastLabel)
    (h2 : info.op ≠ Operators.Load.code → info.l2 ≤ t.lastLabel)
    (hz : (constOffset ≤ info.l1 → info.op1 = 0) ∧ (constOffset ≤ info.l2 → info.op2 = 0)) :
    TableInv ((t.extended info).insert (t.lastLabel + 1) (t.lastLabel + 1))
      (fun k l => S k l ∨ (k = info.toLabelKey ∧ l = t.lastLabel + 1)) where
  chain := by
    have hc := (h.chain_extended info).insert (t.lastLabel + 1) (t.lastLabel + 1)
      (by rw [extended_key_new]; exact hfresh)
    rw [extended_key_new] at hc
    exact hc
  entries i e he := by
    change e ∈ chainInsert unionHash (t.extended info).key t.bucket _ _ i at he
    unfold chainInsert at he
    by_cases hi : i = unionHash ((t.extended info).key (t.lastLabel + 1))
    · subst hi
      rw [Function.update_self] at he
      rcases List.mem_cons.1 he with rfl | he
      · rfl
      · exact h.entries _ e he
    · rw [Function.update_of_ne hi] at he
      exact h.entries i e he
  stored k l hs := by
    rcases hs with hs | ⟨rfl, rfl⟩
    · obtain ⟨hk, hl, hlast⟩ := h.stored k l hs
      exact ⟨(extended_key_old t info hlast).trans hk, hl, Nat.le_succ_of_le hlast⟩
    · exact ⟨extended_key_new t info, Nat.le_add_left _ _, Nat.le_refl _⟩
  order k l hs := by
    rcases hs with hs | ⟨rfl, rfl⟩
    · exact h.order k l hs
    · exact ⟨Nat.lt_succ_of_le h1, fun hL => Nat.lt_succ_of_le (h2 hL)⟩
  zeroed k l hs := by
    rcases hs with hs | ⟨rfl, rfl⟩
    · exact h.zeroed k l hs
    · exact hz
  raw l hl hlast := by
    change l ≤ t.lastLabel + 1 at hlast
    rcases Nat.lt_or_ge t.lastLabel l with hlt | hle
    · have : l = t.lastLabel + 1 := by omega
      exact .inl ⟨info.toLabelKey, .inr ⟨rfl, this⟩⟩
    · rcases h.raw l hl hle with ⟨k, hk⟩ | ⟨o, ho⟩
      · exact .inl ⟨k, .inl hk⟩
      · exact .inr ⟨o, (extended_key_old t info hle).trans ho⟩
  zero := (extended_key_old t info (Nat.zero_le _)).trans h.zero
  bound := hroom

theorem TableInv.lookup (h : TableInv t S) : t.lookup k = some l ↔ S k l := h.chain.lookup k l

end Kirenenko
