import Kirenenko.Runtime.Denotation
import Kirenenko.Runtime.ShadowMemory

namespace Kirenenko
set_option autoImplicit true

theorem getLabelInfo_ok {t : LabelTable} (h : l ≤ t.lastLabel) :
    t.getLabelInfo l = .ok (t.info l) :=
  if_pos h

/-- The labels that a load takes for consecutive bytes of the input. -/
def Consecutive (t : LabelTable) (ls : Nat → Nat) (n : Nat) : Prop :=
  (t.key (ls 0)).op = 0 ∧
    ∀ i < n, 0 < i → (t.key (ls i)).op1 = ((t.key (ls 0)).op1 + i) % 2 ^ 64

instance : Decidable (Consecutive t ls n) := by
  unfold Consecutive
  infer_instance

/-- The labels are the bytes of one label, as its recorded size has it. -/
def Extracted (t : LabelTable) (ls : Nat → Nat) (n : Nat) : Prop :=
  (∀ i < n, (t.key (ls i)).op = Operators.Extract.code ∧ (t.key (ls i)).op2 = 8 * i ∧
    (t.key (ls i)).l1 = (t.key (ls 0)).l1) ∧
  (t.key (t.key (ls 0)).l1).size = 8 * n

instance : Decidable (Extracted t ls n) := by
  unfold Extracted
  infer_instance

section
variable {t : LabelTable} {ls : Nat → Nat} {n : Nat}

theorem shapeLoop_spec (hb : t.lastLabel < kInitializingLabel)
    (hl : ∀ j < k, ls (i + j) ≤ t.lastLabel) :
    shapeLoop t ls o i k =
      .ok (if ∀ j < k, (t.key (ls (i + j))).op1 = (o + (i + j)) % 2 ^ 64 then .consecutive
        else .other) := by
  induction k generalizing i with
  | zero =>
    rw [if_pos (by intro j hj; omega)]
    rfl
  | succ k ih =>
    have hi : ls i ≤ t.lastLabel := hl 0 (Nat.succ_pos k)
    rw [shapeLoop, if_neg (by omega), getLabelInfo_ok hi]
    simp only [Nat.forall_lt_succ_left, Nat.add_zero]
    change (if (t.key (ls i)).op1 ≠ (o + i) % 2 ^ 64 then _ else _) = _
    by_cases h0 : (t.key (ls i)).op1 = (o + i) % 2 ^ 64
    · have hrest : ∀ j < k, ls (i + 1 + j) ≤ t.lastLabel := by
        intro j hj
        rw [Nat.succ_add_eq_add_succ]
        exact hl _ (Nat.succ_lt_succ hj)
      rw [if_neg (fun h => h h0), ih hrest]
      simp only [h0, true_and, Nat.succ_add_eq_add_succ]
    · rw [if_pos h0, if_neg fun h => h0 h.1]

theorem loadShape_spec (hb : t.lastLabel < kInitializingLabel) (hn : n ≠ 0)
    (hl : ∀ i < n, ls i ≤ t.lastLabel) :
    loadShape t ls n (t.info (ls 0)) =
      .ok (if Consecutive t ls n then .consecutive else .other) := by
  unfold loadShape
  change (if (t.key (ls 0)).op ≠ 0 then _ else _) = _
  by_cases h0 : (t.key (ls 0)).op = 0
  · rw [if_neg (fun h => h h0), if_neg hn, shapeLoop_spec hb (by intro j hj; exact hl _ (by omega))]
    congr 2
    refine propext ⟨?_, ?_⟩
    · intro h
      refine ⟨h0, ?_⟩
      intro i hi hpos
      obtain ⟨j, rfl⟩ := Nat.exists_eq_add_of_le hpos
      exact h j (by omega)
    · rintro ⟨_, h⟩ j hj
      exact h (1 + j) (by omega) (by omega)
  · rw [if_pos h0, if_neg fun h => h0 h.1]

theorem extractLoop_spec (hl : ∀ j < k, ls (i + j) ≤ t.lastLabel)
    (hs : ∀ j < k, (t.key (ls (i + j))).size = 8) :
    ∃ o', extractLoop t ls p i o k = .ok o' ∧ o' ≤ o + 8 * k ∧
      (o' = o + 8 * k ↔ ∀ j < k, (t.key (ls (i + j))).op = Operators.Extract.code ∧
        (t.key (ls (i + j))).op2 = o + 8 * j ∧ (t.key (ls (i + j))).l1 = p) := by
  induction k generalizing i o with
  | zero => exact ⟨o, rfl, Nat.le_refl _, fun _ j hj => by omega, fun _ => rfl⟩
  | succ k ih =>
    have hi : ls i ≤ t.lastLabel := hl 0 (Nat.succ_pos k)
    have h8 : (t.key (ls i)).size = 8 := hs 0 (Nat.succ_pos k)
    simp only [extractLoop, getLabelInfo_ok hi, Nat.forall_lt_succ_left, Nat.add_zero]
    change ∃ o', (if (t.key (ls i)).op ≠ _ ∨ o ≠ (t.key (ls i)).op2 ∨ p ≠ (t.key (ls i)).l1 then _
      else extractLoop t ls p (i + 1) (o + (t.key (ls i)).size) k) = _ ∧ _
    by_cases hm : (t.key (ls i)).op = Operators.Extract.code ∧ (t.key (ls i)).op2 = o ∧
        (t.key (ls i)).l1 = p
    · obtain ⟨h1, h2, h3⟩ := hm
      have hnot : ¬((t.key (ls i)).op ≠ Operators.Extract.code ∨ o ≠ (t.key (ls i)).op2 ∨
          p ≠ (t.key (ls i)).l1) := by
        rintro (h | h | h)
        · exact h h1
        · exact h h2.symm
        · exact h h3.symm
      rw [if_neg hnot, h8]
      obtain ⟨o', ho, hle, hiff⟩ := ih (i := i + 1) (o := o + 8)
        (by intro j hj; rw [Nat.succ_add_eq_add_succ]; exact hl _ (Nat.succ_lt_succ hj))
        (by intro j hj; rw [Nat.succ_add_eq_add_succ]; exact hs _ (Nat.succ_lt_succ hj))
      refine ⟨o', ho, by omega, ?_⟩
      have hmul : o + 8 * (k + 1) = o + 8 + 8 * k := by omega
      have hsh : ∀ m, o + 8 + 8 * m = o + 8 * (m + 1) := by
        intro m
        omega
      rw [hmul, hiff]
      simp only [h1, h2, h3, Nat.mul_zero, Nat.add_zero, and_self, true_and,
        Nat.succ_add_eq_add_succ, Nat.succ_eq_add_one, hsh]
    · have hcond : (t.key (ls i)).op ≠ Operators.Extract.code ∨ o ≠ (t.key (ls i)).op2 ∨
          p ≠ (t.key (ls i)).l1 := by
        by_contra hc
        simp only [not_or, ne_eq, not_not] at hc
        exact hm ⟨hc.1, hc.2.1.symm, hc.2.2.symm⟩
      rw [if_pos hcond]
      refine ⟨o, rfl, by omega, ?_⟩
      constructor
      · intro h
        omega
      · rintro ⟨h, _⟩
        exact (hm h).elim

theorem extractParent_spec (hn : n ≠ 0) (hl : ∀ i < n, ls i ≤ t.lastLabel)
    (hs : ∀ i < n, (t.key (ls i)).size = 8) (hp : (t.key (ls 0)).l1 ≤ t.lastLabel) :
    extractParent t ls n (t.info (ls 0)) =
      .ok (if Extracted t ls n then some (t.key (ls 0)).l1 else none) := by
  unfold extractParent
  change (if (t.key (ls 0)).op = _ then _ else _) = _
  by_cases h0 : (t.key (ls 0)).op = Operators.Extract.code
  · obtain ⟨o, ho, hle, hiff⟩ := extractLoop_spec (i := 0) (o := 0) (p := (t.key (ls 0)).l1)
      (fun j hj => (Nat.zero_add j).symm ▸ hl j hj) (fun j hj => (Nat.zero_add j).symm ▸ hs j hj)
    simp only [Nat.zero_add] at hiff
    rw [if_pos h0]
    change (do let offset ← extractLoop t ls (t.key (ls 0)).l1 0 0 n; _) = _
    rw [ho]
    change (do let parent ← t.getLabelInfo (t.key (ls 0)).l1; _) = _
    rw [getLabelInfo_ok hp]
    change Except.ok (if (t.key (t.key (ls 0)).l1).size = o ∧ o = n * 8 then _ else _) = _
    congr 2
    rw [Nat.mul_comm n 8]
    refine propext ⟨?_, ?_⟩
    · rintro ⟨hsize, h⟩
      exact ⟨hiff.1 h, hsize.trans h⟩
    · rintro ⟨h, hsize⟩
      exact ⟨hsize.trans (hiff.2 h).symm, hiff.2 h⟩
  · rw [if_neg h0, if_neg fun h => h0 (h.1 0 (Nat.pos_of_ne_zero hn)).1]

theorem taintUnionLoad_of_parent {E : Prop} [Decidable E] (app : Nat → UInt8)
    (hb : t.lastLabel < kInitializingLabel) (hn : n ≠ 0) (hl : ∀ i < n, ls i ≤ t.lastLabel)
    (hparent : extractParent t ls n (t.info (ls 0)) = .ok (if E then some p else none)) :
    taintUnionLoad t app ls n =
      if ∀ i < n, ls i = constLabel then .ok (constLabel, t)
      else if Consecutive t ls n then loadConsecutive t ls n
      else if E then .ok (p, t)
      else concatLoop app ls n (concatFuel n) t (ls 0) ((t.key (ls 0)).size / 8) := by
  have hpos : 0 < n := Nat.pos_of_ne_zero hn
  have h0 : ls 0 ≤ t.lastLabel := hl 0 hpos
  have hconst : (ls 0 = constLabel ∧ ∀ i < n, ls i = constLabel) ↔ ∀ i < n, ls i = constLabel :=
    ⟨fun h => h.2, fun h => ⟨h 0 hpos, h⟩⟩
  rw [taintUnionLoad, if_neg (by omega)]
  simp only [hconst]
  by_cases hall : ∀ i < n, ls i = constLabel
  · rw [if_pos hall, if_pos hall]
  rw [if_neg hall, if_neg hall, getLabelInfo_ok h0, except_ok_bind, loadShape_spec hb hn hl,
    except_ok_bind]
  by_cases hc : Consecutive t ls n
  · simp only [if_pos hc]
  · simp only [if_neg hc, hparent, except_ok_bind]
    by_cases he : E
    · simp only [if_pos he]
    · simp only [if_neg he]
      rfl

/-- Which of its four paths a load takes when every label stands for one byte. -/
theorem taintUnionLoad_eq (hb : t.lastLabel < kInitializingLabel) (hn : n ≠ 0)
    (hl : ∀ i < n, ls i ≤ t.lastLabel) (hs : ∀ i < n, (t.key (ls i)).size = 8)
    (hp : (t.key (ls 0)).l1 ≤ t.lastLabel) (htaint : ∃ i < n, ls i ≠ constLabel) :
    taintUnionLoad t app ls n =
      if Consecutive t ls n then loadConsecutive t ls n
      else if Extracted t ls n then .ok ((t.key (ls 0)).l1, t)
      else concatLoop app ls n (concatFuel n) t (ls 0) 1 := by
  have hconst : ¬∀ i < n, ls i = constLabel := by
    intro h
    obtain ⟨i, hi, hne⟩ := htaint
    exact hne (h i hi)
  rw [taintUnionLoad_of_parent app hb hn hl (extractParent_spec hn hl hs hp), if_neg hconst,
    hs 0 (Nat.pos_of_ne_zero hn), Nat.div_self (Nat.succ_pos 7)]

end

end Kirenenko
