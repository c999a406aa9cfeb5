import Kirenenko.Runtime.NodeTerm

namespace Kirenenko
set_option autoImplicit true

/-- A construction of a term whose sort depends on the sorts of its arguments only. -/
def SortDetermined (F : Term → Term → Term) : Prop :=
  ∀ a a' b b', a.sort = a'.sort → b.sort = b'.sort → (F a b).sort = (F a' b').sort

/-- A relation between the terms that are built with one simplifier and memory and those that are
built with another. -/
structure TermCongruence (z z' : Z3) (mem mem' : Memory) (T : Term → Term → Prop) : Prop where
  sort : ∀ a a', T a a' → a.sort = a'.sort
  refl : ∀ e σ, e.sort = some σ → T e e
  congr : ∀ F a a' b b' σ, SortDetermined F → T a a' → T b b' → (F a b).sort = some σ →
    T (F a b) (F a' b')
  simplify : ∀ a a', T a a' → T (z.simplify a) (z'.simplify a')
  concrete : ∀ addr, T (.bvVal (mem addr).toNat 8) (.bvVal (mem' addr).toNat 8)

theorem TermCongruence.eq (z : Z3) (mem : Memory) :
    TermCongruence z z mem mem fun e e' => e = e' where
  sort _ _ h := by rw [h]
  refl _ _ _ := rfl
  congr _ _ _ _ _ _ _ ha hb _ := by rw [ha, hb]
  simplify _ _ h := by rw [h]
  concrete _ := rfl

/-- Terms of the same sort. -/
def SameSort (e e' : Term) : Prop := ∃ σ, e.sort = some σ ∧ e'.sort = some σ

/-- Whether a term can be built is decided by sorts, so not by the simplifier or by memory. -/
theorem TermCongruence.sameSort (hz : z.Lawful) (hz' : z'.Lawful) (mem mem' : Memory) :
    TermCongruence z z' mem mem' SameSort where
  sort _ _ h := by
    obtain ⟨σ, ha, ha'⟩ := h
    rw [ha, ha']
  refl _ σ h := ⟨σ, h, h⟩
  congr F a a' b b' σ hF ha hb h := by
    obtain ⟨_, h1, h1'⟩ := ha
    obtain ⟨_, h2, h2'⟩ := hb
    exact ⟨σ, h, (hF a a' b b' (h1.trans h1'.symm) (h2.trans h2'.symm)).symm.trans h⟩
  simplify _ _ h := by
    obtain ⟨σ, ha, ha'⟩ := h
    exact ⟨σ, hz.simplify_sort _ σ ha, hz'.simplify_sort _ σ ha'⟩
  concrete _ := ⟨.bv 8, rfl, rfl⟩

section
variable {z z' : Z3} {mem mem' : Memory} {T : Term → Term → Prop} {a a' b b' : Term}

theorem TermCongruence.checked {F : Term → Term → Term} (h : TermCongruence z z' mem mem' T)
    (hF : SortDetermined F) (ha : T a a') (hb : T b b') :
    Related T (checked (F a b)) (checked (F a' b')) := by
  have hs := hF a a' b b' (h.sort a a' ha) (h.sort b b' hb)
  unfold Kirenenko.checked
  rw [← hs]
  cases hσ : (F a b).sort with
  | none => exact rfl
  | some σ => exact h.congr F a a' b b' σ hF ha hb hσ

theorem TermCongruence.checked_unary {F : Term → Term} (h : TermCongruence z z' mem mem' T)
    (hF : SortDetermined fun a _ => F a) (ha : T a a') :
    Related T (Kirenenko.checked (F a)) (Kirenenko.checked (F a')) :=
  h.checked hF ha ha

theorem TermCongruence.sorted {x : Except Z3Exception Term} (h : TermCongruence z z' mem mem' T)
    (hx : YieldsSorted x) : Related T x x := by
  cases x with
  | ok e =>
    obtain ⟨σ, hσ⟩ := hx e rfl
    exact h.refl e σ hσ
  | error _ => exact rfl

theorem sortDetermined_bin (op : BvOp) : SortDetermined (.bin op) := by
  intro a a' b b' ha hb
  simp only [Term.sort, ha, hb]

theorem sortDetermined_logic (op : BoolOp) : SortDetermined (.logic op) := by
  intro a a' b b' ha hb
  simp only [Term.sort, ha, hb]

theorem sortDetermined_rel (r : BvRel) : SortDetermined (.rel r) := by
  intro a a' b b' ha hb
  simp only [Term.sort, ha, hb]

theorem sortDetermined_eq : SortDetermined .eq := by
  intro a a' b b' ha hb
  simp only [Term.sort, ha, hb]

theorem sortDetermined_distinct : SortDetermined .distinct := by
  intro a a' b b' ha hb
  simp only [Term.sort, ha, hb]

theorem sortDetermined_concat : SortDetermined .concat := by
  intro a a' b b' ha hb
  simp only [Term.sort, ha, hb]

theorem TermCongruence.concreteTerm (h : TermCongruence z z' mem mem' T) (addr k : Nat) :
    Related T (concreteTerm mem addr k) (concreteTerm mem' addr k) := by
  induction k with
  | zero => exact h.concrete addr
  | succ k ih =>
    refine ih.bind ?_
    intro v v' hv
    exact h.checked sortDetermined_concat (h.concrete _) hv

theorem TermCongruence.readConcrete (h : TermCongruence z z' mem mem' T) (addr size : Nat) :
    Related T (readConcrete mem addr size) (readConcrete mem' addr size) := by
  unfold Kirenenko.readConcrete
  by_cases h0 : addr = 0
  · rw [if_pos h0, if_pos h0]
    exact rfl
  · rw [if_neg h0, if_neg h0]
    exact h.concreteTerm addr _

theorem TermCongruence.concreteOperand (h : TermCongruence z z' mem mem' T)
    (hv : Kirenenko.checked v = .ok val) :
    T (concreteOperand k val op) (concreteOperand k val op) := by
  obtain ⟨rfl, σ, hσ⟩ := checked_eq_ok.1 hv
  unfold Kirenenko.concreteOperand
  by_cases hk : k.size = 1
  · rw [if_pos hk]
    exact h.refl _ _ rfl
  · rw [if_neg hk]
    exact h.refl _ σ hσ

theorem TermCongruence.boolToBv (h : TermCongruence z z' mem mem' T) (ha : T a a') :
    Related T (boolToBv a) (boolToBv a') := by
  unfold Kirenenko.boolToBv
  rw [← h.sort a a' ha]
  by_cases hb : a.sort = some .bool
  · rw [if_pos hb, if_pos hb]
    apply h.checked_unary (F := fun a => .ite a (.bvVal 1 1) (.bvVal 0 1)) ?_ ha
    intro a a' _ _ ha _
    simp only [Term.sort, ha]
  · rw [if_neg hb, if_neg hb]
    exact ha

theorem TermCongruence.bvSize (h : TermCongruence z z' mem mem' T) (ha : T a a') :
    bvSize a = bvSize a' := by
  unfold Kirenenko.bvSize
  rw [h.sort a a' ha]

theorem TermCongruence.extendTerm {f : Nat → Term → Term} (h : TermCongruence z z' mem mem' T)
    (hf : ∀ k, SortDetermined fun a _ => f k a) (size w : Nat) (ha : T a a') :
    Related T (extendTerm f size w a) (extendTerm f size w a') := by
  unfold Kirenenko.extendTerm
  by_cases hw : w ≤ size
  · rw [if_pos hw, if_pos hw]
    exact h.checked_unary (hf _) ha
  · rw [if_neg hw, if_neg hw]
    exact rfl

theorem sortDetermined_zext (k : Nat) : SortDetermined fun a _ => .zext k a := by
  intro a a' _ _ ha _
  simp only [Term.sort, ha]

theorem sortDetermined_sext (k : Nat) : SortDetermined fun a _ => .sext k a := by
  intro a a' _ _ ha _
  simp only [Term.sort, ha]

theorem TermCongruence.extractTerm (h : TermCongruence z z' mem mem' T) (lo size : Nat)
    (ha : T a a') : Related T (extractTerm lo size a) (extractTerm lo size a') := by
  unfold Kirenenko.extractTerm
  by_cases h0 : size = 0
  · rw [if_pos h0, if_pos h0]
    exact rfl
  · rw [if_neg h0, if_neg h0]
    apply h.checked_unary ?_ ha
    intro a a' _ _ ha _
    simp only [Term.sort, ha]

theorem TermCongruence.lnotTerm (h : TermCongruence z z' mem mem' T) (ha : T a a') :
    Related T (lnotTerm a) (lnotTerm a') := by
  unfold Kirenenko.lnotTerm
  rw [← h.sort a a' ha]
  by_cases hb : a.sort = some .bool
  · rw [if_pos hb, if_pos hb]
    apply h.checked_unary ?_ ha
    intro a a' _ _ ha _
    simp only [Term.sort, ha]
  · rw [if_neg hb, if_neg hb]
    exact rfl

theorem TermCongruence.negTerm (h : TermCongruence z z' mem mem' T) (ha : T a a') :
    Related T (Kirenenko.checked (.neg a)) (Kirenenko.checked (.neg a')) := by
  apply h.checked_unary ?_ ha
  intro a a' _ _ ha _
  simp only [Term.sort, ha]

theorem TermCongruence.memcmpTerm (h : TermCongruence z z' mem mem' T) (ha : T a a')
    (hb : T b b') : Related T (memcmpTerm a b) (memcmpTerm a' b') := by
  apply h.checked (F := fun a b => .ite (.eq a b) (.bvVal 0 32) (.bvVal 1 32)) ?_ ha hb
  intro a a' b b' ha hb
  simp only [Term.sort, ha, hb]

theorem TermCongruence.getCmd (h : TermCongruence z z' mem mem' T) (p : Nat) (ha : T a a')
    (hb : T b b') : Related T (getCmd a b p) (getCmd a' b' p) := by
  unfold Kirenenko.getCmd
  cases Predicate.ofCode p with
  | none => exact rfl
  | some p =>
    cases p with
    | bveq => exact h.checked sortDetermined_eq ha hb
    | bvneq => exact h.checked sortDetermined_distinct ha hb
    | bvugt | bvuge | bvult | bvule | bvsgt | bvsge | bvslt | bvsle =>
      exact h.checked (sortDetermined_rel _) ha hb

theorem TermCongruence.commonTerm (h : TermCongruence z z' mem mem' T) (op size : Nat)
    (ha : T a a') (hb : T b b') :
    Related T (commonTerm op size a b) (commonTerm op size a' b') := by
  unfold Kirenenko.commonTerm
  cases Operators.ofCode (op % 2 ^ 8) with
  | none => exact rfl
  | some o =>
    cases o with
    | And | Or =>
      by_cases hs : size ≠ 1
      · simp only [if_pos hs]
        exact h.checked (sortDetermined_bin _) ha hb
      · simp only [if_neg hs]
        exact h.checked (sortDetermined_logic _) ha hb
    | Xor =>
      simp only [← h.sort a a' ha]
      by_cases hs : a.sort = some .bool
      · simp only [if_pos hs]
        exact h.checked (sortDetermined_logic _) ha hb
      · simp only [if_neg hs]
        exact h.checked (sortDetermined_bin _) ha hb
    | Shl | LShr | AShr | Add | Sub | Mul | UDiv | SDiv | URem | SRem =>
      exact h.checked (sortDetermined_bin _) ha hb
    | ICmp => exact h.getCmd _ ha hb
    | Concat => exact h.checked sortDetermined_concat hb ha
    | _ => exact rfl

end

end Kirenenko
