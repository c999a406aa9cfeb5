import Kirenenko.Runtime.Denotes

namespace Kirenenko
set_option autoImplicit true

/-- The offsets whose byte has a name; the solver rejects integer symbols of 30 bits and more. -/
def Nameable (o : Nat) : Prop := o % 2 ^ 32 < 2 ^ 30

def inputByte (o : Nat) (env : Env) : Nat := env (.int (o % 2 ^ 32)) 8 % 2 ^ 8

theorem inputByte_lt (o : Nat) (env : Env) : inputByte o env < 2 ^ 8 :=
  Nat.mod_lt _ (Nat.two_pow_pos 8)

/-- The little-endian value of `n` bytes of the input from offset `o` on. -/
def inputBytes (o n : Nat) (env : Env) : Nat := littleEndian 8 (fun i => inputByte (o + i) env) n

theorem byteTerm_ok : byteTerm o = .ok e ↔ Nameable o ∧ e = .const (.int (o % 2 ^ 32)) 8 := by
  unfold byteTerm intSymbol Nameable
  by_cases h : o % 2 ^ 32 < 2 ^ 30
  · rw [if_pos h]
    constructor
    · intro he
      change checked (.const (.int (o % 2 ^ 32)) 8) = .ok e at he
      exact ⟨h, (checked_eq_ok.1 he).1⟩
    · rintro ⟨_, rfl⟩
      rfl
  · rw [if_neg h]
    constructor
    · intro he
      cases he
    · intro he
      exact (h he.1).elim

theorem byteTerm_isBv (h : byteTerm o = .ok e) : Nameable o ∧ e.IsBv 8 (inputByte o) := by
  obtain ⟨hn, rfl⟩ := byteTerm_ok.1 h
  exact ⟨hn, rfl, fun _ => rfl⟩

theorem Term.IsBv.concat {a b : Term} (ha : a.IsBv v g) (hb : b.IsBv w f) :
    (Term.concat a b).IsBv (v + w) fun env => g env * 2 ^ w + f env where
  sort := by simp only [Term.sort, ha.sort, hb.sort]
  eval env := by rw [Term.eval, ha.eval, hb.eval, Term.width_eq hb.sort]

theorem checked_of_isBv {e : Term} (h : e.IsBv w f) : checked e = .ok e :=
  checked_eq_ok.2 ⟨rfl, _, h.sort⟩

theorem inputBytes_succ (o n : Nat) :
    inputBytes o (n + 1) =
      fun env => inputByte (o + n) env * 2 ^ (8 * n) + inputBytes o n env := by
  funext env
  exact littleEndian_succ

theorem inputBytes_one (o : Nat) : inputBytes o 1 = inputByte o := by
  funext env
  exact littleEndian_one

theorem loadTerm_isBv (h : loadTerm o k = .ok e) :
    (∀ i < k + 1, Nameable (o + i)) ∧ e.IsBv (8 * (k + 1)) (inputBytes o (k + 1)) := by
  induction k generalizing e with
  | zero =>
    obtain ⟨hn, he⟩ := byteTerm_isBv h
    rw [inputBytes_one]
    refine ⟨?_, he⟩
    intro i hi
    obtain rfl : i = 0 := by omega
    exact hn
  | succ k ih =>
    obtain ⟨out, hout, h⟩ := except_bind_ok.1 h
    obtain ⟨byte, hbyte, h⟩ := except_bind_ok.1 h
    obtain ⟨rfl, _⟩ := checked_eq_ok.1 h
    obtain ⟨hlow, hout⟩ := ih hout
    obtain ⟨hn, hbyte⟩ := byteTerm_isBv hbyte
    refine ⟨?_, ?_⟩
    · intro i hi
      rcases Nat.lt_succ_iff_lt_or_eq.1 hi with hlt | rfl
      · exact hlow i hlt
      · exact hn
    · rw [inputBytes_succ, Nat.mul_succ, Nat.add_comm (8 * (k + 1))]
      exact hbyte.concat hout

theorem loadTerm_exists (h : ∀ i < k + 1, Nameable (o + i)) : ∃ e, loadTerm o k = .ok e := by
  induction k with
  | zero => exact ⟨_, byteTerm_ok.2 ⟨h 0 (Nat.zero_lt_one), rfl⟩⟩
  | succ k ih =>
    obtain ⟨out, hout⟩ := ih fun i hi => h i (Nat.lt_succ_of_lt hi)
    have hbyte := byteTerm_ok.2 ⟨h (k + 1) (Nat.lt_succ_self _), rfl⟩
    have hs := (byteTerm_isBv hbyte).2.concat (loadTerm_isBv hout).2
    exact ⟨_, except_bind_ok.2 ⟨out, hout, except_bind_ok.2 ⟨_, hbyte, checked_of_isBv hs⟩⟩⟩

section
variable {z : Z3} {mem : Memory} {t : LabelTable} {l w : Nat} {f : Env → Nat}

theorem denotes_node (ho : Ordered t) (hl : constOffset ≤ l) (hlast : l ≤ t.lastLabel) :
    Denotes z mem t l w f ↔
      ∃ e, nodeTerm z mem t.key (t.key l) (termOf z mem t) = .ok e ∧ e.IsBv w f := by
  rw [denotes_iff ho hlast, termOf_eq ho hl hlast]

theorem denotes_raw (ho : Ordered t) (hl : constOffset ≤ l) (hlast : l ≤ t.lastLabel)
    (hop : (t.key l).op = 0) :
    Denotes z mem t l w f ↔ Nameable (t.key l).op1 ∧ w = 8 ∧ f = inputByte (t.key l).op1 := by
  simp only [denotes_node ho hl hlast, nodeTerm_raw hop, ofZ3_eq_ok]
  constructor
  · rintro ⟨e, he, hbv⟩
    obtain ⟨hn, hbv'⟩ := byteTerm_isBv he
    exact ⟨hn, hbv.unique hbv'⟩
  · rintro ⟨hn, rfl, rfl⟩
    have he := byteTerm_ok.2 ⟨hn, rfl⟩
    exact ⟨_, he, (byteTerm_isBv he).2⟩

theorem denotes_load (ho : Ordered t) (hl : constOffset ≤ l) (hlast : l ≤ t.lastLabel)
    (hop : (t.key l).op = Operators.Load.code) (hk : (t.key l).l2 - 1 + 1 = n) :
    Denotes z mem t l w f ↔ (∀ i < n, Nameable ((t.key (t.key l).l1).op1 + i)) ∧ w = 8 * n ∧
      f = inputBytes (t.key (t.key l).l1).op1 n := by
  subst hk
  simp only [denotes_node ho hl hlast, nodeTerm_load hop, ofZ3_eq_ok]
  constructor
  · rintro ⟨e, he, hbv⟩
    obtain ⟨hn, hbv'⟩ := loadTerm_isBv he
    exact ⟨hn, hbv.unique hbv'⟩
  · rintro ⟨hn, rfl, rfl⟩
    obtain ⟨e, he⟩ := loadTerm_exists hn
    exact ⟨e, he, (loadTerm_isBv he).2⟩

theorem extractTerm_isBv {base : Term} (hlo : lo + size ≤ 2 ^ 32) (h0 : size ≠ 0)
    (hbase : base.IsBv w f) (hw : lo + size ≤ w) : ∃ e, extractTerm lo size base = .ok e := by
  rw [extractTerm, if_neg h0, Nat.mod_eq_of_lt (by omega), Nat.mod_eq_of_lt (by omega)]
  refine ⟨_, checked_eq_ok.2 ⟨rfl, .bv (lo + size - 1 - lo + 1), ?_⟩⟩
  simp only [Term.sort, hbase.sort]
  rw [if_pos (by omega)]

theorem extractTerm_denotes (ho : Ordered t) (h1 : x ≤ t.lastLabel) (hle : lo + s ≤ 2 ^ 32) :
    (∃ e, (∃ base, termOf z mem t x = .ok base ∧ extractTerm lo s base = .ok e) ∧ e.IsBv w f) ↔
      s ≠ 0 ∧ w = s ∧ ∃ v g, Denotes z mem t x v g ∧ lo + s ≤ v ∧
        f = fun env => g env / 2 ^ lo % 2 ^ s := by
  simp only [denotes_iff ho h1]
  constructor
  · rintro ⟨e, ⟨base, hbase, he⟩, hbv⟩
    have h0 : s ≠ 0 := by
      rintro rfl
      cases he
    have hval := fun env => extractTerm_value env hle he
    rw [extractTerm, if_neg h0, Nat.mod_eq_of_lt (by omega), Nat.mod_eq_of_lt (by omega)] at he
    obtain ⟨rfl, σ, hσ⟩ := checked_eq_ok.1 he
    obtain ⟨rfl, v, hv, _, hlt⟩ := Term.sort_inversion hσ
    obtain ⟨hw, hf⟩ := hbv.unique ⟨(hval fun _ _ => 0).1, fun env => (hval env).2⟩
    exact ⟨h0, hw, v, _, ⟨base, hbase, .of_sort hv⟩, by omega, hf⟩
  · rintro ⟨h0, rfl, v, g, ⟨base, hbase, hbv⟩, hle', rfl⟩
    obtain ⟨e, he⟩ := extractTerm_isBv hle h0 hbv hle'
    refine ⟨e, ⟨base, hbase, he⟩, ?_⟩
    refine ⟨(extractTerm_value (fun _ _ => 0) hle he).1, ?_⟩
    intro env
    rw [(extractTerm_value env hle he).2, hbv.eval]

theorem denotes_extract (ho : Ordered t) (hl : constOffset ≤ l) (hlast : l ≤ t.lastLabel)
    (hop : (t.key l).op = Operators.Extract.code) (hsize : (t.key l).size = s)
    (hlo : (t.key l).op2 = lo) (hle : lo + s ≤ 2 ^ 32) :
    Denotes z mem t l w f ↔ s ≠ 0 ∧ w = s ∧ ∃ v g, Denotes z mem t (t.key l).l1 v g ∧
      lo + s ≤ v ∧ f = fun env => g env / 2 ^ lo % 2 ^ s := by
  have h1 : (t.key l).l1 ≤ t.lastLabel := by
    have := ho.l1 l hl hlast
    omega
  simp only [denotes_node ho hl hlast, nodeTerm_extract hop, hsize, hlo]
  exact extractTerm_denotes ho h1 hle

theorem denotes_trunc (ho : Ordered t) (hl : constOffset ≤ l) (hlast : l ≤ t.lastLabel)
    (hop : (t.key l).op = Operators.Trunc.code) (hsize : (t.key l).size = s)
    (hle : s ≤ 2 ^ 32) :
    Denotes z mem t l w f ↔ s ≠ 0 ∧ w = s ∧ ∃ v g, Denotes z mem t (t.key l).l1 v g ∧
      s ≤ v ∧ f = fun env => g env % 2 ^ s := by
  have h1 : (t.key l).l1 ≤ t.lastLabel := by
    have := ho.l1 l hl hlast
    omega
  simp only [denotes_node ho hl hlast, nodeTerm_trunc hop, hsize]
  rw [extractTerm_denotes ho h1 (by omega)]
  simp only [Nat.zero_add, Nat.pow_zero, Nat.div_one]

theorem termOf_sorted (h : termOf z mem t l = .ok e) : ∃ σ, e.sort = some σ := by
  rw [termOf] at h
  split at h
  · cases h
  · exact nodeTerm_sorted h

/-- An operand of a common operator: a label, or the constant `op` of width `u`. -/
def OperandDenotes (z : Z3) (mem : Memory) (t : LabelTable) (l op u w : Nat) (f : Env → Nat) :
    Prop :=
  if constOffset ≤ l then Denotes z mem t l w f else w = u ∧ f = fun _ => op % 2 ^ u

theorem operandDenotes_label (h : constOffset ≤ l) :
    OperandDenotes z mem t l op u w f ↔ Denotes z mem t l w f := by
  rw [OperandDenotes, if_pos h]

theorem operandTermOf_isBv (hz : z.Lawful) (ho : Ordered t) (hl : l ≤ t.lastLabel)
    (hsize : k.size ≠ 1) (hu : u ≠ 0) :
    (∃ e, operandTermOf z k l (.bvVal op u) op (termOf z mem t) = .ok e ∧ e.IsBv w f) ↔
      OperandDenotes z mem t l op u w f := by
  unfold operandTermOf OperandDenotes
  by_cases hc : constOffset ≤ l
  · rw [if_pos hc]
    simp only [if_pos hc, except_map_ok, denotes_iff ho hl]
    constructor
    · rintro ⟨_, ⟨e, ht, rfl⟩, hbv⟩
      obtain ⟨σ, hσ⟩ := termOf_sorted ht
      have hs := (hz.simplify_sort e σ hσ).symm.trans hbv.sort
      cases hs
      exact ⟨e, ht, hσ, fun env => (hz.simplify_eval e _ env hσ).symm.trans (hbv.eval env)⟩
    · rintro ⟨e, ht, hbv⟩
      refine ⟨_, ⟨e, ht, rfl⟩, hz.simplify_sort e _ hbv.sort, ?_⟩
      intro env
      exact (hz.simplify_eval e _ env hbv.sort).trans (hbv.eval env)
  · rw [if_neg hc]
    simp only [if_neg hc, concreteOperand, if_neg hsize]
    have hval : (Term.bvVal op u).IsBv u fun _ => op % 2 ^ u :=
      ⟨Term.sort_bvVal_of_ne op hu, fun _ => rfl⟩
    constructor
    · rintro ⟨e, he, hbv⟩
      cases he
      exact hbv.unique hval
    · rintro ⟨rfl, rfl⟩
      exact ⟨_, rfl, hval⟩

theorem denotes_concat (hz : z.Lawful) (ho : Ordered t) (hl : constOffset ≤ l)
    (hlast : l ≤ t.lastLabel) (hop : (t.key l).op = Operators.Concat.code)
    (hsize : (t.key l).size ≠ 1)
    (hlw : leftWidth (t.key l) (t.key (t.key l).l2).size = u)
    (hrw : rightWidth (t.key l) (t.key (t.key l).l1).size (t.key (t.key l).l2).size = v) :
    Denotes z mem t l w f ↔ u ≠ 0 ∧ v ≠ 0 ∧ ∃ w1 f1 w2 f2,
      OperandDenotes z mem t (t.key l).l1 (t.key l).op1 u w1 f1 ∧
      OperandDenotes z mem t (t.key l).l2 (t.key l).op2 v w2 f2 ∧
      w = w2 + w1 ∧ f = fun env => f2 env * 2 ^ w1 + f1 env := by
  have hs : isSpecialOp (t.key l).op = false := by
    rw [hop]
    decide
  have h1 : (t.key l).l1 ≤ t.lastLabel := by
    have := ho.l1 l hl hlast
    omega
  have h2 : (t.key l).l2 ≤ t.lastLabel := by
    have := ho.l2 l hl hlast (by rw [hop]; decide)
    omega
  simp only [denotes_node ho hl hlast, nodeTerm_common hs, hlw, hrw]
  have hcat : ∀ a b, commonTerm (t.key l).op (t.key l).size a b = checked (.concat b a) := by
    intro a b
    rw [hop]
    rfl
  simp only [hcat]
  constructor
  · rintro ⟨e, ⟨hu, hv, e1, e2, he1, he2, he⟩, hbv⟩
    obtain ⟨rfl, _, _⟩ := checked_eq_ok.1 he
    obtain ⟨w2, w1, _, hs2, hs1⟩ := Term.sort_inversion hbv.sort
    have hb1 := Term.IsBv.of_sort hs1
    have hb2 := Term.IsBv.of_sort hs2
    exact ⟨hu, hv, w1, _, w2, _, (operandTermOf_isBv hz ho h1 hsize hu).1 ⟨e1, he1, hb1⟩,
      (operandTermOf_isBv hz ho h2 hsize hv).1 ⟨e2, he2, hb2⟩, hbv.unique (hb2.concat hb1)⟩
  · rintro ⟨hu, hv, w1, f1, w2, f2, ho1, ho2, rfl, rfl⟩
    obtain ⟨e1, he1, hb1⟩ := (operandTermOf_isBv hz ho h1 hsize hu).2 ho1
    obtain ⟨e2, he2, hb2⟩ := (operandTermOf_isBv hz ho h2 hsize hv).2 ho2
    exact ⟨_, ⟨hu, hv, e1, e2, he1, he2, checked_of_isBv (hb2.concat hb1)⟩, hb2.concat hb1⟩

end

end Kirenenko
