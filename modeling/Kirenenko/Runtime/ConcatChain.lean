import Kirenenko.Runtime.DenotesNode
import Kirenenko.Runtime.LoadPaths

namespace Kirenenko
set_option autoImplicit true

/-- The record that the slow path of a load asks for at index `i`. -/
def concatKey (app : Nat → UInt8) (ls : Nat → Nat) (label i : Nat) : LabelKey :=
  { l1 := label, l2 := ls i, op := Operators.Concat.code, size := (i + 1) * 8 % 2 ^ 16,
    op2 := if ls i = constLabel then charToU64 (app i) else 0 }

/-- Byte `i` of a load: concrete, or the meaning `f i` of its label. -/
def loadedByte (app : Nat → UInt8) (ls : Nat → Nat) (f : Nat → Env → Nat) (i : Nat) (env : Env) :
    Nat :=
  if ls i = constLabel then (app i).toNat else f i env

def loadedValue (app : Nat → UInt8) (ls : Nat → Nat) (f : Nat → Env → Nat) (n : Nat) (env : Env) :
    Nat :=
  littleEndian 8 (fun i => loadedByte app ls f i env) n

/-- Every label is constant or stands for one byte. -/
structure ByteLabels (z : Z3) (mem : Memory) (t : LabelTable) (ls : Nat → Nat) (n : Nat)
    (f : Nat → Env → Nat) : Prop where
  label : ∀ i < n, ls i ≤ t.lastLabel
  size : ∀ i < n, (t.key (ls i)).size = 8
  denotes : ∀ i < n, ls i ≠ constLabel → Denotes z mem t (ls i) 8 (f i)

/-- Every label is allocated and its recorded size is that of a byte. -/
structure SizedLabels (t : LabelTable) (ls : Nat → Nat) (n : Nat) : Prop where
  label : ∀ i < n, ls i ≤ t.lastLabel
  size : ∀ i < n, (t.key (ls i)).size = 8

/-- When concatenating byte by byte gives the loaded value: leading concrete bytes are taken for
zero, and a width of a multiple of 256 bits is rejected where it is stored in eight bits. -/
def ConcatExact (app : Nat → UInt8) (ls : Nat → Nat) (n : Nat) : Prop :=
  (∀ j < n, (∀ m ≤ j, ls m = constLabel) → app j = 0) ∧
  (n ≤ 31 ∨ n ≤ 63 ∧ ls 31 ≠ constLabel ∧ ∀ j < 31, ls j = constLabel)

section
variable {z : Z3} {mem : Memory} {t t' : LabelTable} {app : Nat → UInt8} {ls : Nat → Nat}
  {f : Nat → Env → Nat}

theorem concatLoop_step (hi : i < n) (hl : ls i ≤ t.lastLabel) (h8 : (t.key (ls i)).size = 8) :
    concatLoop app ls n (fuel + 1) t label i =
      taintUnion t (concatKey app ls label i) >>= fun p =>
        concatLoop app ls n fuel p.2 p.1 (i + 1) := by
  have hs : (t.info (ls i)).size = 8 := h8
  have hle : 8 ≤ (n - i) * 8 := by omega
  rw [concatLoop, if_pos hi, getLabelInfo_ok hl, except_ok_bind, concatKey]
  by_cases hc : ls i = constLabel
  · simp only [hc, ne_eq, not_true_eq_false, if_false, if_true]
    rfl
  · simp only [hc, ne_eq, not_false_eq_true, if_true, if_false, hs, if_pos hle,
      Nat.div_self (Nat.succ_pos 7)]

theorem concatLoop_done (hi : ¬i < n) :
    concatLoop app ls n (fuel + 1) t label i = .ok (label, t) := by
  rw [concatLoop, if_neg hi]

theorem concatKey_swap : swapOperands (concatKey app ls label i) = concatKey app ls label i :=
  if_neg fun h => absurd h.2 (by decide : ¬isCommutative Operators.Concat.code)

theorem SizedLabels.extends (h : SizedLabels t ls n) (hg : Extends t t') :
    SizedLabels t' ls n where
  label i hi := Nat.le_trans (h.label i hi) hg.lastLabel
  size i hi := by rw [hg.key _ (h.label i hi)]; exact h.size i hi

theorem ByteLabels.sized (h : ByteLabels z mem t ls n f) : SizedLabels t ls n := ⟨h.label, h.size⟩

theorem TableInv.concat_returns (h : TableInv t S) (size op2 : Nat) (h1 : L ≤ t.lastLabel)
    (h2 : x ≤ t.lastLabel) :
    let k : LabelKey := ⟨L, x, Operators.Concat.code, size, 0, op2⟩
    Kirenenko.taintUnion t k = .error .die ∧ t.lastLabel = maxLabel ∨
      ∃ l t', Kirenenko.taintUnion t k = .ok (l, t') ∧ UnionReturns t k l t' ∧
        (l = 0 ∧ L = constLabel ∧ x = constLabel ∨
          constOffset ≤ l ∧ t'.key l = zeroConcrete k) := by
  intro k
  have ha : Allocated t k := ⟨h1, fun _ => h2⟩
  have hload : Operators.Concat.code ≠ Operators.Load.code := by decide
  have hswap : swapOperands k = k :=
    if_neg fun h => absurd h.2 (by decide : ¬isCommutative Operators.Concat.code)
  rcases h.union_cases ha (ha.not_init h.ordered hload) with hdie | ⟨l, t', hu, hret⟩
  · exact .inl hdie
  · refine .inr ⟨l, t', hu, hret, ?_⟩
    rcases hret.key with ⟨hl, hc⟩ | ⟨hl, hk⟩
    · rw [hswap] at hc
      exact .inl ⟨hl, hc.1, Nat.lt_one_iff.1 hc.2.1⟩
    · rw [canonical, hswap] at hk
      exact .inr ⟨hl, hk⟩

theorem TableInv.concat_union (h : TableInv t S) (size op2 : Nat) (h1 : L ≤ t.lastLabel)
    (h2 : x ≤ t.lastLabel) (hne : ¬(L = constLabel ∧ x = constLabel))
    (hx : x ≠ constLabel → op2 = 0) :
    let k : LabelKey := ⟨L, x, Operators.Concat.code, size, 0, op2⟩
    Kirenenko.taintUnion t k = .error .die ∧ t.lastLabel = maxLabel ∨
      ∃ l t', Kirenenko.taintUnion t k = .ok (l, t') ∧ TableGrows t t' 1 ∧
        constOffset ≤ l ∧ l ≤ t'.lastLabel ∧ t'.key l = k := by
  intro k
  have hzero : zeroConcrete k = k := by
    unfold zeroConcrete
    by_cases hc : x ≥ constOffset
    · simp only [k, hx (Nat.ne_of_gt hc), ite_self]
    · simp only [k, if_neg hc, ite_self]
  rcases h.concat_returns size op2 h1 h2 with hdie | ⟨l, t', hu, hret, hkey⟩
  · exact .inl hdie
  · rcases hkey with ⟨_, hc⟩ | ⟨hl, hk⟩
    · exact (hne hc).elim
    · exact .inr ⟨l, t', hu, hret.tableGrows, hl, hret.label, hk.trans hzero⟩

theorem SizedLabels.concat_union (h : SizedLabels t ls n) (app : Nat → UInt8) (hinv : TableInv t S)
    (hi : i < n) (hL : L ≤ t.lastLabel) (hne : ¬(L = constLabel ∧ ls i = constLabel)) :
    taintUnion t (concatKey app ls L i) = .error .die ∧ t.lastLabel = maxLabel ∨
      ∃ l t', taintUnion t (concatKey app ls L i) = .ok (l, t') ∧ TableGrows t t' 1 ∧
        constOffset ≤ l ∧ l ≤ t'.lastLabel ∧ t'.key l = concatKey app ls L i :=
  hinv.concat_union _ _ hL (h.label i hi) hne fun hc => if_neg hc

/-- What each round of the slow path keeps holds at its end, with `d` bytes to go from index `i`. -/
theorem SizedLabels.concat_run {Q : LabelTable → Nat → Nat → Prop} {app : Nat → UInt8}
    (hstep : ∀ t S L i, TableInv t S → SizedLabels t ls n → i < n → i ≠ 0 → Q t L i →
      taintUnion t (concatKey app ls L i) = .error .die ∧ t.lastLabel = maxLabel ∨
        ∃ l t', taintUnion t (concatKey app ls L i) = .ok (l, t') ∧ TableGrows t t' 1 ∧
          Q t' l (i + 1))
    (h : SizedLabels t ls n) (hinv : TableInv t S) (hi0 : i ≠ 0) (hd : i + d = n)
    (hfuel : d < fuel) (hc : Q t L i) :
    concatLoop app ls n fuel t L i = .error .die ∧ maxLabel < t.lastLabel + d ∨
      ∃ l t', concatLoop app ls n fuel t L i = .ok (l, t') ∧ TableGrows t t' d ∧ Q t' l n := by
  induction d generalizing t S L i fuel with
  | zero =>
    obtain ⟨fuel, rfl⟩ := Nat.exists_eq_succ_of_ne_zero (Nat.ne_of_gt hfuel)
    obtain rfl : i = n := hd
    exact .inr ⟨L, t, concatLoop_done (Nat.lt_irrefl i), hinv.tableGrows, hc⟩
  | succ d ih =>
    obtain ⟨fuel, rfl⟩ := Nat.exists_eq_succ_of_ne_zero (Nat.ne_of_gt (Nat.lt_of_le_of_lt
      (Nat.zero_le _) hfuel))
    have hi : i < n := by omega
    rw [concatLoop_step hi (h.label i hi) (h.size i hi)]
    rcases hstep t S L i hinv h hi hi0 hc with ⟨hu, hfull⟩ | ⟨l, t', hu, hg, hc'⟩
    · rw [hu]
      exact .inl ⟨rfl, by omega⟩
    · obtain ⟨S', hinv'⟩ := hg.inv
      rw [hu, except_ok_bind]
      have hfuel' : d < fuel := by omega
      rcases ih (h.extends hg.grows) hinv' (Nat.succ_ne_zero i) (by omega) hfuel' hc' with
        ⟨hdie, hfull⟩ | ⟨l', t'', hrun, hg', hc''⟩
      · have := hg.bound
        exact .inl ⟨hdie, by omega⟩
      · exact .inr ⟨l', t'', hrun, (hg.trans hg').mono (Nat.le_of_eq (Nat.add_comm 1 d)), hc''⟩

theorem ByteLabels.extends (h : ByteLabels z mem t ls n f) (ho : Ordered t) (ho' : Ordered t')
    (hg : Extends t t') : ByteLabels z mem t' ls n f where
  label i hi := Nat.le_trans (h.label i hi) hg.lastLabel
  size i hi := by rw [hg.key _ (h.label i hi)]; exact h.size i hi
  denotes i hi hc := (hg.denotes ho ho' (h.label i hi)).2 (h.denotes i hi hc)

theorem loadedValue_succ (n : Nat) : loadedValue app ls f (n + 1) =
    fun env => loadedByte app ls f n env * 2 ^ (8 * n) + loadedValue app ls f n env := by
  funext env
  exact littleEndian_succ

theorem charToU64_mod (c : UInt8) : charToU64 c % 2 ^ 8 = c.toNat := by
  have hc := c.toNat_lt
  unfold charToU64
  split <;> omega

theorem ByteLabels.operand (h : ByteLabels z mem t ls n f) (hi : i < n)
    (hv : ls i = constLabel → v = 8) :
    OperandDenotes z mem t (ls i) (concatKey app ls L i).op2 v w g ↔
      w = 8 ∧ g = loadedByte app ls f i := by
  unfold OperandDenotes loadedByte concatKey
  by_cases hc : ls i = constLabel
  · have h0 : ¬constOffset ≤ constLabel := by decide
    simp only [hc, if_neg h0, if_true]
    rw [hv hc, charToU64_mod]
  · have hpos : constOffset ≤ ls i := Nat.pos_of_ne_zero hc
    have hd := h.denotes i hi hc
    simp only [hc, hpos, if_false, if_true]
    constructor
    · intro hw
      exact hw.unique hd
    · rintro ⟨rfl, rfl⟩
      exact hd

theorem concatKey_leftWidth (hL : L ≠ constLabel) (m : Nat) :
    leftWidth (concatKey app ls L i) m = (i + 1) * 8 % 2 ^ 8 := by
  rw [leftWidth, if_neg fun hc => hL hc.2]
  change (i + 1) * 8 % 2 ^ 16 % 2 ^ 8 = _
  omega

theorem concatKey_rightWidth (hc : ls i ≠ constLabel) (k m : Nat) :
    rightWidth (concatKey app ls L i) k m = leftWidth (concatKey app ls L i) m := by
  rw [rightWidth, if_neg fun h => hc h.2]

theorem concatKey_rightWidth_const (hc : ls i = constLabel) (m : Nat) :
    rightWidth (concatKey app ls L i) (8 * i % 2 ^ 16) m = 8 := by
  rw [rightWidth, if_pos ⟨rfl, hc⟩]
  change ((i + 1) * 8 % 2 ^ 16 + 2 ^ 16 - 8 * i % 2 ^ 16) % 2 ^ 8 = 8
  omega

/-- One more byte on top of a label, whose width must not be stored as zero. -/
theorem concatKey_denotes (hz : z.Lawful) (ho : Ordered t) (hL : L ≠ constLabel)
    (hsize : (t.key L).size = 8 * i % 2 ^ 16) (hl : constOffset ≤ l) (hlast : l ≤ t.lastLabel)
    (hk : t.key l = concatKey app ls L i)
    (hv : rightWidth (concatKey app ls L i) (t.key L).size (t.key (ls i)).size = v) :
    Denotes z mem t l w g ↔ (i + 1) % 32 ≠ 0 ∧ ∃ w1 f1 w2 f2, Denotes z mem t L w1 f1 ∧
      OperandDenotes z mem t (ls i) (concatKey app ls L i).op2 v w2 f2 ∧
      w = w2 + w1 ∧ g = fun env => f2 env * 2 ^ w1 + f1 env := by
  have hpos : constOffset ≤ L := Nat.pos_of_ne_zero hL
  have hs1 : (concatKey app ls L i).size ≠ 1 := by
    change (i + 1) * 8 % 2 ^ 16 ≠ 1
    omega
  have hu : (i + 1) * 8 % 2 ^ 8 ≠ 0 ↔ (i + 1) % 32 ≠ 0 := by omega
  have hv0 : (i + 1) * 8 % 2 ^ 8 ≠ 0 → v ≠ 0 := by
    intro hu
    by_cases hc : ls i = constLabel
    · rw [← hv, hsize, concatKey_rightWidth_const hc]
      decide
    · rw [← hv, concatKey_rightWidth hc, concatKey_leftWidth hL]
      exact hu
  rw [denotes_concat hz ho hl hlast (by rw [hk]; rfl) (by rw [hk]; exact hs1) rfl rfl, hk,
    concatKey_leftWidth hL, ← hu]
  change _ ∧ rightWidth (concatKey app ls L i) (t.key L).size (t.key (ls i)).size ≠ 0 ∧
    (∃ w1 f1 w2 f2, OperandDenotes z mem t L 0 _ w1 f1 ∧
    OperandDenotes z mem t (ls i) (concatKey app ls L i).op2
      (rightWidth (concatKey app ls L i) (t.key L).size (t.key (ls i)).size) w2 f2 ∧ _) ↔ _
  simp only [hv, operandDenotes_label hpos]
  exact and_congr_right fun hu => and_iff_right (hv0 hu)

theorem ByteLabels.concat_next (h : ByteLabels z mem t ls n f) (hz : z.Lawful) (ho : Ordered t)
    (hi : i < n) (hL : L ≠ constLabel) (hsize : (t.key L).size = 8 * i % 2 ^ 16)
    (hl : constOffset ≤ l) (hlast : l ≤ t.lastLabel) (hk : t.key l = concatKey app ls L i) :
    Denotes z mem t l (8 * (i + 1)) (loadedValue app ls f (i + 1)) ↔
      (i + 1) % 32 ≠ 0 ∧ Denotes z mem t L (8 * i) (loadedValue app ls f i) := by
  have hv : ls i = constLabel →
      rightWidth (concatKey app ls L i) (t.key L).size (t.key (ls i)).size = 8 := by
    intro hc
    rw [hsize, concatKey_rightWidth_const hc]
  rw [concatKey_denotes hz ho hL hsize hl hlast hk rfl]
  simp only [h.operand hi hv]
  rw [loadedValue_succ]
  refine and_congr_right fun hmod => ?_
  constructor
  · rintro ⟨w1, f1, w2, f2, h1, ⟨rfl, rfl⟩, hw, hf⟩
    obtain rfl : w1 = 8 * i := by omega
    have hf1 : f1 = loadedValue app ls f i := by
      funext env
      exact (Nat.add_left_cancel (congrFun hf env)).symm
    rw [← hf1]
    exact h1
  · intro h1
    exact ⟨8 * i, _, 8, _, h1, ⟨rfl, rfl⟩, by omega, rfl⟩

/-- The first tainted byte on top of concrete ones, which are recorded as a zero. -/
theorem ByteLabels.concat_first (h : ByteLabels z mem t ls n f) (hz : z.Lawful) (ho : Ordered t)
    (hi : i < n) (hc : ls i ≠ constLabel) (hi0 : i ≠ 0) (hlead : ∀ m < i, ls m = constLabel)
    (hl : constOffset ≤ l) (hlast : l ≤ t.lastLabel)
    (hk : t.key l = concatKey app ls constLabel i) :
    Denotes z mem t l (8 * (i + 1)) (loadedValue app ls f (i + 1)) ↔
      i < 32 ∧ ∀ j < i, app j = 0 := by
  have hs1 : (concatKey app ls constLabel i).size ≠ 1 := by
    change (i + 1) * 8 % 2 ^ 16 ≠ 1
    omega
  have hlw : leftWidth (concatKey app ls constLabel i) (t.key (ls i)).size = 8 * i % 2 ^ 8 := by
    rw [h.size i hi, leftWidth, if_pos ⟨rfl, rfl⟩]
    change ((i + 1) * 8 % 2 ^ 16 + 2 ^ 16 - 8) % 2 ^ 8 = _
    omega
  have hzero : (∀ j < i, app j = 0) ↔ ∀ env, loadedValue app ls f i env = 0 := by
    have hb : ∀ env, loadedValue app ls f i env = 0 ↔ ∀ j < i, app j = 0 := by
      intro env
      rw [loadedValue, littleEndian_eq_zero]
      refine forall₂_congr fun j hj => ?_
      rw [loadedByte, if_pos (hlead j hj), ← UInt8.toNat_inj]
      rfl
    exact ⟨fun h env => (hb env).2 h, fun h => (hb fun _ _ => 0).1 (h _)⟩
  rw [denotes_concat hz ho hl hlast (by rw [hk]; rfl) (by rw [hk]; exact hs1) rfl rfl, hk, hzero]
  change leftWidth (concatKey app ls constLabel i) (t.key (ls i)).size ≠ 0 ∧
    rightWidth (concatKey app ls constLabel i) _ (t.key (ls i)).size ≠ 0 ∧
    (∃ w1 f1 w2 f2, (w1 = leftWidth (concatKey app ls constLabel i) (t.key (ls i)).size ∧
      f1 = fun _ => 0 % 2 ^ leftWidth (concatKey app ls constLabel i) (t.key (ls i)).size) ∧
    OperandDenotes z mem t (ls i) _ _ w2 f2 ∧ _) ↔ _
  rw [concatKey_rightWidth hc, hlw]
  simp only [h.operand hi fun h => (hc h).elim, Nat.zero_mod]
  rw [loadedValue_succ]
  constructor
  · rintro ⟨hu, _, w1, f1, w2, f2, ⟨rfl, rfl⟩, ⟨rfl, rfl⟩, hw, hf⟩
    have hmod : 8 * i % 2 ^ 8 = 8 * i := by omega
    refine ⟨by omega, ?_⟩
    intro env
    have he := congrFun hf env
    rw [hmod] at he
    exact Nat.add_left_cancel he
  · rintro ⟨hlt, hval⟩
    have hmod : 8 * i % 2 ^ 8 = 8 * i := by omega
    rw [hmod]
    refine ⟨by omega, by omega, _, _, 8, _, ⟨rfl, rfl⟩, ⟨rfl, rfl⟩, by omega, ?_⟩
    funext env
    rw [hval env]

theorem concatExact_next (htaint : ∃ m < i, ls m ≠ constLabel) :
    ConcatExact app ls (i + 1) ↔ (i + 1) % 32 ≠ 0 ∧ ConcatExact app ls i := by
  obtain ⟨m, hm, hne⟩ := htaint
  unfold ConcatExact
  constructor
  · rintro ⟨hlead, hwidth⟩
    refine ⟨?_, fun j hj => hlead j (Nat.lt_succ_of_lt hj), ?_⟩
    · rcases hwidth with h | ⟨h, _, h31⟩
      · omega
      · intro hmod
        exact hne (h31 m (by omega))
    · rcases hwidth with h | ⟨h, h'⟩
      · exact .inl (by omega)
      · exact .inr ⟨by omega, h'⟩
  · rintro ⟨hmod, hlead, hwidth⟩
    refine ⟨?_, ?_⟩
    · intro j hj hall
      rcases Nat.lt_succ_iff_lt_or_eq.1 hj with hlt | rfl
      · exact hlead j hlt hall
      · exact (hne (hall m (Nat.le_of_lt hm))).elim
    · rcases hwidth with h | ⟨h, h'⟩
      · exact .inl (by omega)
      · exact .inr ⟨by omega, h'⟩

theorem concatExact_first (hlead : ∀ m < i, ls m = constLabel) (hc : ls i ≠ constLabel) :
    ConcatExact app ls (i + 1) ↔ i < 32 ∧ ∀ j < i, app j = 0 := by
  unfold ConcatExact
  constructor
  · rintro ⟨hzero, hwidth⟩
    refine ⟨?_, fun j hj => hzero j (Nat.lt_succ_of_lt hj) fun m hm => hlead m (by omega)⟩
    rcases hwidth with h | ⟨_, h31, _⟩
    · omega
    · by_contra hge
      exact h31 (hlead 31 (by omega))
  · rintro ⟨hlt, hzero⟩
    refine ⟨?_, ?_⟩
    · intro j hj hall
      rcases Nat.lt_succ_iff_lt_or_eq.1 hj with hlt | rfl
      · exact hzero j hlt
      · exact (hc (hall j (Nat.le_refl j))).elim
    · by_cases h31 : i = 31
      · subst h31
        exact .inr ⟨by omega, hc, hlead⟩
      · exact .inl (by omega)

/-- What the slow path has built from the first `i` bytes. -/
inductive ChainAt (z : Z3) (mem : Memory) (t : LabelTable) (app : Nat → UInt8) (ls : Nat → Nat)
    (f : Nat → Env → Nat) : Nat → Nat → Prop where
  | const : (∀ m < i, ls m = constLabel) → ChainAt z mem t app ls f constLabel i
  | label : L ≠ constLabel → L ≤ t.lastLabel → (t.key L).size = 8 * i % 2 ^ 16 →
      (∃ m < i, ls m ≠ constLabel) →
      (Denotes z mem t L (8 * i) (loadedValue app ls f i) ↔ ConcatExact app ls i) →
      ChainAt z mem t app ls f L i

theorem ChainAt.le (h : ChainAt z mem t app ls f L i) : L ≤ t.lastLabel := by
  cases h with
  | const => exact Nat.zero_le _
  | label _ hl => exact hl

theorem ByteLabels.chain_label (h : ByteLabels z mem t ls n f) (hz : z.Lawful) (ho : Ordered t)
    (hi : i < n) (hi0 : i ≠ 0) (hc : ChainAt z mem t app ls f L i)
    (hne : ¬(L = constLabel ∧ ls i = constLabel)) (hl : constOffset ≤ l) (hlast : l ≤ t.lastLabel)
    (hk : t.key l = concatKey app ls L i) : ChainAt z mem t app ls f l (i + 1) := by
  have hl0 : l ≠ constLabel := Nat.ne_of_gt hl
  have hsize : (t.key l).size = 8 * (i + 1) % 2 ^ 16 := by
    rw [hk, Nat.mul_comm 8]
    rfl
  cases hc with
  | const hlead =>
    have hci : ls i ≠ constLabel := fun h => hne ⟨rfl, h⟩
    refine .label hl0 hlast hsize ⟨i, Nat.lt_succ_self i, hci⟩ ?_
    rw [h.concat_first hz ho hi hci hi0 hlead hl hlast hk, concatExact_first hlead hci]
  | label hL hLlast hLsize htaint hden =>
    obtain ⟨m, hm, hme⟩ := htaint
    refine .label hl0 hlast hsize ⟨m, Nat.lt_succ_of_lt hm, hme⟩ ?_
    rw [h.concat_next hz ho hi hL hLsize hl hlast hk, hden, concatExact_next ⟨m, hm, hme⟩]

theorem ChainAt.extends (h : ChainAt z mem t app ls f L i) (ho : Ordered t) (ho' : Ordered t')
    (hg : Extends t t') : ChainAt z mem t' app ls f L i := by
  cases h with
  | const hlead => exact .const hlead
  | label hL hlast hsize htaint hden =>
    refine .label hL (Nat.le_trans hlast hg.lastLabel) ?_ htaint ?_
    · rw [hg.key L hlast]
      exact hsize
    · rw [hg.denotes ho ho' hlast]
      exact hden

theorem ByteLabels.chain_step (h : ByteLabels z mem t ls n f) (hz : z.Lawful)
    (hinv : TableInv t S) (hi : i < n) (hi0 : i ≠ 0) (hc : ChainAt z mem t app ls f L i) :
    taintUnion t (concatKey app ls L i) = .error .die ∧ t.lastLabel = maxLabel ∨
      ∃ l t', taintUnion t (concatKey app ls L i) = .ok (l, t') ∧ TableGrows t t' 1 ∧
        ChainAt z mem t' app ls f l (i + 1) := by
  by_cases hconst : L = constLabel ∧ ls i = constLabel
  · obtain ⟨rfl, hci⟩ := hconst
    have hu : ConstUnion (swapOperands (concatKey app ls constLabel i)) := by
      rw [concatKey_swap]
      exact ⟨rfl, by change ls i < constOffset; rw [hci]; decide,
        (by decide : Operators.Concat.code ≠ Operators.fsize.code)⟩
    refine .inr ⟨constLabel, t, ?_, hinv.tableGrows.mono (Nat.zero_le 1), ?_⟩
    · rw [taintUnion_eq, if_pos hu]
      rfl
    · cases hc with
      | const hlead =>
        refine .const ?_
        intro m hm
        rcases Nat.lt_succ_iff_lt_or_eq.1 hm with hlt | rfl
        · exact hlead m hlt
        · exact hci
      | label hL => exact (hL rfl).elim
  · rcases h.sized.concat_union app hinv hi hc.le hconst with hdie | ⟨l, t', hu, hg, hl, hlast, hk⟩
    · exact .inl hdie
    · refine .inr ⟨l, t', hu, hg, ?_⟩
      exact (h.extends hinv.ordered hg.ordered hg.grows).chain_label hz hg.ordered hi hi0
        (hc.extends hinv.ordered hg.ordered hg.grows) hconst hl hlast hk

theorem ByteLabels.chain_run (h : ByteLabels z mem t ls n f) (hz : z.Lawful)
    (hinv : TableInv t S) (hi0 : i ≠ 0) (hd : i + d = n) (hfuel : d < fuel)
    (hc : ChainAt z mem t app ls f L i) :
    concatLoop app ls n fuel t L i = .error .die ∧ maxLabel < t.lastLabel + d ∨
      ∃ l t', concatLoop app ls n fuel t L i = .ok (l, t') ∧ TableGrows t t' d ∧
        ChainAt z mem t' app ls f l n := by
  have hstep : ∀ t S L i, TableInv t S → SizedLabels t ls n → i < n → i ≠ 0 →
      ByteLabels z mem t ls n f ∧ ChainAt z mem t app ls f L i →
      taintUnion t (concatKey app ls L i) = .error .die ∧ t.lastLabel = maxLabel ∨
        ∃ l t', taintUnion t (concatKey app ls L i) = .ok (l, t') ∧ TableGrows t t' 1 ∧
          ByteLabels z mem t' ls n f ∧ ChainAt z mem t' app ls f l (i + 1) := by
    rintro t S L i hinv _ hi hi0 ⟨h, hc⟩
    rcases h.chain_step hz hinv hi hi0 hc with hdie | ⟨l, t', hu, hg, hc'⟩
    · exact .inl hdie
    · exact .inr ⟨l, t', hu, hg, h.extends hinv.ordered hg.ordered hg.grows, hc'⟩
  rcases h.sized.concat_run hstep hinv hi0 hd hfuel ⟨h, hc⟩ with hdie | ⟨l, t', hu, hg, _, hc'⟩
  · exact .inl hdie
  · exact .inr ⟨l, t', hu, hg, hc'⟩

end

end Kirenenko
