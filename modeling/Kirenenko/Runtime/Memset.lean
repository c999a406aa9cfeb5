import Kirenenko.Runtime.CopyWrappers
import Kirenenko.Runtime.WholeLabel

namespace Kirenenko
set_option autoImplicit true

/-- The label of the `int` goes to every byte. -/
def dfswMemset (s : Nat) (c : UInt32) (n sLabel cLabel : Nat) (m : TaggedMemory) : Returned :=
  ⟨s, sLabel, dfsanMemset s c.toUInt8 cLabel n m⟩

/-- `__taint_union_load` of the `n` bytes at an address. -/
def TaggedMemory.load (m : TaggedMemory) (t : LabelTable) (addr n : Nat) :
    Except Fault (Nat × LabelTable) :=
  taintUnionLoad t (fun i => m.data (addr + i)) (fun i => m.shadow (addr + i)) n

def lowByteRepeated (f : Env → Nat) (n : Nat) (env : Env) : Nat :=
  littleEndian 8 (fun _ => f env % 2 ^ 8) n

/-- The value of `n` bytes that hold a 32-bit value over and over. -/
def intRepeated (f : Env → Nat) (n : Nat) (env : Env) : Nat :=
  littleEndian 8 (fun j => f env / 2 ^ (8 * (j % 4)) % 2 ^ 8) n

def BytesAgree (f : Env → Nat) : Prop := ∀ env, ∀ j < 4, f env / 2 ^ (8 * j) % 2 ^ 8 = f env % 2 ^ 8

/-- A load that reads bytes of the `int` as the fill byte: it has the bytes of the `int` or more,
which are all the same, and fewer than can be concatenated. -/
structure FillRead (z : Z3) (mem : Memory) (t : LabelTable) (l : Nat) (f : Env → Nat) (n : Nat) :
    Prop where
  whole : 4 ≤ n
  short : n ≤ 31
  agree : BytesAgree f
  parent : n = 4 → LoadsWhole t l 4 → HasWidth z mem t (t.key l).l1 32

/-- What the slow path has made of the first `i` bytes. -/
structure RepeatedAt (z : Z3) (mem : Memory) (t : LabelTable) (f : Env → Nat) (L i : Nat) : Prop
    where
  tainted : constOffset ≤ L
  label : L ≤ t.lastLabel
  size : (t.key L).size = 8 * i % 2 ^ 16
  denotes : ∀ w g, Denotes z mem t L w g ↔ i ≤ 31 ∧ w = 8 * i ∧ g = intRepeated f i

section
variable {z : Z3} {mem : Memory} {t t' : LabelTable} {ls : Nat → Nat} {f g : Env → Nat}

theorem intRepeated_add (hi : i % 4 = 0) (hd : d ≤ 4) : intRepeated f (i + d) =
    fun env => f env % 2 ^ (8 * d) * 2 ^ (8 * i) + intRepeated f i env := by
  funext env
  have hdig : ∀ j < d, f env / 2 ^ (8 * ((i + j) % 4)) % 2 ^ 8 = f env / 2 ^ (8 * j) % 2 ^ 8 := by
    intro j hj
    have : (i + j) % 4 = j := by omega
    rw [this]
  rw [intRepeated, littleEndian_add, littleEndian_congr hdig, littleEndian_digits]
  rfl

theorem intRepeated_four (h : ∀ env, f env < 2 ^ 32) : intRepeated f 4 = f := by
  funext env
  rw [← Nat.zero_add 4, intRepeated_add rfl (Nat.le_refl 4)]
  change f env % 2 ^ 32 * 2 ^ 0 + 0 = f env
  rw [Nat.mod_eq_of_lt (h env), Nat.pow_zero, Nat.mul_one, Nat.add_zero]

theorem repeated_iff_agree (hn : 4 ≤ n) :
    lowByteRepeated f n = intRepeated f n ↔ BytesAgree f := by
  have hpos : (0 : Nat) < 2 ^ 8 := by decide
  have heq : ∀ env, lowByteRepeated f n env = intRepeated f n env ↔
      ∀ j < n, f env % 2 ^ 8 = f env / 2 ^ (8 * (j % 4)) % 2 ^ 8 := fun env =>
    littleEndian_inj (fun _ _ => Nat.mod_lt _ hpos) fun _ _ => Nat.mod_lt _ hpos
  constructor
  · intro h env j hj
    have hd := (heq env).1 (congrFun h env) j (by omega)
    rw [Nat.mod_eq_of_lt hj] at hd
    exact hd.symm
  · intro h
    funext env
    apply (heq env).2
    intro j _
    exact (h env (j % 4) (Nat.mod_lt j (by decide))).symm

theorem concat_piece (hz : z.Lawful) (ho : Ordered t) (hL : constOffset ≤ L) (hx : constOffset ≤ x)
    (hl : constOffset ≤ l) (hlast : l ≤ t.lastLabel)
    (hk : t.key l = ⟨L, x, Operators.Concat.code, n * 8 % 2 ^ 16, 0, 0⟩)
    (hg : Denotes z mem t x v g) :
    Denotes z mem t l w f ↔ n % 32 ≠ 0 ∧ ∃ w1 f1, Denotes z mem t L w1 f1 ∧
      w = v + w1 ∧ f = fun env => g env * 2 ^ w1 + f1 env := by
  have hs1 : n * 8 % 2 ^ 16 ≠ 1 := by omega
  have hL0 : L ≠ 0 := Nat.ne_of_gt hL
  have hx0 : x ≠ 0 := Nat.ne_of_gt hx
  have hw : ∀ m, leftWidth (t.key l) m = n * 8 % 2 ^ 8 := by
    intro m
    rw [leftWidth, hk, if_neg fun h => hL0 h.2]
    change n * 8 % 2 ^ 16 % 2 ^ 8 = _
    omega
  have hv : ∀ k m, rightWidth (t.key l) k m = n * 8 % 2 ^ 8 := by
    intro k m
    rw [rightWidth, hw, hk, if_neg fun h => hx0 h.2]
  have hu : n * 8 % 2 ^ 8 ≠ 0 ↔ n % 32 ≠ 0 := by omega
  rw [denotes_concat hz ho hl hlast (by rw [hk]) (by rw [hk]; exact hs1) (hw _) (hv _ _), hk, hu]
  simp only [operandDenotes_label hL, operandDenotes_label hx]
  constructor
  · rintro ⟨hn, _, w1, f1, w2, f2, h1, h2, hw, hf⟩
    obtain ⟨rfl, rfl⟩ := h2.unique hg
    exact ⟨hn, w1, f1, h1, hw, hf⟩
  · rintro ⟨hn, w1, f1, h1, hw, hf⟩
    exact ⟨hn, hn, w1, f1, v, g, h1, hg, hw, hf⟩

theorem RepeatedAt.next (h : RepeatedAt z mem t f L i) (hz : z.Lawful) (ho : Ordered t)
    (ho' : Ordered t') (hg : Extends t t') (hi : i % 4 = 0) (hd0 : d ≠ 0) (hd : d ≤ 4)
    (hx : Denotes z mem t' x (8 * d) fun env => f env % 2 ^ (8 * d)) (hl : constOffset ≤ l)
    (hlast : l ≤ t'.lastLabel)
    (hk : t'.key l = ⟨L, x, Operators.Concat.code, (i + d) * 8 % 2 ^ 16, 0, 0⟩) :
    RepeatedAt z mem t' f l (i + d) where
  tainted := hl
  label := hlast
  size := by
    rw [hk, Nat.mul_comm 8]
  denotes w g := by
    rw [concat_piece hz ho' h.tainted hx.label.1 hl hlast hk hx]
    simp only [hg.denotes ho ho' h.label, h.denotes]
    constructor
    · rintro ⟨hmod, _, _, ⟨hle, rfl, rfl⟩, rfl, rfl⟩
      exact ⟨by omega, by omega, (intRepeated_add hi hd).symm⟩
    · rintro ⟨hle, rfl, rfl⟩
      exact ⟨by omega, _, _, ⟨by omega, rfl, rfl⟩, by omega, intRepeated_add hi hd⟩

theorem RepeatedAt.start (hd : Denotes z mem t l 32 f) (hs : (t.key l).size = 32) :
    RepeatedAt z mem t f l 4 where
  tainted := hd.label.1
  label := hd.label.2
  size := hs
  denotes w g := by
    rw [intRepeated_four hd.lt]
    constructor
    · intro h
      obtain ⟨rfl, rfl⟩ := h.unique hd
      exact ⟨by decide, rfl, rfl⟩
    · rintro ⟨_, rfl, rfl⟩
      exact hd

theorem TableInv.trunc_union (h : TableInv t S) (hd : Denotes z mem t l 32 f) (hr0 : r ≠ 0)
    (hr : r ≤ 4) :
    let k : LabelKey := ⟨l, constLabel, Operators.Trunc.code, r * 8 % 2 ^ 16, 0, 0⟩
    Kirenenko.taintUnion t k = .error .die ∧ t.lastLabel = maxLabel ∨
      ∃ x t', Kirenenko.taintUnion t k = .ok (x, t') ∧ TableGrows t t' 1 ∧
        Denotes z mem t' x (8 * r) fun env => f env % 2 ^ (8 * r) := by
  intro k
  have ha : Allocated t k := ⟨hd.label.2, fun _ => Nat.zero_le _⟩
  have hload : Operators.Trunc.code ≠ Operators.Load.code := by decide
  have hswap : swapOperands k = k :=
    if_neg fun h => absurd h.2 (by decide : ¬isCommutative Operators.Trunc.code)
  have hcan : canonical k = k := by
    rw [canonical, hswap]
    simp only [zeroConcrete, k, ite_self]
  rcases h.union_cases ha (ha.not_init h.ordered hload) with hdie | ⟨x, t', hu, hret⟩
  · exact .inl hdie
  · have hg := hret.tableGrows
    refine .inr ⟨x, t', hu, hg, ?_⟩
    rcases hret.key with ⟨_, hc⟩ | ⟨hx, hk⟩
    · rw [hswap] at hc
      exact (Nat.ne_of_gt hd.label.1 hc.1).elim
    · rw [hcan] at hk
      have hs : (t'.key x).size = 8 * r := by
        rw [hk]
        change r * 8 % 2 ^ 16 = 8 * r
        omega
      apply (denotes_trunc hg.ordered hx hret.label (by rw [hk]) hs (by omega)).2
      refine ⟨by omega, rfl, 32, f, ?_, by omega, rfl⟩
      rw [hk]
      exact (hg.grows.denotes h.ordered hg.ordered hd.label.2).2 hd

theorem RepeatedAt.round (h : RepeatedAt z mem t f L i) (app : Nat → UInt8) (fuel : Nat)
    (hz : z.Lawful) (hinv : TableInv t S) (hl : ls i = l) (hd : Denotes z mem t l 32 f)
    (hs : (t.key l).size = 32) (hi : i % 4 = 0) (hle : i + 4 ≤ n) :
    concatLoop app ls n (fuel + 1) t L i = .error .die ∧ t.lastLabel = maxLabel ∨
      ∃ l' t', concatLoop app ls n (fuel + 1) t L i = concatLoop app ls n fuel t' l' (i + 4) ∧
        TableGrows t t' 1 ∧ RepeatedAt z mem t' f l' (i + 4) := by
  have hinfo : (t.info l).size = 32 := hs
  have hfit : 32 ≤ (n - i) * 8 := by omega
  have hc : l ≠ constLabel := Nat.ne_of_gt hd.label.1
  rw [concatLoop, if_pos (by omega), hl, getLabelInfo_ok hd.label.2, except_ok_bind, hinfo,
    if_pos hc, if_pos hfit]
  rcases hinv.concat_union ((i + 32 / 8) * 8 % 2 ^ 16) 0 h.label hd.label.2
    (fun hc' => hc hc'.2) fun _ => rfl with ⟨hu, hfull⟩ | ⟨l', t', hu, hg, hl', hlast, hk⟩
  · rw [hu]
    exact .inl ⟨rfl, hfull⟩
  · have hx : Denotes z mem t' l (8 * 4) fun env => f env % 2 ^ (8 * 4) := by
      have hf : (fun env => f env % 2 ^ (8 * 4)) = f := by
        funext env
        exact Nat.mod_eq_of_lt (hd.lt env)
      rw [hf]
      exact (hg.grows.denotes hinv.ordered hg.ordered hd.label.2).2 hd
    refine .inr ⟨l', t', ?_, hg, h.next hz hinv.ordered hg.ordered hg.grows hi (by decide)
      (Nat.le_refl 4) hx hl' hlast hk⟩
    rw [hu]
    rfl

theorem RepeatedAt.cut (h : RepeatedAt z mem t f L i) (app : Nat → UInt8) (fuel : Nat)
    (hz : z.Lawful) (hinv : TableInv t S) (hl : ls i = l) (hd : Denotes z mem t l 32 f)
    (hs : (t.key l).size = 32) (hi : i % 4 = 0) (hlt : i < n) (hcut : n < i + 4) :
    concatLoop app ls n (fuel + 1) t L i = .error .die ∧ maxLabel ≤ t.lastLabel + 1 ∨
      ∃ l' t', concatLoop app ls n (fuel + 1) t L i = .ok (l', t') ∧
        RepeatedAt z mem t' f l' n := by
  have hinfo : (t.info l).size = 32 := hs
  have hfit : ¬32 ≤ (n - i) * 8 := by omega
  have hc : l ≠ constLabel := Nat.ne_of_gt hd.label.1
  rw [concatLoop, if_pos hlt, hl, getLabelInfo_ok hd.label.2, except_ok_bind, hinfo, if_pos hc,
    if_neg hfit]
  rcases hinv.trunc_union hd (by omega : n - i ≠ 0) (by omega) with
    ⟨hu, hfull⟩ | ⟨x, t₁, hu, hg, hx⟩
  · rw [hu]
    exact .inl ⟨rfl, by omega⟩
  · obtain ⟨S₁, hinv₁⟩ := hg.inv
    have hb := hg.bound
    rw [hu, except_ok_bind]
    rcases hinv₁.concat_union (n * 8 % 2 ^ 16) 0 (Nat.le_trans h.label hg.grows.lastLabel)
      hx.label.2 (fun hc => Nat.ne_of_gt h.tainted hc.1) fun _ => rfl with
      ⟨hu₂, hfull⟩ | ⟨l', t₂, hu₂, hg₂, hl', hlast, hk⟩
    · exact .inl ⟨hu₂, by omega⟩
    · have hn : i + (n - i) = n := by omega
      have hx₂ := (hg₂.grows.denotes hinv₁.ordered hg₂.ordered hx.label.2).2 hx
      rw [← hn] at hk
      have hend := h.next hz hinv.ordered hg₂.ordered (hg.grows.trans hg₂.grows) hi
        (by omega) (by omega) hx₂ hl' hlast hk
      rw [hn] at hend
      exact .inr ⟨l', t₂, hu₂, hend⟩

theorem RepeatedAt.run (h : RepeatedAt z mem t f L i) (app : Nat → UInt8) (hz : z.Lawful)
    (hinv : TableInv t S) (hls : ∀ j < n, ls j = l) (hd : Denotes z mem t l 32 f)
    (hs : (t.key l).size = 32) (hi : i % 4 = 0) (hle : i ≤ n) (hfuel : n - i < fuel) :
    concatLoop app ls n fuel t L i = .error .die ∧ maxLabel ≤ t.lastLabel + (n - i) ∨
      ∃ l' t', concatLoop app ls n fuel t L i = .ok (l', t') ∧ RepeatedAt z mem t' f l' n := by
  induction fuel generalizing t S L i with
  | zero => omega
  | succ fuel ih =>
    by_cases hlt : i < n
    · by_cases hfit : i + 4 ≤ n
      · rcases h.round app fuel hz hinv (hls i hlt) hd hs hi hfit with
          ⟨hdie, hfull⟩ | ⟨l', t', hu, hg, hnext⟩
        · exact .inl ⟨hdie, by omega⟩
        · obtain ⟨S', hinv'⟩ := hg.inv
          have hd' := (hg.grows.denotes hinv.ordered hinv'.ordered hd.label.2).2 hd
          have hs' : (t'.key l).size = 32 := by
            rw [hg.grows.key l hd.label.2]
            exact hs
          have hb := hg.bound
          rw [hu]
          rcases ih hnext hinv' hd' hs' (by omega) hfit (by omega) with ⟨hdie, hfull⟩ | hok
          · exact .inl ⟨hdie, by omega⟩
          · exact .inr hok
      · rcases h.cut app fuel hz hinv (hls i hlt) hd hs hi hlt (by omega) with ⟨hdie, hfull⟩ | hok
        · exact .inl ⟨hdie, by omega⟩
        · exact .inr hok
    · obtain rfl : i = n := by omega
      exact .inr ⟨L, t, concatLoop_done hlt, h⟩

theorem denotes_op_ne_zero (ho : Ordered t) (hd : Denotes z mem t l 32 f) : (t.key l).op ≠ 0 := by
  intro h
  have := (denotes_raw ho hd.label.1 hd.label.2 h).1 hd
  exact absurd this.2.1 (by decide)

theorem dfswMemset_cells (c : UInt32) (sLabel : Nat) (m : TaggedMemory) (h : a + n ≤ k) :
    ∀ i < n, (dfswMemset s c k sLabel l m).memory.shadow (s + a + i) = l := by
  intro i hi
  change writeLoop s (fun _ => l) 0 k m.shadow (s + a + i) = l
  have hlt : a + i < k := by omega
  rw [writeLoop_eq, Nat.add_assoc]
  exact written_inside _ _ hlt

/-- A load of the bytes of the `int` gives it back, or its parent. -/
theorem memset_whole_iff (app : Nat → UInt8) (ho : Ordered t) (hls : ∀ i < 4, ls i = l)
    (hs : (t.key l).size = 32) (hd : Denotes z mem t l 32 f) :
    ∃ l', taintUnionLoad t app ls 4 = .ok (l', t) ∧
      ((t.key l').size = 8 * 4 ∧ Denotes z mem t l' (8 * 4) (lowByteRepeated f 4) ↔
        FillRead z mem t l f 4) := by
  have hload := taintUnionLoad_same app hls (by decide) (Nat.le_refl 4) ho hd.label.1 hd.label.2
    hs (denotes_op_ne_zero ho hd)
  have hagree := repeated_iff_agree (Nat.le_refl 4) (f := f)
  rw [intRepeated_four hd.lt] at hagree
  refine ⟨_, hload, ?_⟩
  by_cases hw : LoadsWhole t l 4
  · have hiff := denotes_whole ho hs (by decide) hd hw
    rw [if_pos ⟨hw, rfl⟩]
    constructor
    · rintro ⟨_, h⟩
      have hp : HasWidth z mem t (t.key l).l1 32 := ⟨_, h⟩
      exact ⟨Nat.le_refl 4, by decide, hagree.1 (h.unique (hiff.2 hp)).2, fun _ _ => hp⟩
    · intro h
      rw [hagree.2 h.agree]
      exact ⟨hw.2.2, hiff.2 (h.parent rfl hw)⟩
  · rw [if_neg fun h => hw h.1]
    constructor
    · rintro ⟨_, h⟩
      exact ⟨Nat.le_refl 4, by decide, hagree.1 (h.unique hd).2, fun _ h => (hw h).elim⟩
    · intro h
      rw [hagree.2 h.agree]
      exact ⟨hs, hd⟩

theorem memset_long_iff (app : Nat → UInt8) (hz : z.Lawful) (hinv : TableInv t S)
    (hls : ∀ i < n, ls i = l) (hs : (t.key l).size = 32) (hd : Denotes z mem t l 32 f)
    (hn : 4 < n) :
    taintUnionLoad t app ls n = .error .die ∧ maxLabel < t.lastLabel + n ∨
      ∃ l' t', taintUnionLoad t app ls n = .ok (l', t') ∧
        ((t'.key l').size = 8 * n ∧ Denotes z mem t' l' (8 * n) (lowByteRepeated f n) ↔
          FillRead z mem t l f n) := by
  have hs4 : (t.key l).size = 8 * 4 := hs
  have hload := taintUnionLoad_repeated app hls (by omega) hinv.ordered hd.label.1 hd.label.2
    hs4 (by decide) (denotes_op_ne_zero hinv.ordered hd)
  have hfuel : n - 4 < concatFuel n := by
    unfold concatFuel
    omega
  rw [hload, if_neg fun h => Nat.ne_of_gt hn h.2]
  rcases (RepeatedAt.start hd hs).run app hz hinv hls hd hs rfl (Nat.le_of_lt hn) hfuel with
    ⟨hdie, hfull⟩ | ⟨l', t', hok, hend⟩
  · exact .inl ⟨hdie, by omega⟩
  · refine .inr ⟨l', t', hok, ?_⟩
    rw [hend.denotes, repeated_iff_agree (Nat.le_of_lt hn), hend.size]
    constructor
    · rintro ⟨_, hle, _, hagree⟩
      exact ⟨Nat.le_of_lt hn, hle, hagree, fun h => (Nat.ne_of_gt hn h).elim⟩
    · intro h
      have hle := h.short
      exact ⟨by omega, hle, rfl, h.agree⟩

/-- A load behind a fill reads the fill byte only if it has four bytes or more and the `int` has
one byte four times. -/
theorem memset_load_iff {s : TableHistory} (hz : z.Lawful) (hr : Steps (TableStep z) .initial as s)
    (hs : (s.table.key cLabel).size = 32) (hd : Denotes z mem s.table cLabel 32 f) (hn : 1 ≤ n)
    (han : a + n ≤ k) (dest : Nat) (c : UInt32) (sLabel : Nat) (m : TaggedMemory) :
    let load := (dfswMemset dest c k sLabel cLabel m).memory.load s.table (dest + a) n
    load = .error .die ∧ maxLabel < s.table.lastLabel + n ∨
      ∃ l t, load = .ok (l, t) ∧
        ((t.key l).size = 8 * n ∧ Denotes z mem t l (8 * n) (lowByteRepeated f n) ↔
          FillRead z mem s.table cLabel f n) := by
  have hinv := (hr.table_inv TableHistory.initial_inv).1
  have hls := dfswMemset_cells (s := dest) (l := cLabel) c sLabel m han
  rcases Nat.lt_trichotomy n 4 with hlt | rfl | hgt
  · have hload := fun app => taintUnionLoad_same app hls (by omega) (Nat.le_of_lt hlt) hinv.ordered
      hd.label.1 hd.label.2 hs (denotes_op_ne_zero hinv.ordered hd)
    refine .inr ⟨_, _, hload _, ?_⟩
    rw [if_neg fun h => Nat.ne_of_lt hlt h.2]
    constructor
    · rintro ⟨h, _⟩
      omega
    · intro h
      exact absurd h.whole (Nat.not_le.2 hlt)
  · obtain ⟨l, hl, hiff⟩ := memset_whole_iff _ hinv.ordered hls hs hd
    exact .inr ⟨l, _, hl, hiff⟩
  · exact memset_long_iff _ hz hinv hls hs hd hgt

end

/-- An input byte, then the `int` that is this byte four times. -/
def fourTimes : List TableOp :=
  [.create 0, .union ⟨1, 1, Operators.Concat.code, 16, 0, 0⟩,
    .union ⟨2, 2, Operators.Concat.code, 32, 0, 0⟩]

def fourTimesValue (env : Env) : Nat :=
  (inputByte 0 env * 2 ^ 8 + inputByte 0 env) * 2 ^ 16 +
    (inputByte 0 env * 2 ^ 8 + inputByte 0 env)

theorem fourTimes_keys : ∃ s, Steps (TableStep .idle) .initial fourTimes s ∧
    s.table.lastLabel = 3 ∧ (s.table.key 1).op = 0 ∧ (s.table.key 1).op1 = 0 ∧
    s.table.key 2 = ⟨1, 1, Operators.Concat.code, 2 * 8 % 2 ^ 16, 0, 0⟩ ∧
    s.table.key 3 = ⟨2, 2, Operators.Concat.code, 4 * 8 % 2 ^ 16, 0, 0⟩ := by
  have h : Steps (TableStep .idle) .initial fourTimes _ :=
    .cons (.create rfl) (.cons (.union ⟨by decide, fun _ => by decide⟩ rfl)
      (.cons (.union ⟨by decide, fun _ => by decide⟩ rfl) .nil))
  exact ⟨_, h, rfl, rfl, rfl, rfl, rfl⟩

theorem fourTimes_run : ∃ s, Steps (TableStep .idle) .initial fourTimes s ∧
    s.table.lastLabel = 3 ∧ (s.table.key 3).size = 32 ∧
    (s.table.key 3).op = Operators.Concat.code ∧
    Denotes .idle (fun _ => 0) s.table 3 32 fourTimesValue := by
  obtain ⟨s, hr, hlast, hop, hop1, hk2, hk3⟩ := fourTimes_keys
  have ho := ((hr.table_inv TableHistory.initial_inv).1).ordered
  have hle : 1 ≤ s.table.lastLabel ∧ 2 ≤ s.table.lastLabel ∧ 3 ≤ s.table.lastLabel := by
    rw [hlast]
    decide
  have h1 : Denotes .idle (fun _ => 0) s.table 1 8 (inputByte 0) := by
    apply (denotes_raw ho (by decide) hle.1 hop).2
    rw [hop1]
    exact ⟨Nat.two_pow_pos 30, rfl, rfl⟩
  have h2 := (concat_piece Z3.idle_lawful ho (by decide) (by decide) (by decide) hle.2.1 hk2
    h1).2 ⟨by decide, _, _, h1, rfl, rfl⟩
  have h3 := (concat_piece Z3.idle_lawful ho (by decide) (by decide) (by decide) hle.2.2 hk3
    h2).2 ⟨by decide, _, _, h2, rfl, rfl⟩
  exact ⟨s, hr, hlast, by rw [hk3]; rfl, by rw [hk3], h3⟩

theorem fourTimesValue_agree : BytesAgree fourTimesValue := by
  have hval : ∀ env, fourTimesValue env = littleEndian 8 (fun _ => inputByte 0 env) 4 := by
    intro env
    simp only [littleEndian_succ, littleEndian_zero, fourTimesValue]
    omega
  have hdigit : ∀ env, ∀ j < 4, fourTimesValue env / 2 ^ (8 * j) % 2 ^ 8 = inputByte 0 env := by
    intro env j hj
    rw [hval]
    exact littleEndian_digit (fun _ _ => inputByte_lt 0 env) hj
  intro env j hj
  have h0 := hdigit env 0 (by decide)
  rw [Nat.mul_zero, Nat.pow_zero, Nat.div_one] at h0
  rw [hdigit env j hj, h0]

def freshMemory : TaggedMemory := ⟨fun _ => 0, fun _ => 0⟩

/-- One byte of the filled range is loaded as all of the `int`. -/
theorem memset_one_byte :
    ∃ s f, Steps (TableStep .idle) .initial fourTimes s ∧ (s.table.key 3).size = 32 ∧
      Denotes .idle (fun _ => 0) s.table 3 32 f ∧
      ∃ l t, (dfswMemset 4096 0 1 0 3 freshMemory).memory.load s.table (4096 + 0) 1 = .ok (l, t) ∧
        (t.key l).size ≠ 8 * 1 ∧
        ¬Denotes .idle (fun _ => 0) t l (8 * 1) (lowByteRepeated f 1) := by
  obtain ⟨s, hr, hlast, hs, hop, hd⟩ := fourTimes_run
  have ho := ((hr.table_inv TableHistory.initial_inv).1).ordered
  have hs4 : (s.table.key 3).size = 8 * 4 := hs
  have hop0 : (s.table.key 3).op ≠ 0 := by rw [hop]; decide
  have hls := dfswMemset_cells (s := 4096) (l := 3) 0 0 freshMemory (by decide : 0 + 1 ≤ 1)
  have hload := fun app => taintUnionLoad_same app hls Nat.one_ne_zero (by decide : 1 ≤ 4) ho
    hd.label.1 hd.label.2 hs4 hop0
  refine ⟨s, _, hr, hs, hd, _, _, hload _, ?_, ?_⟩
  · rw [if_neg fun h => absurd h.2 (by decide), hs]
    decide
  · rw [if_neg fun h => absurd h.2 (by decide)]
    intro h
    exact absurd (h.unique hd).1 (by decide)

/-- Five bytes of it give the fill byte five times. -/
theorem memset_load_five :
    ∃ s l t, Steps (TableStep .idle) .initial fourTimes s ∧
      (dfswMemset 4096 0 8 0 3 freshMemory).memory.load s.table (4096 + 1) 5 = .ok (l, t) ∧
      (t.key l).size = 8 * 5 ∧
      Denotes .idle (fun _ => 0) t l (8 * 5) (lowByteRepeated fourTimesValue 5) := by
  obtain ⟨s, hr, hlast, hs, _, hd⟩ := fourTimes_run
  rcases memset_load_iff Z3.idle_lawful hr hs hd (by decide : 1 ≤ 5) (by decide : 1 + 5 ≤ 8) 4096 0
    0 freshMemory with ⟨_, hfull⟩ | ⟨l, t, hload, hiff⟩
  · rw [hlast] at hfull
    exact absurd hfull (by decide)
  · have hread : FillRead .idle (fun _ => 0) s.table 3 fourTimesValue 5 :=
      ⟨by decide, by decide, fourTimesValue_agree, fun h => absurd h (by decide)⟩
    exact ⟨s, l, t, hr, hload, hiff.2 hread⟩

end Kirenenko
