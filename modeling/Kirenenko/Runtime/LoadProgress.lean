import Kirenenko.Runtime.ConcatChain
import Kirenenko.Runtime.HashConsing

namespace Kirenenko
set_option autoImplicit true

/-- `dfsan_add_label` on the cells from index `i` on; its operator is a `u8`. -/
def dfsanAddLabel (label op : Nat) : Nat → Nat → LabelTable → (Nat → Nat) →
    Except Fault ((Nat → Nat) × LabelTable)
  | _, 0, t, ls => .ok (ls, t)
  | i, k + 1, t, ls => do
    let (x, t) ← taintUnion t { l1 := ls i, l2 := label, op := op % 2 ^ 8, size := 1 }
    dfsanAddLabel label op (i + 1) k t (Function.update ls i x)

/-- The recorded sizes of the labels of a load. -/
structure SizedAs (t : LabelTable) (ls : Nat → Nat) (n : Nat) (size : Nat → Nat) : Prop where
  label : ∀ i < n, ls i ≤ t.lastLabel
  size : ∀ i < n, (t.key (ls i)).size = size i

/-- The label at index `i` stands for more bytes than are left. -/
def Cut (ls size : Nat → Nat) (n i : Nat) : Prop := ls i ≠ constLabel ∧ (n - i) * 8 < size i

/-- How many bytes the slow path goes on after the label at index `i`. -/
def advance (ls size : Nat → Nat) (i : Nat) : Nat := if ls i = constLabel then 1 else size i / 8

/-- The slow path gets from index `i` to the end of a load: each label that it meets has eight bits
or more. -/
inductive Advances (ls size : Nat → Nat) (n : Nat) : Nat → Prop where
  | done : ¬i < n → Advances ls size n i
  | cut : i < n → Cut ls size n i → Advances ls size n i
  | next : i < n → 0 < advance ls size i → Advances ls size n (i + advance ls size i) →
      Advances ls size n i

/-- The bits that the first `j` labels of a load stand for. -/
def coveredBits (t : LabelTable) (ls : Nat → Nat) : Nat → Nat
  | 0 => 0
  | j + 1 => coveredBits t ls j + (t.key (ls j)).size

/-- Label `j` of a load is extracted from the place behind the labels before it. -/
def InOrder (t : LabelTable) (ls : Nat → Nat) (j : Nat) : Prop :=
  (t.key (ls j)).op = Operators.Extract.code ∧ (t.key (ls j)).op2 = coveredBits t ls j ∧
    (t.key (ls j)).l1 = (t.key (ls 0)).l1

instance : Decidable (InOrder t ls j) := by
  unfold InOrder
  infer_instance

/-- The leading labels of a load are extracted in order from one of its size. -/
def ExtractsWhole (t : LabelTable) (ls : Nat → Nat) (n : Nat) : Prop :=
  (t.key (ls 0)).op = Operators.Extract.code ∧
    ∃ p < n + 1, (∀ j < p, InOrder t ls j) ∧ (p = n ∨ ¬InOrder t ls p) ∧
      (t.key (t.key (ls 0)).l1).size = coveredBits t ls p ∧ coveredBits t ls p = n * 8

instance : Decidable (ExtractsWhole t ls n) := by
  unfold ExtractsWhole
  infer_instance

/-- A load takes a shortcut or gets through the slow path. -/
def LoadAdvances (t : LabelTable) (ls : Nat → Nat) (n : Nat) : Prop :=
  (∀ i < n, ls i = constLabel) ∨ Consecutive t ls n ∨ ExtractsWhole t ls n ∨
    Advances ls (fun i => (t.key (ls i)).size) n ((t.key (ls 0)).size / 8)

/-- A load returns after at most `2 * n` allocations, or finds no room for them. -/
def LoadBounded (t : LabelTable) (app : Nat → UInt8) (ls : Nat → Nat) (n : Nat) : Prop :=
  (∃ l t', taintUnionLoad t app ls n = .ok (l, t') ∧ t'.lastLabel ≤ t.lastLabel + 2 * n) ∨
    taintUnionLoad t app ls n = .error .die ∧ maxLabel < t.lastLabel + 2 * n

section
variable {t t' : LabelTable} {app : Nat → UInt8} {ls size : Nat → Nat} {n : Nat}

theorem SizedAs.extends (h : SizedAs t ls n size) (hg : Extends t t') : SizedAs t' ls n size where
  label i hi := Nat.le_trans (h.label i hi) hg.lastLabel
  size i hi := by rw [hg.key _ (h.label i hi)]; exact h.size i hi

theorem TableInv.concat_cases (h : TableInv t S) (size op2 : Nat) (h1 : L ≤ t.lastLabel)
    (h2 : x ≤ t.lastLabel) :
    let k : LabelKey := ⟨L, x, Operators.Concat.code, size, 0, op2⟩
    Kirenenko.taintUnion t k = .error .die ∧ t.lastLabel = maxLabel ∨
      ∃ l t', Kirenenko.taintUnion t k = .ok (l, t') ∧ TableGrows t t' 1 ∧ l ≤ t'.lastLabel ∧
        (L < l ∨ L = l ∧ x = constLabel) := by
  intro k
  rcases h.concat_returns size op2 h1 h2 with hdie | ⟨l, t', hu, hret, hkey⟩
  · exact .inl hdie
  · refine .inr ⟨l, t', hu, hret.tableGrows, hret.label, ?_⟩
    rcases hkey with ⟨rfl, hL, hx⟩ | ⟨hl, hk⟩
    · exact .inr ⟨hL, hx⟩
    · have hlt := hret.tableGrows.ordered.l1 l hl hret.label
      rw [hk] at hlt
      exact .inl hlt

/-- One round of the slow path: the table is full, or the load ends with the part of a label that
it needs, or it goes on with a label that is larger or further on. -/
theorem SizedAs.concat_round (h : SizedAs t ls n size) (hinv : TableInv t S) (app : Nat → UInt8)
    (fuel : Nat) (hi : i < n) (hL : L ≤ t.lastLabel) :
    concatLoop app ls n (fuel + 1) t L i = .error .die ∧ maxLabel < t.lastLabel + 2 ∨
      (Cut ls size n i ∧ ∃ l t', concatLoop app ls n (fuel + 1) t L i = .ok (l, t') ∧
        TableGrows t t' 2) ∨
      ¬Cut ls size n i ∧ ∃ l t', concatLoop app ls n (fuel + 1) t L i =
          concatLoop app ls n fuel t' l (i + advance ls size i) ∧
        TableGrows t t' 1 ∧ l ≤ t'.lastLabel ∧ (L < l ∨ L = l ∧ 0 < advance ls size i) := by
  have hli := h.label i hi
  have hsz : (t.info (ls i)).size = size i := h.size i hi
  rw [concatLoop, if_pos hi, getLabelInfo_ok hli, except_ok_bind, hsz]
  by_cases hc : ls i = constLabel
  · have hncut : ¬Cut ls size n i := fun hcut => hcut.1 hc
    have hadv : advance ls size i = 1 := if_pos hc
    rw [if_neg (not_not.2 hc), hadv]
    rcases hinv.concat_cases ((i + 1) * 8 % 2 ^ 16) (charToU64 (app i)) hL (Nat.zero_le _) with
      ⟨hu, hfull⟩ | ⟨l, t', hu, hg, hl, hlt⟩
    · rw [hu]
      exact .inl ⟨rfl, by omega⟩
    · refine .inr (.inr ⟨hncut, l, t', ?_, hg, hl, hlt.imp_right fun h => ⟨h.1, Nat.one_pos⟩⟩)
      rw [hu]
      rfl
  have hadv : advance ls size i = size i / 8 := if_neg hc
  rw [if_pos hc, hadv]
  by_cases hle : size i ≤ (n - i) * 8
  · have hncut : ¬Cut ls size n i := fun hcut => absurd hle (Nat.not_le.2 hcut.2)
    rw [if_pos hle]
    rcases hinv.concat_cases ((i + size i / 8) * 8 % 2 ^ 16) 0 hL hli with
      ⟨hu, hfull⟩ | ⟨l, t', hu, hg, hl, hlt⟩
    · rw [hu]
      exact .inl ⟨rfl, by omega⟩
    · refine .inr (.inr ⟨hncut, l, t', ?_, hg, hl, .inl (hlt.resolve_right fun h => hc h.2)⟩)
      rw [hu]
      rfl
  · have hcut : Cut ls size n i := ⟨hc, Nat.lt_of_not_le hle⟩
    have ha : Allocated t ⟨ls i, constLabel, Operators.Trunc.code, (n - i) * 8 % 2 ^ 16, 0, 0⟩ :=
      ⟨hli, fun _ => Nat.zero_le _⟩
    have hload : Operators.Trunc.code ≠ Operators.Load.code := by decide
    rw [if_neg hle]
    rcases hinv.union_cases ha (ha.not_init hinv.ordered hload) with
      ⟨hu, hfull⟩ | ⟨trunc, t₁, hu, hret⟩
    · rw [hu]
      exact .inl ⟨rfl, by omega⟩
    · obtain ⟨S₁, hinv₁⟩ := hret.inv
      have hg₁ := hret.tableGrows
      rw [hu, except_ok_bind]
      rcases hinv₁.concat_cases (n * 8 % 2 ^ 16) 0 (Nat.le_trans hL hg₁.grows.lastLabel) hret.label
        with ⟨hu₂, hfull⟩ | ⟨l, t₂, hu₂, hg₂, _⟩
      · have := hg₁.bound
        exact .inl ⟨hu₂, by omega⟩
      · exact .inr (.inl ⟨hcut, l, t₂, hu₂, hg₁.trans hg₂⟩)

/-- Each label that is met allocates one label and stands for a byte or more; the last one may
allocate two. -/
theorem Advances.bounded (ha : Advances ls size n i) (h : SizedAs t ls n size)
    (hinv : TableInv t S) (app : Nat → UInt8) (hL : L ≤ t.lastLabel) (hfuel : n - i < fuel) :
    concatLoop app ls n fuel t L i = .error .die ∧ maxLabel < t.lastLabel + 2 * (n - i) ∨
      ∃ l t', concatLoop app ls n fuel t L i = .ok (l, t') ∧ TableGrows t t' (2 * (n - i)) := by
  induction ha generalizing t S L fuel with
  | done hi =>
    obtain ⟨fuel, rfl⟩ := Nat.exists_eq_succ_of_ne_zero (Nat.ne_of_gt (Nat.zero_lt_of_lt hfuel))
    exact .inr ⟨L, t, concatLoop_done hi, hinv.tableGrows.mono (Nat.zero_le _)⟩
  | cut hi hcut =>
    obtain ⟨fuel, rfl⟩ := Nat.exists_eq_succ_of_ne_zero (Nat.ne_of_gt (Nat.zero_lt_of_lt hfuel))
    rcases h.concat_round hinv app fuel hi hL with ⟨hdie, hfull⟩ | ⟨_, l, t', hu, hg⟩ | ⟨hn, _⟩
    · exact .inl ⟨hdie, by omega⟩
    · exact .inr ⟨l, t', hu, hg.mono (by omega)⟩
    · exact (hn hcut).elim
  | @next i hi hpos _ ih =>
    obtain ⟨fuel, rfl⟩ := Nat.exists_eq_succ_of_ne_zero (Nat.ne_of_gt (Nat.zero_lt_of_lt hfuel))
    rcases h.concat_round hinv app fuel hi hL with
      ⟨hdie, hfull⟩ | ⟨_, l, t', hu, hg⟩ | ⟨_, l, t', hu, hg, hl, _⟩
    · exact .inl ⟨hdie, by omega⟩
    · exact .inr ⟨l, t', hu, hg.mono (by omega)⟩
    · obtain ⟨S', hinv'⟩ := hg.inv
      have hb := hg.bound
      have hfuel' : n - (i + advance ls size i) < fuel := by omega
      rw [hu]
      rcases ih (h.extends hg.grows) hinv' hl hfuel' with ⟨hdie, hfull⟩ | ⟨l', t'', hr, hg'⟩
      · exact .inl ⟨hdie, by omega⟩
      · exact .inr ⟨l', t'', hr, (hg.trans hg').mono (by omega)⟩

/-- A label of less than eight bits is met again and again. -/
theorem SizedAs.concat_stuck (h : SizedAs t ls n size) (hinv : TableInv t S) (hL : L ≤ t.lastLabel)
    (hn : ¬Advances ls size n i) (p : Nat × LabelTable) :
    concatLoop app ls n fuel t L i ≠ .ok p := by
  induction fuel generalizing t S L i with
  | zero => exact nofun
  | succ fuel ih =>
    have hi : i < n := by
      by_contra hi
      exact hn (.done hi)
    rcases h.concat_round hinv app fuel hi hL with
      ⟨hdie, _⟩ | ⟨hcut, _⟩ | ⟨_, l, t', hu, hg, hl, _⟩
    · rw [hdie]
      exact nofun
    · exact (hn (.cut hi hcut)).elim
    · obtain ⟨S', hinv'⟩ := hg.inv
      rw [hu]
      apply ih (h.extends hg.grows) hinv' hl
      intro ha
      by_cases hpos : 0 < advance ls size i
      · exact hn (.next hi hpos ha)
      · obtain h0 : advance ls size i = 0 := by omega
        rw [h0] at ha
        exact hn ha

/-- No run of the slow path is endless: each round gets on in the load or to a larger label. -/
theorem SizedAs.concat_ends (h : SizedAs t ls n size) (hinv : TableInv t S) (app : Nat → UInt8)
    (hL : L ≤ t.lastLabel) (hfuel : n - i + (maxLabel - L) < fuel) :
    concatLoop app ls n fuel t L i = .error .die ∨
      ∃ l t', concatLoop app ls n fuel t L i = .ok (l, t') ∧ t'.lastLabel ≤ maxLabel := by
  induction fuel generalizing t S L i with
  | zero => omega
  | succ fuel ih =>
    by_cases hi : i < n
    · rcases h.concat_round hinv app fuel hi hL with
        ⟨hdie, _⟩ | ⟨_, l, t', hu, hg⟩ | ⟨_, l, t', hu, hg, hl, hlt⟩
      · exact .inl hdie
      · obtain ⟨S', hinv'⟩ := hg.inv
        exact .inr ⟨l, t', hu, hinv'.bound⟩
      · obtain ⟨S', hinv'⟩ := hg.inv
        have hb := hinv'.bound
        rw [hu]
        apply ih (h.extends hg.grows) hinv' hl
        omega
    · exact .inr ⟨L, t, concatLoop_done hi, hinv.bound⟩

theorem not_advances (hi : i < n) (hc : ls i ≠ constLabel) (hs : size i < 8) :
    ¬Advances ls size n i := by
  intro h
  cases h with
  | done hn => exact hn hi
  | cut _ hcut =>
    have := hcut.2
    omega
  | next _ hpos _ =>
    rw [advance, if_neg hc] at hpos
    omega

theorem extractLoop_covers (hl : ∀ j < n, ls j ≤ t.lastLabel) (hi : i + k = n)
    (hbefore : ∀ j < i, InOrder t ls j) :
    ∃ p < n + 1, (∀ j < p, InOrder t ls j) ∧ (p = n ∨ ¬InOrder t ls p) ∧
      extractLoop t ls (t.key (ls 0)).l1 i (coveredBits t ls i) k = .ok (coveredBits t ls p) := by
  induction k generalizing i with
  | zero =>
    obtain rfl : i = n := hi
    exact ⟨i, Nat.lt_succ_self i, hbefore, .inl rfl, rfl⟩
  | succ k ih =>
    rw [extractLoop, getLabelInfo_ok (hl i (by omega)), except_ok_bind]
    change ∃ p < n + 1, _ ∧ _ ∧ (if (t.key (ls i)).op ≠ _ ∨
      coveredBits t ls i ≠ (t.key (ls i)).op2 ∨ (t.key (ls 0)).l1 ≠ (t.key (ls i)).l1
      then _ else _) = _
    by_cases ho : InOrder t ls i
    · have hnot : ¬((t.key (ls i)).op ≠ Operators.Extract.code ∨
          coveredBits t ls i ≠ (t.key (ls i)).op2 ∨ (t.key (ls 0)).l1 ≠ (t.key (ls i)).l1) := by
        rintro (h | h | h)
        · exact h ho.1
        · exact h ho.2.1.symm
        · exact h ho.2.2.symm
      rw [if_neg hnot]
      apply ih (by omega)
      intro j hj
      rcases Nat.lt_succ_iff_lt_or_eq.1 hj with hlt | rfl
      · exact hbefore j hlt
      · exact ho
    · have hstop : (t.key (ls i)).op ≠ Operators.Extract.code ∨
          coveredBits t ls i ≠ (t.key (ls i)).op2 ∨ (t.key (ls 0)).l1 ≠ (t.key (ls i)).l1 := by
        by_contra hc
        simp only [not_or, ne_eq, not_not] at hc
        exact ho ⟨hc.1, hc.2.1.symm, hc.2.2.symm⟩
      rw [if_pos hstop]
      exact ⟨i, by omega, hbefore, .inr ho, rfl⟩

theorem inOrder_unique (hp : ∀ j < p, InOrder t ls j) (hq : ∀ j < q, InOrder t ls j)
    (hp' : p = n ∨ ¬InOrder t ls p) (hq' : q = n ∨ ¬InOrder t ls q) (hpn : p < n + 1)
    (hqn : q < n + 1) : p = q := by
  rcases Nat.lt_trichotomy p q with hlt | heq | hgt
  · rcases hp' with rfl | hno
    · omega
    · exact (hno (hq p hlt)).elim
  · exact heq
  · rcases hq' with rfl | hno
    · omega
    · exact (hno (hp q hgt)).elim

theorem extractParent_covers (hl : ∀ j < n, ls j ≤ t.lastLabel)
    (hp : (t.key (ls 0)).l1 ≤ t.lastLabel) :
    extractParent t ls n (t.info (ls 0)) =
      .ok (if ExtractsWhole t ls n then some (t.key (ls 0)).l1 else none) := by
  unfold extractParent
  change (if (t.key (ls 0)).op = _ then _ else _) = _
  by_cases h0 : (t.key (ls 0)).op = Operators.Extract.code
  · obtain ⟨p, hpn, hin, hstop, hloop⟩ := extractLoop_covers hl (Nat.zero_add n)
      fun j hj => absurd hj (Nat.not_lt_zero j)
    have hwhole : ExtractsWhole t ls n ↔
        (t.key (t.key (ls 0)).l1).size = coveredBits t ls p ∧ coveredBits t ls p = n * 8 := by
      constructor
      · rintro ⟨_, q, hqn, hin', hstop', hbits⟩
        obtain rfl := inOrder_unique hin hin' hstop hstop' hpn hqn
        exact hbits
      · intro hbits
        exact ⟨h0, p, hpn, hin, hstop, hbits⟩
    rw [if_pos h0]
    change (do let offset ← extractLoop t ls (t.key (ls 0)).l1 0 0 n; _) = _
    rw [show extractLoop t ls (t.key (ls 0)).l1 0 0 n = _ from hloop, except_ok_bind]
    change (do let parent ← t.getLabelInfo (t.key (ls 0)).l1; _) = _
    rw [getLabelInfo_ok hp]
    simp only [hwhole]
    rfl
  · rw [if_neg h0, if_neg fun h => h0 h.1]

theorem taintUnionLoad_paths (app : Nat → UInt8) (hb : t.lastLabel < kInitializingLabel)
    (hn : n ≠ 0) (hl : ∀ i < n, ls i ≤ t.lastLabel) (hp : (t.key (ls 0)).l1 ≤ t.lastLabel) :
    taintUnionLoad t app ls n =
      if ∀ i < n, ls i = constLabel then .ok (constLabel, t)
      else if Consecutive t ls n then loadConsecutive t ls n
      else if ExtractsWhole t ls n then .ok ((t.key (ls 0)).l1, t)
      else concatLoop app ls n (concatFuel n) t (ls 0) ((t.key (ls 0)).size / 8) :=
  taintUnionLoad_of_parent app hb hn hl (extractParent_covers hl hp)

theorem TableInv.union_bound (h : TableInv t S) (k : LabelKey) :
    Kirenenko.taintUnion t k = .error .die ∧ t.lastLabel = maxLabel ∨
      ∃ l t', Kirenenko.taintUnion t k = .ok (l, t') ∧ t'.lastLabel ≤ t.lastLabel + 1 := by
  have hres := h.taintUnion k
  generalize Kirenenko.taintUnion t k = r at hres
  cases hres with
  | const => exact .inr ⟨_, _, rfl, Nat.le_succ _⟩
  | init => exact .inr ⟨_, _, rfl, Nat.le_succ _⟩
  | found => exact .inr ⟨_, _, rfl, Nat.le_succ _⟩
  | die hfull => exact .inl ⟨rfl, hfull⟩
  | fresh => exact .inr ⟨_, _, rfl, Nat.le_refl _⟩

theorem loadConsecutive_bounded (hinv : TableInv t S) (ls : Nat → Nat) (hn : n ≠ 0) :
    (∃ l t', loadConsecutive t ls n = .ok (l, t') ∧ t'.lastLabel ≤ t.lastLabel + 2 * n) ∨
      loadConsecutive t ls n = .error .die ∧ maxLabel < t.lastLabel + 2 * n := by
  unfold loadConsecutive
  by_cases h1 : n = 1
  · rw [if_pos h1]
    exact .inl ⟨_, t, rfl, Nat.le_add_right _ _⟩
  · rw [if_neg h1]
    rcases hinv.union_bound ⟨ls 0, n % 2 ^ 32, Operators.Load.code, n * 8 % 2 ^ 16, 0, 0⟩ with
      ⟨hu, hfull⟩ | ⟨l, t', hu, hle⟩
    · exact .inr ⟨hu, by omega⟩
    · exact .inl ⟨l, t', hu, by omega⟩

theorem SizedAs.slow_bounded_iff (h : SizedAs t ls n size) (hinv : TableInv t S)
    (app : Nat → UInt8) (h0 : ls 0 ≤ t.lastLabel) :
    ((∃ l t', concatLoop app ls n (concatFuel n) t (ls 0) i = .ok (l, t') ∧
        t'.lastLabel ≤ t.lastLabel + 2 * n) ∨
      concatLoop app ls n (concatFuel n) t (ls 0) i = .error .die ∧
        maxLabel < t.lastLabel + 2 * n) ↔
      Advances ls size n i ∨ maxLabel < t.lastLabel + 2 * n := by
  have hfuel : n + maxLabel < concatFuel n := by
    unfold concatFuel maxLabel
    omega
  constructor
  · rintro (⟨l, t', hok, _⟩ | ⟨_, hfull⟩)
    · by_contra hn
      exact h.concat_stuck hinv h0 (fun ha => hn (.inl ha)) _ hok
    · exact .inr hfull
  · have hn : n - i < concatFuel n := by omega
    have hm : n - i + (maxLabel - ls 0) < concatFuel n := by omega
    rintro (ha | hfull)
    · rcases ha.bounded h hinv app h0 hn with ⟨hdie, hfull⟩ | ⟨l, t', hok, hg⟩
      · exact .inr ⟨hdie, by omega⟩
      · have := hg.bound
        exact .inl ⟨l, t', hok, by omega⟩
    · rcases h.concat_ends hinv app h0 hm with hdie | ⟨l, t', hok, hle⟩
      · exact .inr ⟨hdie, hfull⟩
      · exact .inl ⟨l, t', hok, by omega⟩

theorem TableInv.load_bounded (hinv : TableInv t S) (app : Nat → UInt8) (hn : n ≠ 0)
    (hl : ∀ i < n, ls i ≤ t.lastLabel) :
    LoadBounded t app ls n ↔ LoadAdvances t ls n ∨ maxLabel < t.lastLabel + 2 * n := by
  have ho := hinv.ordered
  have h0 : ls 0 ≤ t.lastLabel := hl 0 (Nat.pos_of_ne_zero hn)
  have hp : (t.key (ls 0)).l1 ≤ t.lastLabel := by
    by_cases hc : ls 0 = constLabel
    · rw [hc, hinv.zero]
      exact Nat.zero_le _
    · exact Nat.le_trans (Nat.le_of_lt (ho.l1 _ (Nat.pos_of_ne_zero hc) h0)) h0
  have hsized : SizedAs t ls n fun i => (t.key (ls i)).size := ⟨hl, fun _ _ => rfl⟩
  unfold LoadBounded LoadAdvances
  rw [taintUnionLoad_paths app ho.bound hn hl hp]
  by_cases hall : ∀ i < n, ls i = constLabel
  · rw [if_pos hall]
    exact iff_of_true (.inl ⟨_, _, rfl, Nat.le_add_right _ _⟩) (.inl (.inl hall))
  rw [if_neg hall, or_iff_right hall]
  by_cases hc : Consecutive t ls n
  · rw [if_pos hc]
    exact iff_of_true (loadConsecutive_bounded hinv ls hn) (.inl (.inl hc))
  rw [if_neg hc, or_iff_right hc]
  by_cases he : ExtractsWhole t ls n
  · rw [if_pos he]
    exact iff_of_true (.inl ⟨_, _, rfl, Nat.le_add_right _ _⟩) (.inl (.inl he))
  · rw [if_neg he, or_iff_right he]
    exact hsized.slow_bounded_iff hinv app h0

/-- A load ends after at most two allocations for each byte exactly when every label that its slow
path meets has eight bits or more, or the table has no room to show the difference. -/
theorem load_bounded_iff {s : TableHistory} (app : Nat → UInt8)
    (hr : Steps (TableStep z) .initial as s) (hn : 1 ≤ n)
    (hl : ∀ i < n, ls i ≤ s.table.lastLabel) :
    LoadBounded s.table app ls n ↔
      LoadAdvances s.table ls n ∨ maxLabel < s.table.lastLabel + 2 * n := by
  have hinv : TableInv s.table s.Stored := (hr.table_inv TableHistory.initial_inv).1
  exact hinv.load_bounded app (Nat.ne_of_gt hn) hl

end

/-- The first input byte is added to a byte by `dfsan_add_label`, whose labels have one bit. A load
of that byte makes no progress. -/
theorem one_bit_label_loops :
    ∃ s s' ls, Steps (TableStep .idle) .initial [.create 0] s ∧
      Steps (TableStep .idle) .initial
        [.create 0, .union { l1 := 0, l2 := 1, op := Operators.Or.code, size := 1 }] s' ∧
      dfsanAddLabel 1 Operators.Or.code 0 1 s.table (fun _ => 0) = .ok (ls, s'.table) ∧
      ls 0 ≤ s'.table.lastLabel ∧ ∀ app, ¬LoadBounded s'.table app ls 1 := by
  obtain ⟨s, s', hr, hr', hadd, hlast, hop, hsize⟩ : ∃ s s',
      Steps (TableStep .idle) .initial [.create 0] s ∧
      Steps (TableStep .idle) .initial
        [.create 0, .union { l1 := 0, l2 := 1, op := Operators.Or.code, size := 1 }] s' ∧
      dfsanAddLabel 1 Operators.Or.code 0 1 s.table (fun _ => 0) =
        .ok (Function.update (fun _ => 0) 0 2, s'.table) ∧
      s'.table.lastLabel = 2 ∧ (s'.table.key 2).op = Operators.Or.code ∧
      (s'.table.key 2).size = 1 :=
    ⟨_, _, .cons (.create rfl) .nil,
      .cons (.create rfl) (.cons (.union ⟨by decide, fun _ => by decide⟩ rfl) .nil), rfl, rfl,
      rfl, rfl⟩
  have hinv : TableInv s'.table s'.Stored := (hr'.table_inv TableHistory.initial_inv).1
  have hls : ∀ i < 1, Function.update (fun _ => 0) 0 2 i ≤ s'.table.lastLabel := by
    intro i hi
    obtain rfl : i = 0 := by omega
    exact Nat.le_of_eq hlast.symm
  refine ⟨s, s', _, hr, hr', hadd, hls 0 Nat.one_pos, ?_⟩
  intro app hb
  rcases (hinv.load_bounded app Nat.one_ne_zero hls).1 hb with
    (hall | hc | he | ha) | hfull
  · exact absurd (hall 0 Nat.one_pos) (by decide)
  · have h0 := hc.1
    rw [show (s'.table.key (Function.update (fun _ => 0) 0 2 0)).op = _ from hop] at h0
    cases h0
  · have h0 := he.1
    rw [show (s'.table.key (Function.update (fun _ => 0) 0 2 0)).op = _ from hop] at h0
    cases h0
  · rw [show (s'.table.key (Function.update (fun _ => 0) 0 2 0)).size = _ from hsize] at ha
    refine not_advances (i := 0) Nat.one_pos (by decide) ?_ ha
    exact Nat.lt_of_le_of_lt (Nat.le_of_eq hsize) (by decide)
  · rw [hlast] at hfull
    exact absurd hfull (by decide)

/-- One tainted byte followed by a concrete one. -/
theorem load_bounded_mixed :
    ∃ s, Steps (TableStep .idle) .initial [.create 0] s ∧
      LoadBounded s.table (fun _ => 0) (fun i => 1 - i) 2 := by
  have hr : Steps (TableStep .idle) .initial [.create 0] _ := .cons (.create rfl) .nil
  refine ⟨_, hr, (load_bounded_iff _ hr (by decide) (by decide)).2 (.inl ?_)⟩
  exact .inr (.inr (.inr (.next (by decide) (by decide) (.done (by decide)))))

end Kirenenko
