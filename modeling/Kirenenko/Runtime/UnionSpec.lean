import Kirenenko.Runtime.SerializeSound
import Kirenenko.Runtime.TableInvariant

namespace Kirenenko
set_option autoImplicit true

theorem extended_extends (t : LabelTable) (info : LabelInfo) : Extends t (t.extended info) where
  lastLabel := Nat.le_succ _
  key _ hl := extended_key_old t info hl

theorem Extends.insert (h : Extends t t') (key entry : Nat) : Extends t (t'.insert key entry) :=
  ⟨h.lastLabel, h.key⟩

/-- The caches of a table agree with its own records. -/
def WellCached (z : Z3) (mem : Memory) (t : LabelTable) : Prop := Coherent z mem t t

theorem initial_expr (l : Nat) : (LabelTable.initial.info l).expr = none := by
  unfold LabelTable.initial
  by_cases hl : l = constLabel
  · subst hl
    simp only [Function.update_self]
  · simp only [Function.update_of_ne hl]

theorem WellCached.initial (z : Z3) (mem : Memory) : WellCached z mem .initial where
  same := .refl _
  cached l e he := by
    rw [initial_expr l] at he
    cases he

theorem Coherent.wellCached (h : Coherent z mem t t') (ho : Ordered t) : WellCached z mem t' :=
  coherentUpTo_eq.1 ((coherentUpTo_eq.2 h).extends ho h.same.extends fun _ _ he => he)

theorem WellCached.serialize (h : WellCached z mem t) (ho : Ordered t) (hl : label ≤ t.lastLabel) :
    WellCached z mem (finalState (serialize z mem (label + 1) label deps t)) :=
  ((simulates_serialize ho hl (Nat.lt_succ_self _)).finalState h).wellCached ho

theorem WellCached.grow (h : WellCached z mem t) (ho : Ordered t) (hgrow : Extends t t')
    (hexpr : ∀ l e, (t'.info l).expr = some e → (t.info l).expr = some e) :
    WellCached z mem t' :=
  coherentUpTo_eq.1 ((coherentUpTo_eq.2 h).extends ho hgrow hexpr)

theorem extended_cached {t : LabelTable} {info : LabelInfo} (hinfo : info.expr = none)
    (he : ((t.extended info).info l).expr = some e) : (t.extended info).info l = t.info l := by
  unfold LabelTable.extended at he ⊢
  by_cases hl : l = t.lastLabel + 1
  · subst hl
    simp only [Function.update_self, hinfo] at he
    cases he
  · simp only [Function.update_of_ne hl]

theorem extended_expr {t : LabelTable} {info : LabelInfo} (hinfo : info.expr = none)
    (he : ((t.extended info).info l).expr = some e) : (t.info l).expr = some e := by
  rw [← extended_cached hinfo he]
  exact he

theorem flip_info (t : LabelTable) (label l : Nat) :
    ((t.flip label).info l).expr = (t.info l).expr ∧
      ((t.flip label).info l).deps = (t.info l).deps ∧
      (((t.flip label).info l).flipped = true → (t.info l).flipped = true ∨ l = label) := by
  unfold LabelTable.flip
  rcases modifyInfo_cases t label (fun info => { info with flipped := true }) l with
    ⟨hl, hinfo⟩ | hinfo
  · rw [hinfo]
    exact ⟨rfl, rfl, fun _ => .inr hl⟩
  · rw [hinfo]
    exact ⟨rfl, rfl, .inl⟩

/-- A record as an allocation writes it: nothing is cached or flagged yet. -/
structure FreshInfo (k : LabelKey) (info : LabelInfo) : Prop where
  key : info.toLabelKey = k
  expr : info.expr = none
  flipped : info.flipped = false

theorem TableInv.dfsanCreateLabel (h : TableInv t S) (offset : Int) :
    t.lastLabel = maxLabel ∧ dfsanCreateLabel t offset = .error .die ∨
    t.lastLabel < maxLabel ∧ ∃ info,
      FreshInfo { size := 8, op1 := (offset % 2 ^ 64).toNat } info ∧
      dfsanCreateLabel t offset = .ok (t.lastLabel + 1, t.extended info) := by
  unfold Kirenenko.dfsanCreateLabel
  rw [allocate_eq t _ h.bound]
  rcases Nat.lt_or_ge t.lastLabel maxLabel with hroom | hfull
  · rw [if_pos hroom]
    exact .inr ⟨hroom, _, ⟨rfl, rfl, rfl⟩, rfl⟩
  · rw [if_neg (by omega)]
    exact .inl ⟨Nat.le_antisymm h.bound hfull, rfl⟩

/-- Interning finds the key, finds the table full, or adds a record for the key. -/
theorem TableInv.intern (h : TableInv t S) (k : LabelKey) :
    (∃ l, S k l ∧ t.intern k = .ok (l, t)) ∨
    (∀ l, ¬S k l) ∧ (t.lastLabel = maxLabel ∧ t.intern k = .error .die ∨
      t.lastLabel < maxLabel ∧ ∃ info, FreshInfo k info ∧ t.intern k =
        .ok (t.lastLabel + 1, (t.extended info).insert (t.lastLabel + 1) (t.lastLabel + 1))) := by
  unfold LabelTable.intern
  cases hl : t.lookup k with
  | some l => exact .inl ⟨l, h.lookup.1 hl, rfl⟩
  | none =>
    refine .inr ⟨(h.chain.lookup_none k).1 hl, ?_⟩
    simp only
    rw [allocate_eq t _ h.bound]
    rcases Nat.lt_or_ge t.lastLabel maxLabel with hroom | hfull
    · rw [if_pos hroom]
      exact .inr ⟨hroom, _, ⟨rfl, rfl, rfl⟩, rfl⟩
    · rw [if_neg (by omega)]
      exact .inl ⟨Nat.le_antisymm h.bound hfull, rfl⟩

/-- The label arguments of a union are allocated; the second one of a `Load` is a count. -/
structure Allocated (t : LabelTable) (k : LabelKey) : Prop where
  l1 : k.l1 ≤ t.lastLabel
  l2 : k.op ≠ Operators.Load.code → k.l2 ≤ t.lastLabel

theorem Allocated.canonical (ha : Allocated t k) : Allocated t (canonical k) := by
  rcases swapOperands_cases k with ⟨h1, h2⟩ | ⟨hc, h1, h2⟩
  · constructor
    · exact Nat.le_trans (Nat.le_of_eq h1) ha.l1
    · intro hL
      rw [canonical_op] at hL
      exact Nat.le_trans (Nat.le_of_eq h2) (ha.l2 hL)
  · have hL := (isCommutative_ne hc).1
    constructor
    · exact Nat.le_trans (Nat.le_of_eq h1) (ha.l2 hL)
    · intro _
      exact Nat.le_trans (Nat.le_of_eq h2) ha.l1

theorem canonical_zeroed (k : LabelKey) :
    (constOffset ≤ (canonical k).l1 → (canonical k).op1 = 0) ∧
      (constOffset ≤ (canonical k).l2 → (canonical k).op2 = 0) :=
  ⟨fun h => if_pos h, fun h => if_pos h⟩

/-- What `__taint_union` can do: return a constant, pass the initializing label on, find the
canonical key, die, or store the canonical key under a new label. -/
inductive UnionResult (t : LabelTable) (S : LabelKey → Nat → Prop) (k : LabelKey) :
    Except Fault (Nat × LabelTable) → Prop where
  | const : ConstUnion (swapOperands k) → UnionResult t S k (.ok (0, t))
  | init : ¬ConstUnion (swapOperands k) → InitUnion (swapOperands k) →
      UnionResult t S k (.ok (kInitializingLabel, t))
  | found : ¬ConstUnion (swapOperands k) → ¬InitUnion (swapOperands k) → S (canonical k) l →
      UnionResult t S k (.ok (l, t))
  | die : t.lastLabel = maxLabel → UnionResult t S k (.error .die)
  | fresh : ¬ConstUnion (swapOperands k) → ¬InitUnion (swapOperands k) →
      (∀ l, ¬S (canonical k) l) → t.lastLabel < maxLabel → FreshInfo (canonical k) info →
      UnionResult t S k (.ok (t.lastLabel + 1,
        (t.extended info).insert (t.lastLabel + 1) (t.lastLabel + 1)))

theorem TableInv.taintUnion (h : TableInv t S) (k : LabelKey) :
    UnionResult t S k (taintUnion t k) := by
  rw [taintUnion_eq]
  by_cases hc : ConstUnion (swapOperands k)
  · rw [if_pos hc]
    exact .const hc
  rw [if_neg hc]
  by_cases hi : InitUnion (swapOperands k)
  · rw [if_pos hi]
    exact .init hc hi
  rw [if_neg hi]
  rcases h.intern (canonical k) with ⟨l, hS, hr⟩ | ⟨hn, ⟨hfull, hr⟩ | ⟨hroom, info, hinfo, hr⟩⟩
  · rw [hr]
    exact .found hc hi hS
  · rw [hr]
    exact .die hfull
  · rw [hr]
    exact .fresh hc hi hn hroom hinfo

theorem TableInv.taintUnion_ok (h : TableInv t S) (hu : Kirenenko.taintUnion t k = .ok (l, t')) :
    UnionResult t S k (.ok (l, t')) := by
  rw [← hu]
  exact h.taintUnion k

theorem TableInv.union_store (h : TableInv t S) (ha : Allocated t k)
    (hn : ∀ l, ¬S (canonical k) l) (hroom : t.lastLabel < maxLabel)
    (hinfo : FreshInfo (canonical k) info) :
    TableInv ((t.extended info).insert (t.lastLabel + 1) (t.lastLabel + 1))
      (fun k' l => S k' l ∨ (k' = canonical k ∧ l = t.lastLabel + 1)) := by
  have ha' := ha.canonical
  have hz := canonical_zeroed k
  rw [← hinfo.key] at hn ha' hz ⊢
  exact h.store hroom hn ha'.l1 ha'.l2 hz

theorem Allocated.not_init (ha : Allocated t k) (ho : Ordered t) (hL : k.op ≠ Operators.Load.code) :
    ¬InitUnion (swapOperands k) := by
  have hb := ho.bound
  have h1 := ha.l1
  have h2 := ha.l2 hL
  unfold InitUnion
  rcases swapOperands_cases k with ⟨e1, e2⟩ | ⟨_, e1, e2⟩
  · rw [e1, e2]
    omega
  · rw [e1, e2]
    omega

/-- What the callers of `__taint_union` rely on when it returns. -/
structure UnionReturns (t : LabelTable) (k : LabelKey) (l : Nat) (t' : LabelTable) : Prop where
  inv : ∃ S, TableInv t' S
  grows : Extends t t'
  next : t'.lastLabel ≤ t.lastLabel + 1
  cached : ∀ z mem, WellCached z mem t → WellCached z mem t'
  label : l ≤ t'.lastLabel
  key : l = 0 ∧ ConstUnion (swapOperands k) ∨ constOffset ≤ l ∧ t'.key l = canonical k

theorem TableInv.union_returns (h : TableInv t S) (ha : Allocated t k)
    (hi : ¬InitUnion (swapOperands k)) (hu : Kirenenko.taintUnion t k = .ok (l, t')) :
    UnionReturns t k l t' := by
  cases h.taintUnion_ok hu with
  | const hc =>
    exact ⟨⟨S, h⟩, .refl t, Nat.le_succ _, fun _ _ h => h, Nat.zero_le _, .inl ⟨rfl, hc⟩⟩
  | init _ hi' => exact (hi hi').elim
  | found _ _ hS =>
    obtain ⟨hk, hl, hlast⟩ := h.stored _ _ hS
    exact ⟨⟨S, h⟩, .refl t, Nat.le_succ _, fun _ _ h => h, hlast, .inr ⟨hl, hk⟩⟩
  | fresh _ _ hn hroom hinfo =>
    have hinv := h.union_store ha hn hroom hinfo
    refine ⟨⟨_, hinv⟩, (extended_extends t _).insert _ _, Nat.le_refl _, ?_, Nat.le_refl _,
      .inr ⟨?_, ?_⟩⟩
    · intro z mem hc
      exact hc.grow h.ordered ((extended_extends t _).insert _ _) fun _ _ he =>
        extended_expr hinfo.expr he
    · exact Nat.le_add_left _ _
    · exact (extended_key_new t _).trans hinfo.key

theorem TableInv.union_cases (h : TableInv t S) (ha : Allocated t k)
    (hi : ¬InitUnion (swapOperands k)) :
    Kirenenko.taintUnion t k = .error .die ∧ t.lastLabel = maxLabel ∨
      ∃ l t', Kirenenko.taintUnion t k = .ok (l, t') ∧ UnionReturns t k l t' := by
  cases hu : Kirenenko.taintUnion t k with
  | ok p => exact .inr ⟨p.1, p.2, rfl, h.union_returns ha hi hu⟩
  | error x =>
    have hr := h.taintUnion k
    rw [hu] at hr
    cases hr with
    | die hfull => exact .inl ⟨rfl, hfull⟩

/-- What a sequence of at most `k` unions does to the table. -/
structure TableGrows (t t' : LabelTable) (k : Nat) : Prop where
  inv : ∃ S, TableInv t' S
  grows : Extends t t'
  bound : t'.lastLabel ≤ t.lastLabel + k

theorem UnionReturns.tableGrows (h : UnionReturns t k l t') : TableGrows t t' 1 :=
  ⟨h.inv, h.grows, h.next⟩

theorem TableInv.tableGrows (h : TableInv t S) : TableGrows t t 0 :=
  ⟨⟨S, h⟩, .refl t, Nat.le_refl _⟩

theorem TableGrows.trans (h : TableGrows t u j) (h' : TableGrows u v k) :
    TableGrows t v (j + k) where
  inv := h'.inv
  grows := h.grows.trans h'.grows
  bound := by
    have h1 := h.bound
    have h2 := h'.bound
    omega

theorem TableGrows.mono (h : TableGrows t t' j) (hle : j ≤ k) : TableGrows t t' k :=
  ⟨h.inv, h.grows, Nat.le_trans h.bound (Nat.add_le_add_left hle _)⟩

theorem TableGrows.ordered (h : TableGrows t t' k) : Ordered t' := by
  obtain ⟨S, hS⟩ := h.inv
  exact hS.ordered

end Kirenenko
