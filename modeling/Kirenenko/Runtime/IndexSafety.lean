import Kirenenko.Runtime.LoadPaths
import Kirenenko.Runtime.UnionSpec

namespace Kirenenko
set_option autoImplicit true

/-- A label that a program can hold: an allocated one, or the one of bytes past the end of the
tainted file. -/
def Held (t : LabelTable) (l : Nat) : Prop := l ≤ t.lastLabel ∨ l = kInitializingLabel

/-- Every fault but the use of a record that is not allocated. -/
def Fault.InTable (f : Fault) : Prop := ∀ l, f ≠ .badIndex l

/-- A label whose record may be looked at: it is allocated, or the fault is among those of `E`. -/
def Readable (E : Fault → Prop) (t : LabelTable) (l : Nat) : Prop :=
  l ≤ t.lastLabel ∨ E (.badIndex l)

/-- The table stays in order and keeps its records. -/
structure TableKept (t t' : LabelTable) : Prop where
  inv : ∃ S, TableInv t' S
  grows : Extends t t'

theorem TableInv.kept (h : TableInv t S) : TableKept t t := ⟨⟨S, h⟩, .refl t⟩

theorem TableKept.trans (h : TableKept t u) (h' : TableKept u v) : TableKept t v :=
  ⟨h'.inv, h.grows.trans h'.grows⟩

theorem Held.extends (h : Held t l) (hg : Extends t t') : Held t' l := by
  rcases h with h | h
  · exact .inl (Nat.le_trans h hg.lastLabel)
  · exact .inr h

/-- What an operation on the table returns: a label to hold, and a table. -/
def ReturnsHeld (t : LabelTable) (p : Nat × LabelTable) : Prop := TableKept t p.2 ∧ Held p.2 p.1

theorem ReturnsHeld.of_kept (h : TableKept t u) (hr : ReturnsHeld u p) : ReturnsHeld t p :=
  ⟨h.trans hr.1, hr.2⟩

theorem initUnion_swapOperands :
    InitUnion (swapOperands k) ↔ k.l1 = kInitializingLabel ∨ k.l2 = kInitializingLabel := by
  unfold InitUnion
  rcases swapOperands_cases k with ⟨e1, e2⟩ | ⟨_, e1, e2⟩
  · rw [e1, e2]
  · rw [e1, e2, or_comm]

theorem TableInv.union_inTable (h : TableInv t S) (h1 : Held t k.l1)
    (h2 : k.op ≠ Operators.Load.code → Held t k.l2) :
    Ends Fault.InTable (ReturnsHeld t) (Kirenenko.taintUnion t k) := by
  have hres := h.taintUnion k
  generalize Kirenenko.taintUnion t k = r at hres
  cases hres with
  | const => exact ⟨h.kept, .inl (Nat.zero_le _)⟩
  | init => exact ⟨h.kept, .inr rfl⟩
  | found _ _ hS => exact ⟨h.kept, .inl (h.stored _ _ hS).2.2⟩
  | die => exact fun _ => nofun
  | fresh _ hi hn hroom hinfo =>
    obtain ⟨hne1, hne2⟩ := not_or.1 fun h => hi (initUnion_swapOperands.2 h)
    have ha : Allocated t k := ⟨h1.resolve_right hne1, fun hL => (h2 hL).resolve_right hne2⟩
    exact ⟨⟨⟨_, h.union_store ha hn hroom hinfo⟩, (extended_extends t _).insert _ _⟩,
      .inl (Nat.le_refl _)⟩

/-- A property of tables that the unions made by a load keep. -/
def KeptByLoads (P : LabelTable → Prop) : Prop :=
  ∀ t k l t', P t → Held t k.l1 → (k.op ≠ Operators.Load.code → Held t k.l2) →
    k.op ≠ Operators.fmemcmp.code → taintUnion t k = .ok (l, t') → P t'

theorem keptByLoads_true : KeptByLoads fun _ => True := fun _ _ _ _ _ _ _ _ _ => trivial

/-- What a load returns: a label to hold, and a table that has kept a property. -/
def LoadReturns (P : LabelTable → Prop) (t : LabelTable) (p : Nat × LabelTable) : Prop :=
  ReturnsHeld t p ∧ P p.2

theorem LoadReturns.of_kept (h : TableKept t u) (hr : LoadReturns P u p) : LoadReturns P t p :=
  ⟨.of_kept h hr.1, hr.2⟩

theorem KeptByLoads.union (hP : KeptByLoads P) (hE : ∀ f : Fault, f.InTable → E f)
    (h : TableInv t S) (ht : P t) (h1 : Held t k.l1)
    (h2 : k.op ≠ Operators.Load.code → Held t k.l2) (hop : k.op ≠ Operators.fmemcmp.code) :
    Ends E (LoadReturns P t) (taintUnion t k) := by
  have hends := h.union_inTable h1 h2
  cases hu : taintUnion t k with
  | ok p =>
    rw [hu] at hends
    exact ⟨hends, hP t k p.1 p.2 ht h1 h2 hop hu⟩
  | error f =>
    rw [hu] at hends
    exact hE f hends

theorem Readable.extends (h : Readable E t l) (hg : Extends t t') : Readable E t' l := by
  rcases h with h | h
  · exact .inl (Nat.le_trans h hg.lastLabel)
  · exact .inr h

theorem Readable.getLabelInfo (h : Readable E t l) :
    Ends E (fun info => l ≤ t.lastLabel ∧ info = t.info l) (t.getLabelInfo l) := by
  by_cases hl : l ≤ t.lastLabel
  · rw [getLabelInfo_ok hl]
    exact ⟨hl, rfl⟩
  · have hbad : t.getLabelInfo l = .error (.badIndex l) := if_neg hl
    rw [hbad]
    exact h.resolve_left hl

section
variable {t : LabelTable} {ls : Nat → Nat} {n : Nat} {E : Fault → Prop}

/-- The shape loop looks at a label only after it has compared it with the initializing label. -/
theorem shapeLoop_inTable (hl : ∀ j < k, Held t (ls (i + j))) :
    Ends Fault.InTable (fun _ => True) (shapeLoop t ls o i k) := by
  induction k generalizing i with
  | zero => trivial
  | succ k ih =>
    rw [shapeLoop]
    apply Ends.ite
    · intro _
      trivial
    · intro hne
      have hi : Held t (ls i) := hl 0 (Nat.succ_pos k)
      rw [getLabelInfo_ok (hi.resolve_right hne), except_ok_bind]
      refine .ite (fun _ => trivial) fun _ => ih fun j hj => ?_
      rw [Nat.succ_add_eq_add_succ]
      exact hl _ (Nat.succ_lt_succ hj)

theorem shapeLoop_initializing (hk : j < k) (hj : ls (i + j) = kInitializingLabel)
    (hlt : ∀ m < j, ls (i + m) ≠ kInitializingLabel ∧ ls (i + m) ≤ t.lastLabel ∧
      (t.key (ls (i + m))).op1 = (o + (i + m)) % 2 ^ 64) :
    shapeLoop t ls o i k = .ok .initializing := by
  induction k generalizing i j with
  | zero => omega
  | succ k ih =>
    rw [shapeLoop]
    cases j with
    | zero => exact if_pos hj
    | succ j =>
      obtain ⟨hne, hle, hop⟩ := hlt 0 (Nat.succ_pos j)
      rw [Nat.add_zero] at hne hle hop
      rw [if_neg hne, getLabelInfo_ok hle, except_ok_bind, if_neg (fun h => h hop)]
      apply ih (Nat.lt_of_succ_lt_succ hk)
      · rw [Nat.succ_add_eq_add_succ]
        exact hj
      · intro m hm
        rw [Nat.succ_add_eq_add_succ]
        exact hlt (m + 1) (Nat.succ_lt_succ hm)

theorem extractLoop_ends (hl : ∀ j < k, Readable E t (ls (i + j))) :
    Ends E (fun _ => True) (extractLoop t ls p i o k) := by
  induction k generalizing i o with
  | zero => trivial
  | succ k ih =>
    rw [extractLoop]
    apply (hl 0 (Nat.succ_pos k)).getLabelInfo.bind
    intro info _
    apply Ends.ite
    · intro _
      trivial
    · intro _
      apply ih
      intro j hj
      rw [Nat.succ_add_eq_add_succ]
      exact hl _ (Nat.succ_lt_succ hj)

theorem extractParent_ends (h : TableInv t S) (h0 : ls 0 ≤ t.lastLabel)
    (hl : ∀ i < n, Readable E t (ls i)) :
    Ends E (fun p => ∀ l, p = some l → l ≤ t.lastLabel)
      (extractParent t ls n (t.info (ls 0))) := by
  have hparent : (t.info (ls 0)).l1 ≤ t.lastLabel := by
    change (t.key (ls 0)).l1 ≤ t.lastLabel
    by_cases hc : constOffset ≤ ls 0
    · exact Nat.le_trans (Nat.le_of_lt (h.ordered.l1 _ hc h0)) h0
    · have hzero : ls 0 = constLabel := Nat.lt_one_iff.1 (Nat.lt_of_not_le hc)
      rw [hzero, h.zero]
      exact Nat.zero_le _
  unfold extractParent
  apply Ends.ite
  · intro _
    apply (extractLoop_ends fun j hj => ?_).bind
    · intro o _
      rw [getLabelInfo_ok hparent, except_ok_bind]
      intro l hl
      split at hl
      · cases hl
        exact hparent
      · cases hl
    · rw [Nat.zero_add]
      exact hl j hj
  · intro _ l hl
    cases hl

theorem concatLoop_ends (hP : KeptByLoads P) (hE : ∀ f : Fault, f.InTable → E f)
    (h : TableInv t S) (ht : P t) (hlabel : Held t label) (hl : ∀ i < n, Readable E t (ls i)) :
    Ends E (LoadReturns P t) (concatLoop app ls n fuel t label i) := by
  induction fuel generalizing t S label i with
  | zero => exact hE _ fun _ => nofun
  | succ fuel ih =>
    -- the induction goes on in the table that the union of this step leaves
    have hnext : ∀ p m, LoadReturns P t p →
        Ends E (LoadReturns P t) (concatLoop app ls n fuel p.2 p.1 m) := by
      rintro ⟨l, t'⟩ m ⟨⟨hk, hl'⟩, ht'⟩
      obtain ⟨S', hS'⟩ := hk.inv
      apply (ih hS' ht' hl' fun i hi => (hl i hi).extends hk.grows).mono
      exact fun _ => .of_kept hk
    have hconcat : Operators.Concat.code ≠ Operators.fmemcmp.code := by decide
    have htrunc : Operators.Trunc.code ≠ Operators.fmemcmp.code := by decide
    rw [concatLoop]
    apply Ends.ite
    · intro hi
      apply (hl i hi).getLabelInfo.bind
      rintro info ⟨hli, _⟩
      apply Ends.ite
      · intro _
        apply Ends.ite
        · intro _
          exact (hP.union hE h ht hlabel (fun _ => .inl hli) hconcat).bind fun p hp => hnext p _ hp
        · intro _
          apply (hP.union hE h ht (.inl hli) (fun _ => .inl (Nat.zero_le _)) htrunc).bind
          rintro ⟨trunc, t'⟩ ⟨⟨hk, hheld⟩, ht'⟩
          obtain ⟨S', hS'⟩ := hk.inv
          apply (hP.union hE hS' ht' (hlabel.extends hk.grows) (fun _ => hheld) hconcat).mono
          exact fun _ => .of_kept hk
      · intro _
        apply (hP.union hE h ht hlabel (fun _ => .inl (Nat.zero_le _)) hconcat).bind
        exact fun p hp => hnext p _ hp
    · intro _
      exact ⟨⟨h.kept, hlabel⟩, ht⟩

/-- The loads that do not use the initializing label as an index: it is the first label, or there
is none, or the first one follows labels that look like consecutive input bytes. -/
def LoadSafe (t : LabelTable) (ls : Nat → Nat) (n : Nat) : Prop :=
  ls 0 = kInitializingLabel ∨ (∀ i < n, ls i ≠ kInitializingLabel) ∨
    (t.key (ls 0)).op = 0 ∧ ∃ j < n, ls j = kInitializingLabel ∧ ∀ i < j,
      ls i ≠ kInitializingLabel ∧
      (0 < i → (t.key (ls i)).op1 = ((t.key (ls 0)).op1 + i) % 2 ^ 64)

/-- The labels that a load looks at can be held. -/
structure LoadHeld (t : LabelTable) (ls : Nat → Nat) (n : Nat) : Prop where
  first : Held t (ls 0)
  all : ∀ i < n, Held t (ls i)

theorem LoadHeld.of_all (h : ∀ i, Held t (ls i)) : LoadHeld t ls n := ⟨h 0, fun i _ => h i⟩

theorem loadShape_inTable (hl : LoadHeld t ls n) (info : LabelInfo) :
    Ends Fault.InTable (fun _ => True) (loadShape t ls n info) := by
  unfold loadShape
  refine .ite (fun _ => trivial) fun _ => .ite (fun _ => fun _ => nofun) fun hn => ?_
  exact shapeLoop_inTable fun j hj => hl.all _ (by omega)

theorem loadShape_initializing (hl : LoadHeld t ls n) (h0 : (t.key (ls 0)).op = 0)
    (hne : ls 0 ≠ kInitializingLabel) (hj : j < n) (hinit : ls j = kInitializingLabel)
    (hlt : ∀ i < j, ls i ≠ kInitializingLabel ∧
      (0 < i → (t.key (ls i)).op1 = ((t.key (ls 0)).op1 + i) % 2 ^ 64)) :
    loadShape t ls n (t.info (ls 0)) = .ok .initializing := by
  cases j with
  | zero => exact (hne hinit).elim
  | succ j =>
    have hn : n ≠ 0 := by omega
    change (if (t.key (ls 0)).op ≠ 0 then _ else _) = _
    rw [if_neg (fun h => h h0), if_neg hn]
    apply shapeLoop_initializing (j := j) (by omega)
    · rw [Nat.add_comm]
      exact hinit
    · intro m hm
      obtain ⟨hm1, hm2⟩ := hlt (1 + m) (by omega)
      exact ⟨hm1, (hl.all (1 + m) (by omega)).resolve_right hm1, hm2 (by omega)⟩

theorem loadConsecutive_ends (hP : KeptByLoads P) (hE : ∀ f : Fault, f.InTable → E f)
    (h : TableInv t S) (ht : P t) (h0 : ls 0 ≤ t.lastLabel) :
    Ends E (LoadReturns P t) (loadConsecutive t ls n) := by
  apply Ends.ite
  · intro _
    exact ⟨⟨h.kept, .inl h0⟩, ht⟩
  · intro _
    exact hP.union hE h ht (.inl h0) (fun hL => (hL rfl).elim)
      (by decide : Operators.Load.code ≠ Operators.fmemcmp.code)

/-- A load returns a label to hold, if it does not look at a record that it may not. -/
theorem taintUnionLoad_ends (hP : KeptByLoads P) (hE : ∀ f : Fault, f.InTable → E f)
    (h : TableInv t S) (ht : P t) (hl : LoadHeld t ls n) (hr : ∀ i < n, Readable E t (ls i)) :
    Ends E (LoadReturns P t) (taintUnionLoad t app ls n) := by
  unfold taintUnionLoad
  apply Ends.ite
  · intro _
    exact ⟨⟨h.kept, .inr rfl⟩, ht⟩
  intro hne
  apply Ends.ite
  · intro _
    exact ⟨⟨h.kept, .inl (Nat.zero_le _)⟩, ht⟩
  intro _
  have h0 : ls 0 ≤ t.lastLabel := hl.first.resolve_right hne
  rw [getLabelInfo_ok h0, except_ok_bind]
  apply ((loadShape_inTable hl _).weaken hE).bind
  intro shape _
  cases shape with
  | initializing => exact ⟨⟨h.kept, .inr rfl⟩, ht⟩
  | consecutive => exact loadConsecutive_ends hP hE h ht h0
  | other =>
    apply (extractParent_ends h h0 hr).bind
    intro parent hparent
    cases parent with
    | some l => exact ⟨⟨h.kept, .inl (hparent l rfl)⟩, ht⟩
    | none => exact concatLoop_ends hP hE h ht (.inl h0) hr

theorem taintUnionLoad_inTable (h : TableInv t S) (hl : LoadHeld t ls n)
    (hsafe : LoadSafe t ls n) :
    Ends Fault.InTable (ReturnsHeld t) (taintUnionLoad t app ls n) := by
  rcases hsafe with hinit | hall | ⟨hop, j, hj, hinit, hlt⟩
  · rw [taintUnionLoad, if_pos hinit]
    exact ⟨h.kept, .inr rfl⟩
  · have hr : ∀ i < n, Readable Fault.InTable t (ls i) := fun i hi =>
      .inl ((hl.all i hi).resolve_right (hall i hi))
    exact (taintUnionLoad_ends keptByLoads_true (fun _ hf => hf) h trivial hl hr).mono
      fun _ hret => hret.1
  · unfold taintUnionLoad
    apply Ends.ite
    · intro _
      exact ⟨h.kept, .inr rfl⟩
    intro hne
    apply Ends.ite
    · intro _
      exact ⟨h.kept, .inl (Nat.zero_le _)⟩
    intro _
    rw [getLabelInfo_ok (hl.first.resolve_right hne), except_ok_bind,
      loadShape_initializing hl hop hne hj hinit hlt, except_ok_bind]
    exact ⟨h.kept, .inr rfl⟩

/-- What a store leaves: labels to hold in the cells it writes, and the others unchanged. -/
def StoresHeld (t : LabelTable) (ls : Nat → Nat) (n : Nat)
    (p : (Nat → Nat) × LabelTable) : Prop :=
  TableKept t p.2 ∧ ∀ i, Held p.2 (p.1 i) ∧ (n ≤ i → p.1 i = ls i)

theorem storeExtracts_inTable (h : TableInv t S) (hl : l ≤ t.lastLabel)
    (hls : ∀ i, Held t (ls i)) (hn : i + k = n) :
    Ends Fault.InTable (StoresHeld t ls n) (storeExtracts l i k t ls) := by
  induction k generalizing t S i ls with
  | zero => exact ⟨h.kept, fun j => ⟨hls j, fun _ => rfl⟩⟩
  | succ k ih =>
    rw [storeExtracts]
    apply (h.union_inTable (.inl hl) fun _ => .inl (Nat.zero_le _)).bind
    rintro ⟨x, t'⟩ ⟨hk, hx⟩
    obtain ⟨S', hS'⟩ := hk.inv
    have hls' : ∀ j, Held t' (Function.update ls i x j) := by
      intro j
      by_cases hj : j = i
      · subst hj
        rw [Function.update_self]
        exact hx
      · rw [Function.update_of_ne hj]
        exact (hls j).extends hk.grows
    apply (ih hS' (Nat.le_trans hl hk.grows.lastLabel) hls' (by omega)).mono
    rintro ⟨ls', t''⟩ ⟨hk', hcells⟩
    refine ⟨hk.trans hk', ?_⟩
    intro j
    refine ⟨(hcells j).1, ?_⟩
    intro hj
    rw [(hcells j).2 hj]
    exact Function.update_of_ne (by omega) _ _

/-- The stores that write only labels that exist: the bytes of a `Load` are the labels that follow
its first one. -/
def StoreSafe (t : LabelTable) (l n : Nat) : Prop :=
  (t.key l).op = Operators.Load.code → (t.key l).l1 + n ≤ t.lastLabel + 1

theorem taintUnionStore_inTable (h : TableInv t S) (hl : Held t l) (hls : ∀ i, Held t (ls i))
    (hsafe : StoreSafe t l n) :
    Ends Fault.InTable (StoresHeld t ls n) (taintUnionStore t l ls n) := by
  unfold taintUnionStore
  apply Ends.ite
  · intro _
    refine ⟨h.kept, ?_⟩
    intro i
    by_cases hi : i < n
    · simp only [if_pos hi]
      exact ⟨hl, fun hle => absurd hi (Nat.not_lt.2 hle)⟩
    · simp only [if_neg hi]
      exact ⟨hls i, fun _ => trivial⟩
  intro hc
  have hle : l ≤ t.lastLabel := hl.resolve_right fun he => hc (.inl he)
  rw [getLabelInfo_ok hle, except_ok_bind]
  apply Ends.ite
  · rintro ⟨rfl, _⟩
    refine ⟨h.kept, ?_⟩
    intro i
    by_cases hi : i = 0
    · subst hi
      simp only [Function.update_self]
      exact ⟨hl, fun h => absurd h (by decide)⟩
    · simp only [Function.update_of_ne hi]
      exact ⟨hls i, fun _ => trivial⟩
  intro _
  apply Ends.ite
  · intro hop
    have hsum := hsafe hop
    have hb := h.bound
    refine ⟨h.kept, ?_⟩
    intro i
    by_cases hi : i < n
    · simp only [if_pos hi]
      refine ⟨.inl ?_, fun hle => absurd hi (Nat.not_lt.2 hle)⟩
      change ((t.key l).l1 + i) % 2 ^ 32 ≤ t.lastLabel
      exact Nat.le_trans (Nat.mod_le _ _) (by omega)
    · simp only [if_neg hi]
      exact ⟨hls i, fun _ => trivial⟩
  · intro _
    exact storeExtracts_inTable h hle hls (Nat.zero_add n)

theorem storeExtracts_kept (h : TableInv t S) (hl : l ≤ t.lastLabel) :
    Ends Fault.InTable (fun p => TableKept t p.2) (storeExtracts l i k t ls) := by
  induction k generalizing t S i ls with
  | zero => exact h.kept
  | succ k ih =>
    rw [storeExtracts]
    apply (h.union_inTable (.inl hl) fun _ => .inl (Nat.zero_le _)).bind
    rintro ⟨x, t'⟩ ⟨hk, _⟩
    obtain ⟨S', hS'⟩ := hk.inv
    exact (ih hS' (Nat.le_trans hl hk.grows.lastLabel)).mono fun _ => hk.trans

/-- Whatever labels it writes, a store of a label to hold uses no record that is not allocated. -/
theorem taintUnionStore_kept (h : TableInv t S) (hl : Held t l) :
    Ends Fault.InTable (fun p => TableKept t p.2) (taintUnionStore t l ls n) := by
  unfold taintUnionStore
  refine .ite (fun _ => h.kept) fun hc => ?_
  have hle : l ≤ t.lastLabel := hl.resolve_right fun he => hc (.inl he)
  rw [getLabelInfo_ok hle, except_ok_bind]
  exact .ite (fun _ => h.kept) fun _ => .ite (fun _ => h.kept) fun _ => storeExtracts_kept h hle

end

end Kirenenko
